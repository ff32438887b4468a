import Mathlib.Data.Nat.Log
import Resman.Lib.Run
import Resman.RbTree.Compare
import Resman.RbTree.Operations

/-!
# Left-leaning red-black trees over whole runs

A run is a list of `rb_insert` and `rb_delete` calls from the empty tree, with the allocator
succeeding and every deletion made of a stored key while at least two entries are stored
(`Allowed`). `WF` is what every such run keeps: the keys are sorted and the shape is `LL` with a
black root. `rbInsert_spec` and `rbDelete_spec` are the two steps, `redBlack_of_run` is the run.

`LeftLeaning` says the same of a tree in the words of the data structure: search order, black root,
no red right child, no red node over a red left child, one number of black nodes on every path.
-/

namespace Resman.Rb

open RbNode
open Lib (At StrictTotal Sorted put exec Along exec_total exec_invariant)

variable {K V : Type}

def keys (t : RbNode K V) : List K := (traverse t).map Prod.fst

theorem mem_keys {t : RbNode K V} {k : K} : k ∈ keys t ↔ ∃ d, (k, d) ∈ traverse t := by
  simp [keys]

theorem keys_eq_map (t : RbNode K V) : keys t = (nodes t).map fun e => e.2.1 := by
  rw [keys, traverse_eq, List.map_map]
  rfl

theorem mem_keys_iff {t : RbNode K V} {k : K} : k ∈ keys t ↔ ∃ e ∈ nodes t, e.2.1 = k := by
  rw [keys_eq_map, List.mem_map]

/-- Without memory for it, a new key is written through a null pointer. -/
theorem rbInsert_none {rb : RbTree K V} {key : K} (data : Option V)
    (h : ∀ k ∈ keys rb.root, rb.cmp key k ≠ 0) : rbInsert rb none key data = none := by
  rcases search_cases rb.cmp key rb.root with ⟨xs, e, ys, hat⟩ | ⟨xs, ys, hgap⟩
  · exact absurd hat.equal (h e.2.1 (mem_keys_iff.2 ⟨e, hat.mem, rfl⟩))
  · rw [rbInsert, insert_gap_none data hgap]
    rfl

/-! ## The shape in the words of the data structure -/

def SearchTree (cmp : K → K → Int) : RbNode K V → Prop
  | null => True
  | node _ _ k _ l r => (∀ k' ∈ keys l, cmp k' k < 0) ∧ (∀ k' ∈ keys r, cmp k k' < 0) ∧
      SearchTree cmp l ∧ SearchTree cmp r

def NoRedRight : RbNode K V → Prop
  | null => True
  | node _ _ _ _ l r => isRed r = false ∧ NoRedRight l ∧ NoRedRight r

def NoRedRedLeft : RbNode K V → Prop
  | null => True
  | node _ c _ _ l r => ¬ (c = true ∧ isRed l = true) ∧ NoRedRedLeft l ∧ NoRedRedLeft r

/-- The number of black nodes on each path from the root to null. -/
def blackCounts : RbNode K V → List Nat
  | null => [0]
  | node _ c _ _ l r => (blackCounts l ++ blackCounts r).map (· + if c then 0 else 1)

def height : RbNode K V → Nat
  | null => 0
  | node _ _ _ _ l r => 1 + max (height l) (height r)

structure LeftLeaning (cmp : K → K → Int) (t : RbNode K V) : Prop where
  search : SearchTree cmp t
  root_black : isRed t = false
  no_red_right : NoRedRight t
  no_red_red : NoRedRedLeft t
  balanced : ∃ n, ∀ m ∈ blackCounts t, m = n

section LL

variable {t : RbNode K V} {c : Bool} {n : Nat}

theorem LL.noRedRight (h : LL t c n) : NoRedRight t := by
  induction h with
  | leaf => trivial
  | red _ hr ihl ihr => exact ⟨hr.isRed_eq, ihl, ihr⟩
  | black _ hr ihl ihr => exact ⟨hr.isRed_eq, ihl, ihr⟩

theorem LL.noRedRedLeft (h : LL t c n) : NoRedRedLeft t := by
  induction h with
  | leaf => trivial
  | red hl _ ihl ihr => exact ⟨by simp [hl.isRed_eq], ihl, ihr⟩
  | black _ _ ihl ihr => exact ⟨by simp, ihl, ihr⟩

theorem LL.blackCounts (h : LL t c n) : ∀ m ∈ Rb.blackCounts t, m = n := by
  induction h with
  | leaf => simp [Rb.blackCounts]
  | red _ _ ihl ihr =>
    intro m hm
    simp only [Rb.blackCounts, List.mem_map, List.mem_append] at hm
    obtain ⟨p, hp, rfl⟩ := hm
    exact hp.elim (ihl p) (ihr p)
  | black _ _ ihl ihr =>
    intro m hm
    simp only [Rb.blackCounts, List.mem_map, List.mem_append] at hm
    obtain ⟨p, hp, rfl⟩ := hm
    exact congrArg (· + 1) (hp.elim (ihl p) (ihr p))

/-- At most every second node of a path is red. -/
theorem LL.height_le (h : LL t c n) : height t ≤ 2 * n + if c then 1 else 0 := by
  induction h with
  | leaf => simp [height]
  | red _ _ ihl ihr => simp only [height, Bool.false_eq_true, ↓reduceIte] at *; omega
  | @black _ _ _ _ _ cl _ _ _ ihl ihr =>
    simp only [height, Bool.false_eq_true, ↓reduceIte] at *
    cases cl <;> simp at ihl <;> omega

/-- A tree of black height `n` holds a complete binary tree of `n` levels. -/
theorem LL.pow_le (h : LL t c n) : 2 ^ n ≤ countNodes t + 1 := by
  induction h with
  | leaf => simp [countNodes]
  | red _ _ ihl ihr => simp only [countNodes]; omega
  | black _ _ ihl ihr => simp only [countNodes, Nat.pow_succ]; omega

theorem LL.height_le_log (h : LL t false n) : height t ≤ 2 * Nat.log 2 (countNodes t + 1) := by
  have hn : n ≤ Nat.log 2 (countNodes t + 1) := Nat.le_log_of_pow_le (by decide) h.pow_le
  have hh := h.height_le
  simp only [Bool.false_eq_true, ↓reduceIte] at hh
  omega

theorem blackCounts_ne_nil (t : RbNode K V) : Rb.blackCounts t ≠ [] := by
  induction t with
  | null => exact List.cons_ne_nil _ _
  | node a c k d l r ihl _ =>
    intro h
    exact ihl (List.append_eq_nil_iff.1 (List.map_eq_nil_iff.1 h)).1

/-- Without red right children and pairs of red nodes, one number of black nodes on
every path makes the shape. -/
theorem LL.of_blackCounts (hright : NoRedRight t) (hred : NoRedRedLeft t)
    (hn : ∀ m ∈ Rb.blackCounts t, m = n) :
    LL t (isRed t) n := by
  induction t generalizing n with
  | null =>
    obtain rfl : 0 = n := hn 0 List.mem_cons_self
    exact .leaf
  | node a c k d l r ihl ihr =>
    obtain ⟨hr, hrightl, hrightr⟩ := hright
    obtain ⟨hpair, hredl, hredr⟩ := hred
    have hcount : ∀ m, m ∈ Rb.blackCounts l ∨ m ∈ Rb.blackCounts r →
        (m + if c then 0 else 1) = n := by
      intro m hm
      exact hn _ (List.mem_map_of_mem (List.mem_append.2 hm))
    cases c with
    | true =>
      have hl : isRed l = false := by
        cases h : isRed l with
        | false => rfl
        | true => exact absurd ⟨rfl, h⟩ hpair
      have hL := ihl hrightl hredl fun m hm => hcount m (.inl hm)
      have hR := ihr hrightr hredr fun m hm => hcount m (.inr hm)
      rw [hl] at hL
      rw [hr] at hR
      exact .red hL hR
    | false =>
      obtain ⟨m, hm⟩ := List.exists_mem_of_ne_nil _ (blackCounts_ne_nil l)
      obtain rfl : m + 1 = n := hcount m (.inl hm)
      have hL := ihl (n := m) hrightl hredl
        fun m' hm' => by have h := hcount m' (.inl hm'); simpa using h
      have hR := ihr (n := m) hrightr hredr
        fun m' hm' => by have h := hcount m' (.inr hm'); simpa using h
      rw [hr] at hR
      exact .black hL hR

end LL

theorem sorted_node {cmp : K → K → Int} (hc : StrictTotal cmp) {a : Addr} {c : Bool} {k : K}
    {d : Option V} {l r : RbNode K V} :
    Sorted cmp (traverse (node a c k d l r)) ↔ Sorted cmp (traverse l) ∧ Sorted cmp (traverse r) ∧
      (∀ e ∈ traverse l, cmp e.1 k < 0) ∧ (∀ e ∈ traverse r, cmp k e.1 < 0) :=
  Lib.sorted_mid hc

theorem searchTree_of_sorted {cmp : K → K → Int} (hc : StrictTotal cmp) {t : RbNode K V}
    (h : Sorted cmp (traverse t)) : SearchTree cmp t := by
  induction t with
  | null => trivial
  | node a c k d l r ihl ihr =>
    obtain ⟨hl, hr, hlk, hkr⟩ := (sorted_node hc).1 h
    refine ⟨fun k' hk' => ?_, fun k' hk' => ?_, ihl hl, ihr hr⟩
    · obtain ⟨d', hd'⟩ := mem_keys.1 hk'
      exact hlk _ hd'
    · obtain ⟨d', hd'⟩ := mem_keys.1 hk'
      exact hkr _ hd'

theorem sorted_of_searchTree {cmp : K → K → Int} (hc : StrictTotal cmp) {t : RbNode K V}
    (h : SearchTree cmp t) : Sorted cmp (traverse t) := by
  induction t with
  | null => exact List.Pairwise.nil
  | node a c k d l r ihl ihr =>
    obtain ⟨hlk, hkr, hl, hr⟩ := h
    refine (sorted_node hc).2 ⟨ihl hl, ihr hr, ?_, ?_⟩
    · intro e he
      exact hlk e.1 (List.mem_map_of_mem he)
    · intro e he
      exact hkr e.1 (List.mem_map_of_mem he)

/-! ## One step -/

/-- What every run keeps. -/
structure WF (rb : RbTree K V) : Prop where
  total : StrictTotal rb.cmp
  sorted : Sorted rb.cmp (traverse rb.root)
  shape : ∃ n, LL rb.root false n

theorem WF.leftLeaning {rb : RbTree K V} (h : WF rb) : LeftLeaning rb.cmp rb.root := by
  obtain ⟨n, hn⟩ := h.shape
  exact ⟨searchTree_of_sorted h.total h.sorted, hn.isRed_eq, hn.noRedRight, hn.noRedRedLeft, n,
    hn.blackCounts⟩

theorem LeftLeaning.shape {cmp : K → K → Int} {t : RbNode K V} (h : LeftLeaning cmp t) :
    ∃ n, LL t false n := by
  obtain ⟨n, hn⟩ := h.balanced
  refine ⟨n, ?_⟩
  have hll := LL.of_blackCounts h.no_red_right h.no_red_red hn
  rwa [h.root_black] at hll

/-- A left-leaning red-black tree is what the runs keep. -/
theorem LeftLeaning.wf {rb : RbTree K V} (hc : StrictTotal rb.cmp)
    (h : LeftLeaning rb.cmp rb.root) : WF rb :=
  ⟨hc, sorted_of_searchTree hc h.search, h.shape⟩

/-- The nodes are in order of their keys exactly when the entries are sorted. -/
theorem inOrder_iff {cmp : K → K → Int} {t : RbNode K V} :
    InOrder cmp (nodes t) ↔ Sorted cmp (traverse t) := by
  rw [traverse_eq, Sorted, List.pairwise_map]
  rfl

theorem WF.weak {rb : RbTree K V} (h : WF rb) : WeakWF rb :=
  ⟨h.total.weak, inOrder_iff.2 h.sorted, h.shape⟩

theorem WeakWF.strict {rb : RbTree K V} (h : WeakWF rb) (hc : StrictTotal rb.cmp) : WF rb :=
  ⟨hc, inOrder_iff.1 h.sorted, h.shape⟩

theorem WF.create {cmp : K → K → Int} (hc : StrictTotal cmp) (del : Bool) :
    WF (⟨null, cmp, del⟩ : RbTree K V) :=
  (WeakWF.create hc.weak del).strict hc

/-- A stored key cuts the nodes at the node that has it. -/
theorem WF.at_of_mem {rb : RbTree K V} (h : WF rb) {key : K} (hk : key ∈ keys rb.root) :
    ∃ xs e ys, e.2.1 = key ∧ At (fun a => rb.cmp key a.2.1) (nodes rb.root) xs e ys := by
  obtain ⟨e, he, rfl⟩ := mem_keys_iff.1 hk
  obtain ⟨xs, ys, hsplit⟩ := List.append_of_mem he
  exact ⟨xs, e, ys, rfl, h.weak.at_of_split hsplit⟩

theorem rbInsert_spec {rb : RbTree K V} (h : WF rb) (a : Addr) (key : K) (data : Option V) :
    ∃ rb', rbInsert rb (some a) key data = some rb' ∧ WF rb' ∧ rb'.cmp = rb.cmp ∧
      traverse rb'.root = put rb.cmp key data (traverse rb.root) := by
  classical
  rcases h.weak.at_or_gap key with ⟨xs, e, ys, hat⟩ | ⟨xs, ys, hgap⟩
  · obtain ⟨hins, hnodes, hwf⟩ := rbInsert_at h.weak (some a) data hat
    refine ⟨_, hins, hwf.strict h.total, rfl, ?_⟩
    have hput := Lib.put_of_at h.total.weak
      (hat.map Prod.snd fun e : K × Option V => rb.cmp key e.1) data
    rw [traverse_eq, hnodes, traverse_eq, hput, List.map_append, List.map_cons,
      h.total.eq_of_zero hat.equal]
  · obtain ⟨root, hins, hnodes, hwf⟩ := rbInsert_gap h.weak a data hgap
    refine ⟨_, hins, hwf.strict h.total, rfl, ?_⟩
    have hput := Lib.put_of_gap h.total.weak
      (hgap.map Prod.snd fun e : K × Option V => rb.cmp key e.1) data
    rw [traverse_eq, hnodes, traverse_eq, hput, List.map_append, List.map_cons]

theorem rbDelete_spec [DecidableEq K] {rb : RbTree K V} (h : WF rb) {key : K}
    (hk : key ∈ keys rb.root) (h2 : 2 ≤ rbSize rb) :
    ∃ rb' calls, rbDelete rb key = some (rb', calls) ∧ WF rb' ∧ rb'.cmp = rb.cmp ∧
      traverse rb'.root = Lib.del key (traverse rb.root) := by
  obtain ⟨xs, e, ys, rfl, hat⟩ := h.at_of_mem hk
  obtain ⟨rb', calls, hrb, hwf, hroot, htrav⟩ := rbDelete_stored h.weak h2 hat
  have hcmp : rb'.cmp = rb.cmp := by rw [hroot]
  refine ⟨rb', calls, hrb, hwf.strict (hcmp ▸ h.total), hcmp, htrav.trans ?_⟩
  rw [traverse_eq, List.map_append]
  exact (Lib.del_of_at h.total (hat.map Prod.snd fun a : K × Option V => rb.cmp e.2.1 a.1)).symm

/-! ## Runs -/

/-- A call of `rb_insert` (with the address that the allocator returns) or of `rb_delete`. -/
inductive RbOp (K V : Type) where
  | insert (addr : Addr) (key : K) (data : Option V)
  | delete (key : K)

variable [DecidableEq K]

def rbStep (rb : RbTree K V) : RbOp K V → Option (RbTree K V)
  | .insert a k d => rbInsert rb (some a) k d
  | .delete k => (rbDelete rb k).map Prod.fst

/-- Only stored keys are deleted, and never the last one. -/
def Allowed (rb : RbTree K V) : RbOp K V → Prop
  | .insert .. => True
  | .delete k => k ∈ keys rb.root ∧ 2 ≤ rbSize rb

instance (rb : RbTree K V) : ∀ op, Decidable (Allowed rb op)
  | .insert .. => isTrue trivial
  | .delete k => inferInstanceAs (Decidable (k ∈ keys rb.root ∧ 2 ≤ rbSize rb))

theorem rbStep_wf {rb : RbTree K V} (h : WF rb) {op : RbOp K V} (hop : Allowed rb op) :
    ∃ rb', rbStep rb op = some rb' ∧ WF rb' ∧ rb'.cmp = rb.cmp := by
  cases op with
  | insert a k d =>
    obtain ⟨rb', hins, hwf, hcmp, -⟩ := rbInsert_spec h a k d
    exact ⟨rb', hins, hwf, hcmp⟩
  | delete k =>
    obtain ⟨rb', calls, hdel, hwf, hcmp, -⟩ := rbDelete_spec h hop.1 hop.2
    exact ⟨rb', by simp [rbStep, hdel], hwf, hcmp⟩

theorem run_wf {cmp : K → K → Int} (hc : StrictTotal cmp) (del : Bool) {ops : List (RbOp K V)}
    (hops : Along rbStep Allowed ⟨null, cmp, del⟩ ops) :
    ∃ rb, exec rbStep ⟨null, cmp, del⟩ ops = some rb ∧ WF rb ∧ rb.cmp = cmp := by
  have hstep : ∀ (rb : RbTree K V) op, (WF rb ∧ rb.cmp = cmp) → Allowed rb op →
      ∃ rb', rbStep rb op = some rb' ∧ (WF rb' ∧ rb'.cmp = cmp) := by
    rintro rb op ⟨h, rfl⟩ hop
    exact rbStep_wf h hop
  have h0 : WF (⟨null, cmp, del⟩ : RbTree K V) ∧ cmp = cmp := ⟨WF.create hc del, rfl⟩
  obtain ⟨rb, hrb⟩ := exec_total hstep h0 hops
  refine ⟨rb, hrb, exec_invariant (I := fun rb => WF rb ∧ rb.cmp = cmp) h0 ?_ hops hrb⟩
  intro m op m' hm hop hs
  obtain ⟨rb', hrb', hI⟩ := hstep m op hm hop
  exact Option.some.inj (hs.symm.trans hrb') ▸ hI

/-- **Red-black shape over whole runs.** Every run of insertions and allowed deletions
under a strict total order goes through without reading or writing a field through a null
pointer, and ends in a left-leaning red-black tree whose height is at most twice the
logarithm of its size plus one. -/
theorem redBlack_of_run {cmp : K → K → Int} (hc : StrictTotal cmp) (del : Bool)
    {ops : List (RbOp K V)} (hops : Along rbStep Allowed ⟨null, cmp, del⟩ ops) :
    ∃ rb, exec rbStep ⟨null, cmp, del⟩ ops = some rb ∧ LeftLeaning cmp rb.root ∧
      height rb.root ≤ 2 * Nat.log 2 (rbSize rb + 1) := by
  obtain ⟨rb, hrb, hwf, rfl⟩ := run_wf hc del hops
  obtain ⟨n, hn⟩ := hwf.shape
  exact ⟨rb, hrb, hwf.leftLeaning, hn.height_le_log⟩

/-- Pointer keys: three insertions, then one of the keys is deleted. -/
theorem redBlack_of_run_cmpaddr :
    ∃ rb, exec rbStep (⟨null, cmpaddr, false⟩ : RbTree (BitVec 64) Nat)
        [.insert 1 10 (some 100), .insert 2 30 none, .insert 3 20 (some 300), .delete 20] =
          some rb ∧
      LeftLeaning cmpaddr rb.root ∧ height rb.root ≤ 2 * Nat.log 2 (rbSize rb + 1) :=
  redBlack_of_run cmpaddr_strictTotal false (by decide +kernel)

end Resman.Rb
