import Resman.Lib.Tally
import Resman.RbTree.FiniteMap

/-!
# Trees with integer keys

The file monitor keys its two trees by watch descriptors. `IntTree` says of such a tree that it
compares by `cmpint`, that all its keys are non-negative integers, and that it is a red-black tree.
`cmpint` is no total order on all pointers, but an operation compares its key with keys of the tree
only, so on these trees `cmpkey`, which is one, gives the same result (`IntTree.onPath`,
`delete_congr`).

`Entry rb x d` says that `d` is stored under the integer `x`; `rbInserti_spec`, `rbFindi_eq_some`
and `rbDeletei_spec` are the three operations in these terms. The deletion of a key that is not
stored, or of the last one, is undefined, so a deletion that goes through has removed an entry
(`rbDelete_allowed`).
-/

namespace Resman.Rb

open RbNode
open Lib (StrictTotal Sorted)

variable {K V : Type}

/-! ## An operation compares its key with keys of the tree only -/

section Congr

variable {cmp cmp' : K → K → Int} {t : RbNode K V} {key : K}

theorem mem_keys_node {a : Addr} {c : Bool} {k k' : K} {d : Option V} {l r : RbNode K V} :
    k' ∈ keys (node a c k d l r) ↔ k' ∈ keys l ∨ k' = k ∨ k' ∈ keys r := by
  simp [keys, traverse_node]

theorem keys_eq {t u : RbNode K V} (h : traverse t = traverse u) : keys t = keys u :=
  congrArg (List.map Prod.fst) h

theorem delete_congr [DecidableEq K] (del : Bool) (h : ∀ k ∈ keys t, cmp key k = cmp' key k) :
    delete cmp del t key = delete cmp' del t key := by
  induction hN : countNodes t using Nat.strong_induction_on generalizing t with
  | _ N ih =>
    cases t with
    | null => rw [delete, delete]
    | node a c k d l r =>
      have hk : cmp key k = cmp' key k := h k (mem_keys_node.2 (.inr (.inl rfl)))
      have hsub : ∀ {a' c' k' d'} {l' r' : RbNode K V},
          traverse (node a' c' k' d' l' r') = traverse (node a c k d l r) →
          countNodes (node a' c' k' d' l' r') = countNodes (node a c k d l r) →
          delete cmp del l' key = delete cmp' del l' key ∧
            delete cmp del r' key = delete cmp' del r' key := by
        intro a' c' k' d' l' r' htrav hcount
        rw [← keys_eq htrav] at h
        simp only [countNodes] at hcount hN
        exact ⟨ih _ (by omega) (fun k hk => h k (mem_keys_node.2 (.inl hk))) rfl,
          ih _ (by omega) (fun k hk => h k (mem_keys_node.2 (.inr (.inr hk)))) rfl⟩
      rw [delete_node, delete_node, hk]
      split
      · split
        · next hpush => rw [(hsub (traverse_pushLeft hpush) (countNodes_pushLeft hpush)).1]
        · rfl
      · cases hlean : leanRight (node a c k d l r) with
        | none => rfl
        | some u =>
          simp only [Option.bind_some]
          split
          · rfl
          · split
            · next hpush =>
              have htrav := (traverse_pushRight hpush).trans (traverse_leanRight hlean)
              have hcount := (countNodes_pushRight hpush).trans (countNodes_leanRight hlean)
              rw [(hsub htrav hcount).2]
            · rfl

end Congr

/-- A deletion that goes through removes an entry and leaves another. -/
theorem rbDelete_allowed [DecidableEq K] {rb rb' : RbTree K V} (h : WF rb) {key : K}
    {calls : List (Call K V)} (hdel : rbDelete rb key = some (rb', calls)) :
    key ∈ keys rb.root ∧ 2 ≤ rbSize rb := by
  obtain ⟨⟨xs, e, ys, hat⟩, h2⟩ := rbDelete_found h.weak hdel
  exact ⟨mem_keys_iff.2 ⟨e, hat.mem, (h.total.eq_of_zero hat.equal).symm⟩, h2⟩

/-! ## A total order for all pointers -/

/-- The order of pointers as unsigned numbers. -/
def cmpkey (a b : BitVec 64) : Int := (a.toNat : Int) - b.toNat

theorem cmpkey_strictTotal : StrictTotal cmpkey where
  eq_of_zero := by
    intro a b h
    rw [cmpkey] at h
    exact BitVec.toNat_inj.1 (by omega)
  self a := by rw [cmpkey]; omega
  swap := by
    intro a b
    rw [cmpkey, cmpkey]
    omega
  trans := by
    intro a b c h₁ h₂
    rw [cmpkey] at *
    omega

theorem int2ptr_inj {x y : BitVec 32} : int2ptr x = int2ptr y ↔ x = y :=
  ⟨fun h => by rw [← ptr2int_int2ptr x, h, ptr2int_int2ptr], congrArg int2ptr⟩

theorem cmpint_int2ptr_eq_zero {x y : BitVec 32} : cmpint (int2ptr x) (int2ptr y) = 0 ↔ x = y := by
  rw [cmpint, ptr2int_int2ptr, ptr2int_int2ptr]
  constructor
  · intro hz
    have hsub : x - y = 0#32 := BitVec.toInt_inj.1 (hz.trans (by decide))
    rw [← BitVec.sub_add_cancel x y, hsub, BitVec.zero_add]
  · rintro rfl
    simp

/-- `INT2PTR` keeps a non-negative number. -/
theorem toNat_int2ptr {x : BitVec 32} (hx : 0 ≤ x.toInt) : ((int2ptr x).toNat : Int) = x.toInt := by
  have hmsb : x.msb = false := by
    rw [BitVec.msb_eq_toInt]
    exact decide_eq_false (by omega)
  rw [int2ptr, BitVec.signExtend_eq_setWidth_of_msb_false hmsb,
    BitVec.toNat_setWidth_of_le (by omega), BitVec.toInt_eq_toNat_of_msb hmsb]

theorem cmpint_eq_cmpkey {x y : BitVec 32} (hx : 0 ≤ x.toInt) (hy : 0 ≤ y.toInt) :
    cmpint (int2ptr x) (int2ptr y) = cmpkey (int2ptr x) (int2ptr y) := by
  have h := NonnegKey.cmpint_eq (.ofInt x hx) (.ofInt y hy)
  simp only [NonnegKey.ofInt, NonnegKey.toInt, ptr2int_int2ptr] at h
  rw [h, cmpkey, toNat_int2ptr hx, toNat_int2ptr hy]

/-! ## Trees of the file monitor -/

structure IntTree (rb : RbTree (BitVec 64) V) : Prop where
  cmp : rb.cmp = cmpint
  nonneg : ∀ k ∈ keys rb.root, ∃ x : BitVec 32, 0 ≤ x.toInt ∧ k = int2ptr x
  wf : WF { rb with cmp := cmpkey }

/-- `d` is stored under the integer `x`. -/
def Entry (rb : RbTree (BitVec 64) V) (x : BitVec 32) (d : Option V) : Prop :=
  (int2ptr x, d) ∈ traverse rb.root

theorem IntTree.create : IntTree (rbCreate cmpint : RbTree (BitVec 64) V) where
  cmp := rfl
  nonneg k hk := by cases hk
  wf := WF.create cmpkey_strictTotal false

theorem not_entry_create {x : BitVec 32} {d : Option V} :
    ¬ Entry (rbCreate cmpint : RbTree (BitVec 64) V) x d := by
  intro h
  cases h

section IntTree

variable {rb rb' : RbTree (BitVec 64) V} {x : BitVec 32}

theorem IntTree.cmpkey_eq (h : IntTree rb) (hx : 0 ≤ x.toInt) {k : BitVec 64}
    (hk : k ∈ keys rb.root) : rb.cmp (int2ptr x) k = cmpkey (int2ptr x) k := by
  obtain ⟨y, hy, rfl⟩ := h.nonneg k hk
  rw [h.cmp, cmpint_eq_cmpkey hx hy]

theorem IntTree.onPath (h : IntTree rb) (hx : 0 ≤ x.toInt) :
    OnPath rb.cmp (int2ptr x) (fun k => rb.cmp (int2ptr x) k = cmpkey (int2ptr x) k) rb.root :=
  onPath_of_forall fun e he => h.cmpkey_eq hx (mem_keys_iff.2 ⟨e, he, rfl⟩)

theorem Entry.mem_keys {d : Option V} (h : Entry rb x d) : int2ptr x ∈ keys rb.root :=
  Rb.mem_keys.2 ⟨d, h⟩

theorem Entry.nonneg (h : IntTree rb) {d : Option V} (he : Entry rb x d) : 0 ≤ x.toInt := by
  obtain ⟨y, hy, hxy⟩ := h.nonneg _ he.mem_keys
  rwa [int2ptr_inj.1 hxy]

theorem rbInserti_spec (h : IntTree rb) (hx : 0 ≤ x.toInt) (a : Addr) (d : Option V) :
    ∃ rb', rbInserti rb (some a) x d = some rb' ∧ IntTree rb' ∧
      ∀ y d', Entry rb' y d' ↔ y = x ∧ d' = d ∨ y ≠ x ∧ Entry rb y d' := by
  obtain ⟨rb', hins, hwf, hcmp, htrav⟩ := rbInsert_spec h.wf a (int2ptr x) d
  simp only [rbInsert, bind, Option.bind_eq_some_iff] at hins
  obtain ⟨t, ht, u, hu, heq⟩ := hins
  obtain rfl := (Option.some.inj heq).symm
  have hmem : ∀ e, e ∈ traverse u ↔ e = (int2ptr x, d) ∨ e ∈ traverse rb.root ∧
      e.1 ≠ int2ptr x := by
    intro e
    rw [show traverse u = _ from htrav, Lib.mem_put cmpkey_strictTotal]
  refine ⟨{ rb with root := u }, ?_, ⟨h.cmp, fun k hk => ?_, hwf⟩, fun y d' => ?_⟩
  · rw [rbInserti, rbInsert, insert_congr (some a) d (h.onPath hx)]
    simp [ht, hu]
  · obtain ⟨d', hd'⟩ := Rb.mem_keys.1 hk
    rcases (hmem _).1 hd' with heq | ⟨hold, -⟩
    · exact ⟨x, hx, (Prod.mk.inj heq).1⟩
    · exact h.nonneg k (Rb.mem_keys.2 ⟨d', hold⟩)
  · rw [Entry, Entry, hmem, Prod.mk.injEq, int2ptr_inj, ne_eq, int2ptr_inj, and_comm (a := ¬ y = x)]

/-- What a search finds is stored under the key, whatever the key. -/
theorem rbFindi_eq_some (h : IntTree rb) {v : V} : rbFindi rb x = some v ↔ Entry rb x (some v) := by
  constructor
  · intro hf
    rw [rbFindi, rbFind, h.cmp] at hf
    rcases search_cases cmpint (int2ptr x) rb.root with ⟨xs, e, ys, hat⟩ | ⟨xs, ys, hgap⟩
    · obtain ⟨y, -, hy⟩ := h.nonneg e.2.1 (mem_keys_iff.2 ⟨e, hat.mem, rfl⟩)
      have hxy : x = y := cmpint_int2ptr_eq_zero.1 (hy ▸ hat.equal)
      rw [hat.find] at hf
      rw [Entry, traverse_eq, List.mem_map]
      exact ⟨e, hat.mem, Prod.ext (hxy ▸ hy) hf⟩
    · rw [hgap.find] at hf
      cases hf
  · intro he
    rw [rbFindi, rbFind, find_congr (h.onPath (he.nonneg h))]
    exact find_of_mem h.wf.total h.wf.sorted he

/-- A deletion that goes through removes the entry of the key and no other. -/
theorem rbDeletei_spec (h : IntTree rb) (hx : 0 ≤ x.toInt) {calls : List (Call (BitVec 64) V)}
    (hdel : rbDeletei rb x = some (rb', calls)) :
    IntTree rb' ∧ (∃ d, Entry rb x d) ∧ ∀ y d, Entry rb' y d ↔ y ≠ x ∧ Entry rb y d := by
  simp only [rbDeletei, rbDelete, delete_congr rb.del fun k hk => h.cmpkey_eq hx hk, bind,
    Option.bind_eq_some_iff] at hdel
  obtain ⟨⟨t, calls'⟩, ht, u, hu, heq⟩ := hdel
  obtain ⟨rfl, rfl⟩ := Prod.mk.inj (Option.some.inj heq)
  have hdel' : rbDelete { rb with cmp := cmpkey } (int2ptr x) =
      some ({ root := u, cmp := cmpkey, del := rb.del }, calls') := by
    simp [rbDelete, ht, hu]
  obtain ⟨hkey, h2⟩ := rbDelete_allowed h.wf hdel'
  obtain ⟨rb'', calls'', hdel'', hwf, -, htrav⟩ := rbDelete_spec h.wf hkey h2
  obtain ⟨rfl, -⟩ := Prod.mk.inj (Option.some.inj (hdel'.symm.trans hdel''))
  have hmem : ∀ e, e ∈ traverse u ↔ e ∈ traverse rb.root ∧ e.1 ≠ int2ptr x := by
    intro e
    rw [show traverse u = _ from htrav, Lib.mem_del]
  refine ⟨⟨h.cmp, fun k hk => ?_, hwf⟩, Rb.mem_keys.1 hkey, fun y d => ?_⟩
  · obtain ⟨d, hd⟩ := Rb.mem_keys.1 hk
    exact h.nonneg k (Rb.mem_keys.2 ⟨d, ((hmem _).1 hd).1⟩)
  · rw [Entry, Entry, hmem, ne_eq, int2ptr_inj, and_comm]

/-! ## The map that a tree is for -/

/-- No null pointer is stored. -/
def Full (rb : RbTree (BitVec 64) V) : Prop := ∀ x, ¬ Entry rb x none

theorem rbFindi_rbInserti (h : IntTree rb) (hf : Full rb) (hx : 0 ≤ x.toInt) {a : Addr} {v : V}
    (hins : rbInserti rb (some a) x (some v) = some rb') :
    IntTree rb' ∧ Full rb' ∧ rbFindi rb' = Function.update (rbFindi rb) x (some v) := by
  obtain ⟨rb'', hins', htree, hentry⟩ := rbInserti_spec h hx a (some v)
  obtain rfl := Option.some.inj (hins'.symm.trans hins)
  refine ⟨htree, fun y hy => ?_, funext fun y => Option.ext fun v' => ?_⟩
  · rcases (hentry y none).1 hy with ⟨-, hv⟩ | ⟨-, hy⟩
    · cases hv
    · exact hf y hy
  · rw [rbFindi_eq_some htree, hentry, Lib.update_eq_some, rbFindi_eq_some h,
      eq_comm (a := some v')]

theorem rbFindi_rbDeletei (h : IntTree rb) (hf : Full rb) (hx : 0 ≤ x.toInt)
    {calls : List (Call (BitVec 64) V)} (hdel : rbDeletei rb x = some (rb', calls)) :
    IntTree rb' ∧ Full rb' ∧ rbFindi rb' = Function.update (rbFindi rb) x none := by
  obtain ⟨htree, -, hentry⟩ := rbDeletei_spec h hx hdel
  refine ⟨htree, fun y hy => hf y ((hentry y none).1 hy).2, funext fun y => Option.ext fun v => ?_⟩
  rw [rbFindi_eq_some htree, hentry, Lib.update_none_eq_some, rbFindi_eq_some h]

end IntTree

end Resman.Rb
