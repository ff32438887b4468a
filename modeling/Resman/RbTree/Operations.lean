import Resman.RbTree.Deletion
import Resman.RbTree.Insertion

/-!
# What `rb_insert` and `rb_delete` do

`WeakWF` is what the operations keep of a tree under a comparison that is a total order up to the
equivalence of keys: the nodes are in order, and the shape is left-leaning with a black root. One
lemma says what each operation does to the nodes, by where its key cuts them: `rbInsert_gap`,
`rbInsert_at`, `find_at`, `rbDelete_removes`.

The deletion of a key that is not stored (`rbDelete_absent`) or of the last one (`rbDelete_last`) is
undefined in every tree: it reads a child of a null pointer, or writes the colour of a null root.
-/

namespace Resman.Rb

open RbNode
open Lib (At Gap WeakOrder)

variable {K V : Type} {rb : RbTree K V} {key : K} {data : Option V}
  {xs ys : List (Addr × K × Option V)} {e : Addr × K × Option V}

/-- The nodes are in the order of their keys. -/
def InOrder (cmp : K → K → Int) (xs : List (Addr × K × Option V)) : Prop :=
  xs.Pairwise fun a b => cmp a.2.1 b.2.1 < 0

structure WeakWF (rb : RbTree K V) : Prop where
  order : WeakOrder rb.cmp
  sorted : InOrder rb.cmp (nodes rb.root)
  shape : ∃ n, LL rb.root false n

theorem WeakWF.create {cmp : K → K → Int} (hc : WeakOrder cmp) (del : Bool) :
    WeakWF (⟨null, cmp, del⟩ : RbTree K V) :=
  ⟨hc, List.Pairwise.nil, 0, .leaf⟩

/-- A search ends at a node or in a gap. -/
theorem WeakWF.at_or_gap (h : WeakWF rb) (key : K) :
    (∃ xs e ys, At (fun e => rb.cmp key e.2.1) (nodes rb.root) xs e ys) ∨
      ∃ xs ys, Gap (fun e => rb.cmp key e.2.1) (nodes rb.root) xs ys :=
  h.order.at_or_gap (f := fun e : Addr × K × Option V => e.2.1) h.sorted key

theorem WeakWF.at_of_split (h : WeakWF rb) (hsplit : nodes rb.root = xs ++ e :: ys) :
    At (fun a => rb.cmp e.2.1 a.2.1) (nodes rb.root) xs e ys :=
  h.order.at_of_split (f := fun e : Addr × K × Option V => e.2.1) h.sorted hsplit

/-! ## The root -/

theorem LL.blacken {t : RbNode K V} {c : Bool} {n : Nat} (h : LL t c n) (ht : t.isNull = false) :
    ∃ t' n', Rb.blacken t = some t' ∧ nodes t' = nodes t ∧ LL t' false n' := by
  cases h with
  | leaf => cases ht
  | red hl hr => exact ⟨_, _, rfl, rfl, .black hl hr⟩
  | black hl hr => exact ⟨_, _, rfl, rfl, .black hl hr⟩

theorem blacken_flipRoot (t : RbNode K V) : blacken (flipRoot t) = blacken t := by
  cases t <;> rfl

theorem isNull_of_nodes {t : RbNode K V} (h : nodes t ≠ []) : t.isNull = false := by
  cases t with
  | null => exact absurd rfl h
  | node => rfl

/-! ## Insertion -/

/-- **`rb_insert` of a new key** puts a node where the search ends, under any comparison. -/
theorem rbInsert_new {n : Nat} (hn : LL rb.root false n) (a : Addr) (data : Option V)
    (h : SearchGap rb.cmp key rb.root xs ys) :
    ∃ root n', rbInsert rb (some a) key data = some { rb with root } ∧
      nodes root = xs ++ (a, key, data) :: ys ∧ LL root false n' := by
  obtain ⟨t', hins, hnodes, hshape⟩ := insert_gap a data hn h
  obtain ⟨c', ht'⟩ := hshape.resolve_right (by simp)
  obtain ⟨t'', n', hb, hnodes', ht''⟩ := ht'.blacken (isNull_of_nodes (by simp [hnodes]))
  exact ⟨t'', n', by simp [rbInsert, hins, hb], hnodes'.trans hnodes, ht''⟩

/-- **`rb_insert` of a stored key** replaces the data of its node, whatever the allocator does. -/
theorem rbInsert_stored {n : Nat} (hn : LL rb.root false n) (alloc : Option Addr) (data : Option V)
    (h : SearchAt rb.cmp key rb.root xs e ys) :
    rbInsert rb alloc key data = some { rb with root := setAt rb.cmp key data rb.root } := by
  have hne : (setAt rb.cmp key data rb.root).isNull = false :=
    isNull_of_nodes (by simp [nodes_setAt data h])
  have hblack : blacken (setAt rb.cmp key data rb.root) = some (setAt rb.cmp key data rb.root) := by
    have hred := (hn.setAt rb.cmp key data).isRed_eq
    cases hr : setAt rb.cmp key data rb.root with
    | null => rw [hr] at hne; cases hne
    | node a c k d l r =>
      rw [hr, isRed_node] at hred
      rw [hred]
      rfl
  simp [rbInsert, insert_at alloc data hn h, hblack]

/-- A new key is put into its gap, and the nodes are still in order. -/
theorem rbInsert_gap (h : WeakWF rb) (a : Addr) (data : Option V)
    (hgap : Gap (fun e => rb.cmp key e.2.1) (nodes rb.root) xs ys) :
    ∃ root, rbInsert rb (some a) key data = some { rb with root } ∧
      nodes root = xs ++ (a, key, data) :: ys ∧
      WeakWF { rb with root } := by
  obtain ⟨n, hn⟩ := h.shape
  obtain ⟨root, n', hins, hnodes, hn'⟩ := rbInsert_new hn a data (searchGap_of_gap hgap)
  refine ⟨root, hins, hnodes, h.order, ?_, n', hn'⟩
  have hsorted := h.sorted
  rw [hgap.split] at hsorted
  obtain ⟨hx, hy, hxy⟩ := List.pairwise_append.1 hsorted
  show InOrder rb.cmp (nodes root)
  rw [hnodes]
  refine List.pairwise_append.2 ⟨hx, List.pairwise_cons.2 ⟨hgap.after, hy⟩, fun x hx' y hy' => ?_⟩
  rcases List.mem_cons.1 hy' with rfl | hy'
  · exact h.order.swap.2 (hgap.before x hx')
  · exact hxy x hx' y hy'

/-- A run of keys stays in order when a node keeps its key. -/
theorem InOrder.replace {cmp : K → K → Int} {e' : Addr × K × Option V}
    (h : InOrder cmp (xs ++ e :: ys)) (he : e'.2.1 = e.2.1) : InOrder cmp (xs ++ e' :: ys) := by
  obtain ⟨hx, hrest, hxy⟩ := List.pairwise_append.1 h
  obtain ⟨hey, hy⟩ := List.pairwise_cons.1 hrest
  refine List.pairwise_append.2 ⟨hx, List.pairwise_cons.2 ⟨fun y hy' => he ▸ hey y hy', hy⟩,
    fun x hx' y hy' => ?_⟩
  rcases List.mem_cons.1 hy' with rfl | hy'
  · exact he ▸ hxy x hx' e (by simp)
  · exact hxy x hx' y (by simp [hy'])

/-- In a tree in order, that is the node with the key. -/
theorem rbInsert_at [DecidableEq K] (h : WeakWF rb) (alloc : Option Addr) (data : Option V)
    (hat : At (fun e => rb.cmp key e.2.1) (nodes rb.root) xs e ys) :
    rbInsert rb alloc key data = some { rb with root := setData e.2.1 data rb.root } ∧
      nodes (setData e.2.1 data rb.root) = xs ++ (e.1, e.2.1, data) :: ys ∧
      WeakWF { rb with root := setData e.2.1 data rb.root } := by
  obtain ⟨n, hn⟩ := h.shape
  rw [← setAt_eq_setData hat]
  have hnodes := nodes_setAt data (searchAt_of_at hat)
  refine ⟨rbInsert_stored hn alloc data (searchAt_of_at hat), hnodes, h.order, ?_, n, hn.setAt ..⟩
  have hsorted := h.sorted
  rw [hat.split] at hsorted
  show InOrder rb.cmp (nodes (setAt rb.cmp key data rb.root))
  rw [hnodes]
  exact hsorted.replace rfl

/-- A search that the key cuts at a node returns its data. -/
theorem find_at {cmp : K → K → Int} {t : RbNode K V}
    (hat : At (fun e => cmp key e.2.1) (nodes t) xs e ys) : find cmp t key = e.2.2 :=
  (searchAt_of_at hat).find

/-! ## Deletion -/

theorem InOrder.remove {cmp : K → K → Int} (h : InOrder cmp (xs ++ e :: ys)) :
    InOrder cmp (xs ++ ys) :=
  h.sublist ((List.sublist_cons_self e ys).append_left xs)

section Delete

variable [DecidableEq K]

/-- `rb_delete` of a key that is not stored reads a null pointer. -/
theorem rbDelete_absent (h : ∀ e ∈ nodes rb.root, rb.cmp key e.2.1 ≠ 0 ∧ key ≠ e.2.1) :
    rbDelete rb key = none := by
  cases hroot : rb.root with
  | null => simp [rbDelete, hroot, delete, blacken]
  | node =>
    rw [rbDelete, delete_absent rb.del (by rw [hroot]; rfl) h]
    rfl

/-- `rb_delete` in a tree of one node reads a null pointer, or writes the colour of a null root. -/
theorem rbDelete_last (h1 : rbSize rb ≤ 1) : rbDelete rb key = none := by
  have hnull : ∀ {t : RbNode K V}, countNodes t = 0 → t = null := by
    rintro (_ | _) h
    · rfl
    · simp only [countNodes] at h
      omega
  cases hroot : rb.root with
  | null => simp [rbDelete, hroot, delete, blacken]
  | node a c k d l r =>
    rw [rbSize, hroot, countNodes] at h1
    obtain rfl := hnull (t := l) (by omega)
    obtain rfl := hnull (t := r) (by omega)
    rw [rbDelete, hroot, delete_node]
    by_cases hlt : rb.cmp key k < 0
    · simp [hlt, pushLeft, RbNode.left]
    · by_cases hz : rb.cmp key k = 0
      · simp [hz, leanRight, blacken]
      · simp [hlt, hz, leanRight, pushRight, RbNode.left]

/-- **`rb_delete`** in a tree of several nodes, under any comparison. -/
theorem rbDelete_ends {n : Nat} (hn : LL rb.root false n) (h2 : 2 ≤ rbSize rb) (key : K) :
    Deletes rb.cmp rb.del key (nodes rb.root) (ending rb.cmp rb.root key)
        ((rbDelete rb key).map fun p => (nodes p.1.root, p.2)) ∧
      ∀ rb' calls, rbDelete rb key = some (rb', calls) →
        rb' = { rb with root := rb'.root } ∧ ∃ n', LL rb'.root false n' := by
  have hnull : rb.root.isNull = false := by
    cases hroot : rb.root with
    | null => rw [rbSize, hroot, countNodes] at h2; omega
    | node => rfl
  obtain ⟨hends, hshape⟩ := delete_root_ends rb.cmp rb.del key hn hnull
  cases hdel : delete rb.cmp rb.del rb.root key with
  | none =>
    rw [hdel] at hends
    simp only [rbDelete, hdel, bind, Option.bind_none]
    exact ⟨hends, by simp⟩
  | some p =>
    obtain ⟨u, c', n', hu, hLL⟩ := hshape p hdel
    rw [hdel, Option.map_some] at hends
    have hnodes : nodes u = nodes p.1 := by
      rcases hu with hu | hu
      · rw [hu]
      · rw [hu, nodes_flipRoot]
    have hblack : blacken p.1 = blacken u := by
      rcases hu with hu | hu
      · rw [hu]
      · rw [hu, blacken_flipRoot]
    -- a node is left
    have hleft : nodes p.1 ≠ [] := by
      have hsize := length_nodes rb.root
      have h2' : 2 ≤ countNodes rb.root := h2
      generalize ending rb.cmp rb.root key = b at hends
      generalize ho : some (outcome p) = o at hends
      cases hends with
      | bottom hsplit =>
        rw [(Prod.mk.inj (Option.some.inj ho)).1]
        rw [hsplit, List.length_append, List.length_cons] at hsize
        intro hnil
        have hlen := congrArg List.length hnil
        rw [List.length_append, List.length_nil] at hlen
        omega
      | inner =>
        rw [(Prod.mk.inj (Option.some.inj ho)).1]
        simp
      | lost => cases ho
    obtain ⟨t', n'', hb, hnodes', ht'⟩ := hLL.blacken (isNull_of_nodes (hnodes ▸ hleft))
    have hrb : rbDelete rb key = some ({ rb with root := t' }, p.2) := by
      simp [rbDelete, hdel, hblack, hb]
    rw [hrb, Option.map_some]
    refine ⟨?_, fun rb' calls hrb' => ?_⟩
    · rw [show nodes t' = nodes p.1 from hnodes'.trans hnodes]
      exact hends
    · obtain ⟨rfl, -⟩ := Prod.mk.inj (Option.some.inj hrb')
      exact ⟨rfl, n'', ht'⟩

/-- **`rb_delete` of a key that compares equal to a node**, while others are stored. -/
theorem rbDelete_removes (h : WeakWF rb) (h2 : 2 ≤ rbSize rb)
    (hat : At (fun e => rb.cmp key e.2.1) (nodes rb.root) xs e ys) :
    Removes rb.del key xs e ys (foundAtBottom rb.cmp rb.root key)
        ((rbDelete rb key).map fun p => (nodes p.1.root, p.2)) ∧
      ∀ rb' calls, rbDelete rb key = some (rb', calls) →
        WeakWF rb' ∧ rb' = { rb with root := rb'.root } := by
  obtain ⟨n, hn⟩ := h.shape
  obtain ⟨hends, hshape⟩ := rbDelete_ends hn h2 key
  have hrem := hends.removes (h.order.self key) hat
  refine ⟨hrem, fun rb' calls hdel => ?_⟩
  obtain ⟨hroot, n', hn'⟩ := hshape rb' calls hdel
  have hsorted := h.sorted
  rw [hat.split] at hsorted
  have hcmp : rb'.cmp = rb.cmp := by rw [hroot]
  refine ⟨⟨hcmp ▸ h.order, ?_, n', hn'⟩, hroot⟩
  rw [hcmp]
  rw [hdel, Option.map_some] at hrem
  generalize foundAtBottom rb.cmp rb.root key = b at hrem
  generalize ho : some (nodes rb'.root, calls) = o at hrem
  cases hrem with
  | bottom =>
    rw [(Prod.mk.inj (Option.some.inj ho)).1]
    exact hsorted.remove
  | inner _ hys =>
    rw [(Prod.mk.inj (Option.some.inj ho)).1]
    rw [hys] at hsorted
    exact hsorted.remove.replace rfl
  | other => cases ho

/-- A deletion that goes through has found an equal key among others. -/
theorem rbDelete_found (h : WeakWF rb) {rb' : RbTree K V} {calls : List (Call K V)}
    (hdel : rbDelete rb key = some (rb', calls)) :
    (∃ xs e ys, At (fun e => rb.cmp key e.2.1) (nodes rb.root) xs e ys) ∧ 2 ≤ rbSize rb := by
  constructor
  · refine (h.at_or_gap key).resolve_right ?_
    rintro ⟨xs, ys, hgap⟩
    have habsent : ∀ e ∈ nodes rb.root, rb.cmp key e.2.1 ≠ 0 ∧ key ≠ e.2.1 := fun e he =>
      ⟨hgap.ne_zero he, fun hk => hgap.ne_zero he (hk ▸ h.order.self key)⟩
    rw [rbDelete_absent habsent] at hdel
    cases hdel
  · by_contra h2
    rw [rbDelete_last (by omega)] at hdel
    cases hdel

/-- With the node's own key pointer the deletion goes through, and the entry is gone. -/
theorem rbDelete_stored (h : WeakWF rb) (h2 : 2 ≤ rbSize rb)
    (hat : At (fun a => rb.cmp e.2.1 a.2.1) (nodes rb.root) xs e ys) :
    ∃ rb' calls, rbDelete rb e.2.1 = some (rb', calls) ∧ WeakWF rb' ∧
      rb' = { rb with root := rb'.root } ∧
      traverse rb'.root = (xs ++ ys).map Prod.snd := by
  obtain ⟨hrem, hshape⟩ := rbDelete_removes h h2 hat
  cases hrb : rbDelete rb e.2.1 with
  | none =>
    rw [hrb] at hrem
    generalize foundAtBottom rb.cmp rb.root e.2.1 = b at hrem
    cases hrem with
    | other hne => exact absurd rfl hne
  | some p =>
    obtain ⟨hwf, hroot⟩ := hshape p.1 p.2 hrb
    refine ⟨p.1, p.2, rfl, hwf, hroot, ?_⟩
    rw [hrb, Option.map_some] at hrem
    rw [traverse_eq]
    generalize foundAtBottom rb.cmp rb.root e.2.1 = b at hrem
    generalize ho : some (nodes p.1.root, p.2) = o at hrem
    cases hrem with
    | bottom =>
      obtain ⟨hp, -⟩ := Prod.mk.inj (Option.some.inj ho)
      rw [hp]
    | inner _ hys =>
      obtain ⟨hp, -⟩ := Prod.mk.inj (Option.some.inj ho)
      rw [hp, hys, List.map_append, List.map_append, List.map_cons, List.map_cons]
    | other => cases ho

end Delete

end Resman.Rb
