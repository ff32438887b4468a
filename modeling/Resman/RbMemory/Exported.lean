import Resman.RbMemory.Update

/-!
# The exported functions in memory

`rb_find`, `rb_size` and `rb_foreach` read in memory what they read in the value, `rb_insert` and
`rb_delete` leave the value that they return (`rbInsert_sim`, `rbDelete_sim`), and `rb_clear` and
`rb_destroy` free every node of the tree and read none that they have freed (`rbClear_spec`).
-/

namespace Resman.RbMem

open Lib
open Rb (Addr addrs nodes)

variable {K V : Type} {h : Heap K V} {p : Option Addr} {t : Rb.RbNode K V} {fuel : Nat}

/-! ## Reading -/

theorem countNodes_eq (hh : Represents h p t) (hfuel : Rb.countNodes t < fuel) :
    countNodes fuel h p = some (Rb.countNodes t) := by
  induction t generalizing p fuel with
  | null =>
    obtain ⟨fuel, rfl⟩ : ∃ n, fuel = n + 1 := ⟨fuel - 1, by omega⟩
    obtain ⟨rfl, -, -⟩ := hh
    rfl
  | node a c k d l r ihl ihr =>
    obtain ⟨fuel, rfl⟩ : ∃ n, fuel = n + 1 := ⟨fuel - 1, by omega⟩
    obtain ⟨rfl, ho⟩ := represents_node.1 hh
    obtain ⟨next, hread⟩ := ho.read
    rw [Rb.countNodes] at hfuel ⊢
    simp only [countNodes, hread, Option.bind_eq_bind, Option.bind_some,
      ihl ho.left (show Rb.countNodes l < fuel by omega),
      ihr ho.right (show Rb.countNodes r < fuel by omega)]
    rfl

theorem traverse_eq (hh : Represents h p t) (hfuel : Rb.countNodes t < fuel) :
    traverse fuel h p = some (Rb.traverse t) := by
  induction t generalizing p fuel with
  | null =>
    obtain ⟨fuel, rfl⟩ : ∃ n, fuel = n + 1 := ⟨fuel - 1, by omega⟩
    obtain ⟨rfl, -, -⟩ := hh
    rfl
  | node a c k d l r ihl ihr =>
    obtain ⟨fuel, rfl⟩ : ∃ n, fuel = n + 1 := ⟨fuel - 1, by omega⟩
    obtain ⟨rfl, ho⟩ := represents_node.1 hh
    obtain ⟨next, hread⟩ := ho.read
    rw [Rb.countNodes] at hfuel
    simp only [traverse, hread, Option.bind_eq_bind, Option.bind_some,
      ihl ho.left (show Rb.countNodes l < fuel by omega),
      ihr ho.right (show Rb.countNodes r < fuel by omega)]
    rfl

theorem findLoop_eq {cmp : K → K → Int} {key : K} (hh : Represents h p t)
    (hfuel : Rb.countNodes t < fuel) :
    findLoop cmp fuel h p key = some (Rb.find cmp t key) := by
  induction t generalizing p fuel with
  | null =>
    obtain ⟨fuel, rfl⟩ : ∃ n, fuel = n + 1 := ⟨fuel - 1, by omega⟩
    obtain ⟨rfl, -, -⟩ := hh
    rfl
  | node a c k d l r ihl ihr =>
    obtain ⟨fuel, rfl⟩ : ∃ n, fuel = n + 1 := ⟨fuel - 1, by omega⟩
    obtain ⟨rfl, ho⟩ := represents_node.1 hh
    obtain ⟨next, hread⟩ := ho.read
    rw [Rb.countNodes] at hfuel
    simp only [findLoop, hread, Option.bind_eq_bind, Option.bind_some, Rb.find]
    split
    · rfl
    · split
      · exact ihl ho.left (by omega)
      · exact ihr ho.right (by omega)

/-! ## Tearing down -/

/-- The calls of `del_tree` for the nodes that it comes to. -/
def tornDown (del : Bool) (L : List (Addr × K × Option V)) : List (Rb.Call K V) :=
  L.flatMap fun e => (if del then [.del (some e)] else []) ++ [.free (some e.1)]

/-- **`del_tree` in memory** reads no node that it has freed, and frees the nodes
of the tree and nothing else. -/
theorem delTree_spec (del : Bool) (hh : Represents h p t) (hfuel : Rb.countNodes t < fuel) :
    ∃ h', delTree del fuel h p = some (h', tornDown del (Rb.delTree t)) ∧
      (∀ a ∈ addrs t, h' a = none) ∧
      SameOff (addrs t) h h' := by
  induction t generalizing h p fuel with
  | null =>
    obtain ⟨fuel, rfl⟩ : ∃ n, fuel = n + 1 := ⟨fuel - 1, by omega⟩
    obtain ⟨rfl, -, -⟩ := hh
    exact ⟨h, rfl, (fun _ ha => by cases ha), SameOff.refl _ _⟩
  | node a c k d l r ihl ihr =>
    obtain ⟨fuel, rfl⟩ : ∃ n, fuel = n + 1 := ⟨fuel - 1, by omega⟩
    obtain ⟨rfl, ho⟩ := represents_node.1 hh
    obtain ⟨next, hread⟩ := ho.read
    rw [Rb.countNodes] at hfuel
    obtain ⟨h₁, hleft, hfreed₁, hs₁⟩ := ihl ho.left (show Rb.countNodes l < fuel by omega)
    have hr₁ := ho.right.frame hs₁ fun b hb hbl => ho.disjoint b hbl hb
    obtain ⟨h₂, hright, hfreed₂, hs₂⟩ := ihr hr₁ (show Rb.countNodes r < fuel by omega)
    have hread₁ : h₁ a = _ := (hs₁ a ho.not_left).trans hread
    have hread₂ : h₂ a = _ := (hs₂ a ho.not_right).trans hread₁
    refine ⟨freed h₂ (some a), ?_, fun b hb => ?_, fun b hb => ?_⟩
    · simp only [delTree, hread, hread₁, Option.bind_eq_bind, Option.bind_some, hleft, hright,
        release_some del hread₂, Rb.delTree, tornDown, List.flatMap_append, List.flatMap_singleton]
      rfl
    · rw [addrs_node, List.mem_append, List.mem_cons] at hb
      by_cases hba : b = a
      · subst hba
        exact Function.update_self ..
      · rw [freed, Function.update_of_ne hba]
        by_cases hbr : b ∈ addrs r
        · exact hfreed₂ b hbr
        · rw [hs₂ b hbr]
          exact hfreed₁ b (by tauto)
    · simp only [addrs_node, List.mem_append, List.mem_cons, not_or] at hb
      rw [freed, Function.update_of_ne hb.2.1, hs₂ b hb.2.2, hs₁ b hb.1]

/-! ## The exported functions -/

/-- The root is blackened. -/
theorem blacken_sim (hh : Represents h p t) :
    Option.Rel (fun t' h' => Steps (addrs t) h t' (h', p)) (Rb.blacken t) (blacken h p) := by
  cases t with
  | null =>
    obtain ⟨rfl, -, -⟩ := hh
    exact .none
  | node a c k d l r =>
    obtain ⟨rfl, ho⟩ := represents_node.1 hh
    obtain ⟨h', hw, hs⟩ := ho.assign (f := fun n => { n with red := false }) (fun _ => rfl)
    rw [Rb.blacken, blacken, hw, addrs_node]
    exact .some hs

theorem nodes_blacken (ht : Rb.blacken t = some u) : nodes u = nodes t := by
  cases t with
  | null => cases ht
  | node =>
    obtain rfl := Option.some.inj ht
    rfl

/-- A tree in memory and the tree as a value: the same comparison, the same delete
function, and the same nodes. -/
structure SameTree (h : Heap K V) (rb : RbTree K V) (tr : Rb.RbTree K V) : Prop where
  represents : Represents h rb.root tr.root
  cmp : rb.cmp = tr.cmp
  del : rb.del = tr.del

variable {rb : RbTree K V} {tr : Rb.RbTree K V}

/-- **`rb_insert` in memory**. -/
theorem rbInsert_sim {new : Option NewNode} (hs : SameTree h rb tr) (hnew : Fresh h new)
    (hfuel : Rb.rbSize tr < fuel) (key : K) (data : Option V) :
    Option.Rel (fun tr' y => SameTree y.1 y.2 tr' ∧ Inserts new h tr.root tr'.root (y.1, y.2.root))
      (Rb.rbInsert tr (new.map NewNode.addr) key data) (rbInsert fuel h rb new key data) := by
  simp only [Rb.rbInsert, rbInsert, Option.bind_eq_bind, hs.cmp]
  refine rel_bind (insert_sim hnew hs.represents hfuel) fun t x hi => ?_
  refine rel_bind_of_eq (blacken_sim hi.steps.represents) fun t' h' heq _ hb => ?_
  have haddrs := addrs_congr (nodes_blacken heq)
  have hsteps := hi.steps.trans hb
  exact .some ⟨⟨hsteps.represents, rfl, hs.del⟩, haddrs ▸ hsteps, haddrs ▸ hi.subset⟩

/-- **`rb_delete` in memory**. -/
theorem rbDelete_sim [DecidableEq K] (hs : SameTree h rb tr)
    (hfuel : Rb.rbSize tr < fuel) (key : K) :
    Option.Rel (fun x y => SameTree y.1 y.2.1 x.1 ∧ StepsCalls (addrs tr.root) h (x.1.root, x.2)
        (y.1, y.2.1.root, y.2.2))
      (Rb.rbDelete tr key) (rbDelete fuel h rb key) := by
  simp only [Rb.rbDelete, rbDelete, Option.bind_eq_bind, hs.cmp, hs.del]
  refine rel_bind (delete_sim tr.del hs.represents hfuel) fun x y hd => ?_
  refine rel_bind_of_eq (blacken_sim hd.steps.represents) fun t' h' heq _ hb => ?_
  have haddrs := addrs_congr (nodes_blacken heq)
  have hsteps := hd.steps.trans hb
  refine .some ⟨⟨hsteps.represents, rfl, rfl⟩, hsteps, hd.calls, fun a ha hat => ?_⟩
  have hat' : a ∉ addrs x.1 := haddrs ▸ hat
  rw [← hd.settled a ha hat', ← hb.frame a hat']

/-- **`rb_clear` in memory**, and `rb_destroy`, which frees the same nodes. -/
theorem rbClear_spec (hs : SameTree h rb tr) (hfuel : Rb.rbSize tr < fuel) :
    ∃ h', rbClear fuel h rb =
      some (h', { rb with root := none }, tornDown tr.del (Rb.delTree tr.root)) ∧
      rbDestroy fuel h rb = some (h', tornDown tr.del (Rb.delTree tr.root)) ∧
      (∀ a ∈ addrs tr.root, h' a = none) ∧
      SameOff (addrs tr.root) h h' := by
  obtain ⟨h', hdel, hfreed, hoff⟩ := delTree_spec tr.del hs.represents hfuel
  refine ⟨h', ?_, ?_, hfreed, hoff⟩
  · rw [rbClear, hs.del, hdel]
    rfl
  · rw [rbDestroy, hs.del, hdel]

end Resman.RbMem
