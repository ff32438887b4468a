import Resman.RbTree.RedBlack

/-!
# Deletions that end in undefined behaviour

`rb_delete` always writes the colour of the root that `delete` returns, so it never leaves an empty
tree (`rbDelete_root`): a tree cannot be drained, and the last deletion is the one that fails
(`not_drains`). Nor can it be told to delete a key that is not stored (`not_harmless`).
-/

namespace Resman.Rb

open RbNode
open Lib (At Gap WeakOrder exec exec_append exec_snoc exec_cons_eq_some)

variable {K V : Type} [DecidableEq K] {cmp : K → K → Int} {rb rb' : RbTree K V} {key : K}

/-! ## Draining -/

def insertOps (ins : List (Addr × K × Option V)) : List (RbOp K V) :=
  ins.map fun e => .insert e.1 e.2.1 e.2.2

def deleteOps (dels : List K) : List (RbOp K V) := dels.map .delete

/-- The insertions and then the deletions go through, the tree is empty after them, and from there
every run goes as from a fresh tree. -/
def Drains (cmp : K → K → Int) (del : Bool) (ins : List (Addr × K × Option V)) (dels : List K) :
    Prop :=
  ∃ rb, exec rbStep ⟨null, cmp, del⟩ (insertOps ins ++ deleteOps dels) = some rb ∧ rb.root = null ∧
    rbSize rb = 0 ∧ ∀ ops, exec rbStep rb ops = exec rbStep ⟨null, cmp, del⟩ ops

theorem rbDelete_root {calls : List (Call K V)} (h : rbDelete rb key = some (rb', calls)) :
    rb'.root ≠ null := by
  simp only [rbDelete, bind, Option.bind_eq_some_iff] at h
  obtain ⟨p, -, u, hu, heq⟩ := h
  obtain ⟨rfl, -⟩ := Prod.mk.inj (Option.some.inj heq)
  rintro rfl
  cases hp : p.1 with
  | null => rw [hp] at hu; cases hu
  | node => rw [hp] at hu; cases hu

/-- A run of insertions of different keys stores all of them. -/
theorem insertOps_stored (hc : WeakOrder cmp) (del : Bool) {ins : List (Addr × K × Option V)}
    (hdistinct : (ins.map fun e => e.2.1).Pairwise fun a b => cmp b a ≠ 0) :
    ∃ rb, exec rbStep ⟨null, cmp, del⟩ (insertOps ins) = some rb ∧ WeakWF rb ∧ rb.cmp = cmp ∧
      (keys rb.root).Perm (ins.map fun e => e.2.1) := by
  induction ins using List.reverseRecOn with
  | nil => exact ⟨_, rfl, .create hc del, rfl, .refl _⟩
  | append_singleton ins e ih =>
    rw [List.map_append, List.pairwise_append] at hdistinct
    obtain ⟨hins, -, hnew⟩ := hdistinct
    obtain ⟨rb, hrb, hwf, rfl, hperm⟩ := ih hins
    have hgap : ∃ xs ys, Gap (fun a => rb.cmp e.2.1 a.2.1) (nodes rb.root) xs ys := by
      refine (hwf.at_or_gap e.2.1).resolve_left ?_
      rintro ⟨xs, e', ys, hat⟩
      have hkey : e'.2.1 ∈ keys rb.root := mem_keys_iff.2 ⟨e', hat.mem, rfl⟩
      exact hnew _ (hperm.mem_iff.1 hkey) e.2.1 (by simp) hat.equal
    obtain ⟨xs, ys, hgap⟩ := hgap
    obtain ⟨root, hstep, hnodes, hwf'⟩ := rbInsert_gap hwf e.1 e.2.2 hgap
    refine ⟨{ rb with root }, ?_, hwf', rfl, ?_⟩
    · rw [insertOps, List.map_append, exec_append, ← insertOps, hrb]
      simp [exec, rbStep, hstep]
    · have hkeys : (keys root).Perm (e.2.1 :: keys rb.root) := by
        rw [keys_eq_map, keys_eq_map, hnodes, hgap.split]
        simp only [List.map_append, List.map_cons]
        exact List.perm_middle
      rw [List.map_append]
      exact hkeys.trans ((hperm.cons _).trans (List.perm_append_comm : ([e.2.1] ++ _).Perm _))

/-- Stored keys are deleted in any order as long as one is left. -/
theorem deleteOps_stored {dels : List K} {rest : K} (h : WeakWF rb)
    (hperm : (keys rb.root).Perm (dels ++ [rest])) :
    ∃ rb', exec rbStep rb (deleteOps dels) = some rb' ∧ keys rb'.root = [rest] := by
  induction dels generalizing rb with
  | nil => exact ⟨rb, rfl, List.perm_singleton.1 hperm⟩
  | cons k dels ih =>
    have hk : k ∈ keys rb.root := hperm.mem_iff.2 (by simp)
    have hsize : 2 ≤ rbSize rb := by
      have hlen := hperm.length_eq
      rw [keys, List.length_map, length_traverse] at hlen
      simp only [List.length_append, List.length_cons] at hlen
      rw [rbSize]
      omega
    obtain ⟨e, he, rfl⟩ := mem_keys_iff.1 hk
    obtain ⟨xs, ys, hsplit⟩ := List.append_of_mem he
    obtain ⟨rb', calls, hdel, hwf', -, htrav⟩ := rbDelete_stored h hsize (h.at_of_split hsplit)
    have hleft : (keys rb'.root).Perm (dels ++ [rest]) := by
      have hcons : (e.2.1 :: keys rb'.root).Perm (e.2.1 :: (dels ++ [rest])) := by
        refine List.Perm.trans ?_ hperm
        rw [keys, keys, htrav, traverse_eq, hsplit]
        simp only [List.map_append, List.map_cons]
        exact List.perm_middle.symm
      exact hcons.cons_inv
    obtain ⟨rb'', hrest, hkeys⟩ := ih hwf' hleft
    exact ⟨rb'', exec_cons_eq_some.2 ⟨rb', by simp [rbStep, hdel], hrest⟩, hkeys⟩

/-- **No tree is drained**, whatever the comparison: after the insertion of any keys, at
least one of them, the deletion of all of them in any order does not leave an empty tree.
Under a total order up to equivalence everything goes well until one key is left, and the
deletion of that one is undefined. -/
theorem not_drains (del : Bool) {ins : List (Addr × K × Option V)} {dels : List K} {last : K}
    (hdistinct : (ins.map fun e => e.2.1).Pairwise fun a b => cmp b a ≠ 0)
    (hall : (dels ++ [last]).Perm (ins.map fun e => e.2.1)) :
    ¬ Drains cmp del ins (dels ++ [last]) ∧
      (WeakOrder cmp →
        ∃ rb, exec rbStep ⟨null, cmp, del⟩ (insertOps ins ++ deleteOps dels) = some rb ∧
        keys rb.root = [last] ∧ rbStep rb (.delete last) = none) := by
  constructor
  · rintro ⟨rb, hrun, hroot, -⟩
    rw [deleteOps, List.map_append, List.map_singleton, ← List.append_assoc, exec_snoc] at hrun
    obtain ⟨rb₁, -, hlast⟩ := hrun
    obtain ⟨⟨rb₂, calls⟩, hdel, rfl⟩ := Option.map_eq_some_iff.1 hlast
    exact rbDelete_root hdel hroot
  · intro hc
    obtain ⟨rb, hins, hwf, -, hperm⟩ := insertOps_stored hc del hdistinct
    obtain ⟨rb', hdels, hkeys⟩ := deleteOps_stored hwf (hperm.trans hall.symm)
    refine ⟨rb', by rw [exec_append, hins, Option.bind_some, hdels], hkeys, ?_⟩
    have hsize : rbSize rb' ≤ 1 := by
      rw [rbSize, ← length_traverse, ← List.length_map (f := Prod.fst), ← keys, hkeys]
      exact le_rfl
    rw [rbStep, rbDelete_last hsize]
    rfl

/-- Three keys, deleted in another order. -/
theorem not_drains_three :
    ¬ Drains cmpaddr false [(1, 10, some 100), (2, 30, none), (3, 20, some 300)] [20, 30, 10] ∧
      (WeakOrder cmpaddr → ∃ rb, exec rbStep (⟨null, cmpaddr, false⟩ : RbTree (BitVec 64) Nat)
        (insertOps [(1, 10, some 100), (2, 30, none), (3, 20, some 300)] ++ deleteOps [20, 30]) =
          some rb ∧
        keys rb.root = [10] ∧ rbStep rb (.delete 10) = none) :=
  not_drains false (by decide) (show ([20, 30] ++ [10] : List (BitVec 64)).Perm _ by decide)

/-- One key is inserted and deleted. -/
theorem not_drains_one : ¬ Drains cmpaddr false [(1, 10, some 100)] [10] := by
  rintro ⟨rb, hrun, -⟩
  have hnone : exec rbStep (⟨null, cmpaddr, false⟩ : RbTree (BitVec 64) Nat)
      (insertOps [(1, 10, some 100)] ++ deleteOps [10]) = none := by decide +kernel
  rw [hnone] at hrun
  cases hrun

/-! ## Absent keys -/

/-- The deletion goes through and changes neither the stored pairs nor the red-black shape. -/
def Harmless (rb : RbTree K V) (key : K) : Prop :=
  ∃ rb' calls, rbDelete rb key = some (rb', calls) ∧ (∀ e, e ∈ rbForeach rb' ↔ e ∈ rbForeach rb) ∧
    (LeftLeaning rb.cmp rb.root → LeftLeaning rb'.cmp rb'.root)

/-- **Deleting an absent key is never harmless**: in every tree, reached or not, of any comparison,
the search for a key that is not stored dereferences a null pointer. -/
theorem not_harmless (rb : RbTree K V) {key : K}
    (h : ∀ k ∈ keys rb.root, rb.cmp key k ≠ 0 ∧ key ≠ k) : ¬ Harmless rb key := by
  rintro ⟨rb', calls, hdel, -⟩
  rw [rbDelete_absent fun e he => h e.2.1 (mem_keys_iff.2 ⟨e, he, rfl⟩)] at hdel
  cases hdel

/-- The key `20` among two others. -/
theorem not_harmless_between :
    ¬ Harmless (⟨node 2 false 30 none (node 1 true 10 (some 100) null null) null, cmpaddr, false⟩ :
      RbTree (BitVec 64) Nat) 20 :=
  not_harmless _ (by simp [keys, traverse, cmpaddr])

/-- Two keys are inserted, and a third one is deleted. -/
theorem not_harmless_neverInserted :
    ∃ rb, exec rbStep (⟨null, cmpaddr, false⟩ : RbTree (BitVec 64) Nat)
        [.insert 1 10 (some 100), .insert 2 30 none] = some rb ∧ 20 ∉ keys rb.root ∧
        ¬ Harmless rb 20 := by
  have hrun : (exec rbStep (⟨null, cmpaddr, false⟩ : RbTree (BitVec 64) Nat)
      [.insert 1 10 (some 100), .insert 2 30 none]).map
        (fun rb => (decide (20 ∈ keys rb.root), (rbDelete rb 20).isNone)) = some (false, true) := by
    decide +kernel
  obtain ⟨rb, hrb, heq⟩ := Option.map_eq_some_iff.1 hrun
  obtain ⟨hkey, hnone⟩ := Prod.mk.inj heq
  refine ⟨rb, hrb, of_decide_eq_false hkey, ?_⟩
  rintro ⟨rb', calls, hdel, -⟩
  rw [hdel] at hnone
  cases hnone

end Resman.Rb
