import Mathlib.Data.Set.Card

/-!
# Reference counts

An object is shared by a set of users; it keeps their number and a list of them. `Counts n users S`
says that both are right. They stay right when a user that is not there joins, and when one that is
there leaves.
-/

namespace Resman.Lib

variable {P : Type*} {n : Int} {users : List P} {S : Set P} {p q : P}

/-- `n` is the number of the users in `S`, and the list has each of them once. -/
structure Counts (n : Int) (users : List P) (S : Set P) : Prop where
  count : n = S.ncard
  mem : ∀ p, p ∈ users ↔ p ∈ S
  once : users.Nodup

theorem ncard_eq_length (hmem : ∀ p, p ∈ users ↔ p ∈ S) (h : users.Nodup) :
    S.ncard = users.length := by
  classical
  have hS : S = (users.toFinset : Set P) := by
    ext p
    rw [List.coe_toFinset]
    exact (hmem p).symm
  rw [hS, Set.ncard_coe_finset, List.toFinset_card_of_nodup h]

theorem Counts.of_length (hn : n = users.length) (hmem : ∀ p, p ∈ users ↔ p ∈ S) (h : users.Nodup) :
    Counts n users S :=
  ⟨by rw [hn, ncard_eq_length hmem h], hmem, h⟩

namespace Counts

theorem length (h : Counts n users S) : n = users.length :=
  h.count.trans (congrArg Nat.cast (ncard_eq_length h.mem h.once))

theorem single (p : P) : Counts 1 [p] {p} :=
  of_length rfl (fun _ => List.mem_singleton) (List.nodup_singleton p)

theorem join (h : Counts n users S) (hp : p ∉ S) : Counts (n + 1) (p :: users) (insert p S) := by
  refine of_length ?_ (fun q => ?_) ?_
  · rw [h.length, List.length_cons, Int.natCast_succ]
  · rw [List.mem_cons, Set.mem_insert_iff, h.mem]
  · exact List.nodup_cons.2 ⟨fun hmem => hp ((h.mem p).1 hmem), h.once⟩

theorem leave [DecidableEq P] (h : Counts n users S) (hp : p ∈ S) :
    Counts (n - 1) (users.erase p) (S \ {p}) := by
  have hmem := (h.mem p).2 hp
  refine of_length ?_ (fun q => ?_) (h.once.erase p)
  · have hpos := List.length_pos_of_mem hmem
    rw [h.length, List.length_erase_of_mem hmem]
    omega
  · rw [h.once.mem_erase_iff, h.mem, and_comm]
    rfl

/-- The only user. -/
theorem eq_of_le_one (h : Counts n users S) (hn : n ≤ 1) (hp : p ∈ S) (hq : q ∈ S) : p = q := by
  have hlen := h.length
  have hp' := (h.mem p).2 hp
  have hq' := (h.mem q).2 hq
  match users, hp', hq' with
  | [x], hp', hq' => rw [List.mem_singleton.1 hp', List.mem_singleton.1 hq']
  | _ :: _ :: _, _, _ =>
    simp only [List.length_cons] at hlen
    omega

/-- A user that is there already must not be counted again. -/
theorem not_succ (h : Counts n users S) (users' : List P) : ¬ Counts (n + 1) users' S := by
  intro h'
  have hn := h.count
  have hn' := h'.count
  omega

end Counts

end Resman.Lib
