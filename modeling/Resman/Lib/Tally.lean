import Mathlib.Data.List.Basic

/-!
# Slots

A map from pointers or a list of slots (the workers of a pool, the cells of a table) changes one
slot at a time. The rules here say what the slots hold after that, how the number of slots with a
property changes, and what one or two such slots say about it.
-/

namespace Resman.Lib

variable {α : Type*} {f : α → Bool} {l : List α} {i j : Nat} {a b : α}

/-! ## Writing a slot -/

/-- What a map holds after `p` has been written. -/
theorem update_eq_some {ι : Type*} [DecidableEq ι] {g : ι → Option α} {p q : ι} {v : Option α} :
    Function.update g p v q = some a ↔ q = p ∧ v = some a ∨ q ≠ p ∧ g q = some a := by
  by_cases hq : q = p
  · subst hq
    simp
  · simp [hq]

/-- What a map holds after `p` has been cleared. -/
theorem update_none_eq_some {ι : Type*} [DecidableEq ι] {g : ι → Option α} {p q : ι} :
    Function.update g p none q = some a ↔ q ≠ p ∧ g q = some a := by
  simp [update_eq_some]

/-- A place that holds something is not one that holds nothing. -/
theorem ne_of_none {ι : Type*} {g : ι → Option α} {p q : ι} (hp : g p = none) (hq : g q = some a) :
    q ≠ p := by
  rintro rfl
  rw [hp] at hq
  cases hq

/-- What a list holds after slot `i` has been written. -/
theorem slot_of_set (h : (l.set i b)[j]? = some a) : j = i ∧ a = b ∨ j ≠ i ∧ l[j]? = some a := by
  rw [List.getElem?_set] at h
  split at h
  · next hij =>
    split at h
    · exact .inl ⟨hij.symm, (Option.some.inj h).symm⟩
    · cases h
  · next hij => exact .inr ⟨Ne.symm hij, h⟩

/-! ## Counting slots -/

/-- The number of slots in which `f` holds, after slot `i` has changed from `a` to `b`. -/
theorem countP_set_add (h : l[i]? = some a) :
    (l.set i b).countP f + (f a).toNat = l.countP f + (f b).toNat := by
  obtain ⟨hi, rfl⟩ := List.getElem?_eq_some_iff.1 h
  have hpos : (f l[i]).toNat ≤ l.countP f := by
    cases hf : f l[i] with
    | false => exact Nat.zero_le _
    | true => exact List.countP_pos_iff.2 ⟨l[i], List.getElem_mem hi, hf⟩
  rw [List.countP_set hi]
  cases hf : f l[i] with
  | false => cases f b <;> simp
  | true =>
    rw [hf, Bool.toNat_true] at hpos
    cases f b <;> simp only [if_true, Bool.toNat_true, Bool.toNat_false, Bool.false_eq_true,
      if_false] <;> omega

theorem countP_pos_of_slot (h : l[i]? = some a) (ha : f a) : 0 < l.countP f :=
  List.countP_pos_iff.2 ⟨a, List.mem_of_getElem? h, ha⟩

/-- Two slots in which `f` holds are counted twice. -/
theorem two_le_countP (hij : i ≠ j) (hi : l[i]? = some a) (hj : l[j]? = some b) (ha : f a)
    (hb : f b) : 2 ≤ l.countP f := by
  induction l generalizing i j with
  | nil => cases hi
  | cons c l ih =>
    cases i with
    | zero =>
      cases j with
      | zero => exact absurd rfl hij
      | succ j =>
        obtain rfl : c = a := Option.some.inj hi
        rw [List.countP_cons_of_pos ha]
        have := countP_pos_of_slot (f := f) (i := j) hj hb
        omega
    | succ i =>
      cases j with
      | zero =>
        obtain rfl : c = b := Option.some.inj hj
        rw [List.countP_cons_of_pos hb]
        have := countP_pos_of_slot (f := f) (i := i) hi ha
        omega
      | succ j =>
        have := ih (fun h => hij (congrArg _ h)) hi hj
        rw [List.countP_cons]
        omega

end Resman.Lib
