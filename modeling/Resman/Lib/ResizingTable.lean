import Resman.Lib.Potential

/-!
# Tables that grow and shrink

A table has room for a number of elements and uses some of it. It gets twice the room when it is
full, and half of it when at most a third is in use; either may be refused. What a change of the
room costs is the number of elements that lie in the old and the new table.

Three moves for each operation pay for all of them, and a table never has more room than about three
times what it uses, whichever changes have been refused.
-/

namespace Resman.Lib

structure Table where
  used : Nat
  room : Nat
  deriving DecidableEq, Repr

namespace Table

variable {t : Table} {granted : Bool}

/-- The room that a full table asks for. -/
def more (room : Nat) : Nat := if room = 0 then 1 else 2 * room

/-- Room is made for one more, and `n` elements are added. -/
def push (t : Table) (n : Nat) (granted : Bool) : Table :=
  if t.used = t.room then if granted then ⟨t.used + n, more t.room⟩ else t
    else { t with used := t.used + n }

/-- An element is removed; when the table should shrink and must not, it stays. -/
def pop (t : Table) (granted : Bool) : Table :=
  if t.used = 0 then t
  else if t.used ≤ t.room / 3 then if granted then ⟨t.used - 1, t.room / 2⟩ else t
  else { t with used := t.used - 1 }

/-- The elements that `push` moves. -/
def pushMoves (t : Table) (granted : Bool) : Nat := if t.used = t.room ∧ granted then t.room else 0

/-- The places that `pop` moves. -/
def popMoves (t : Table) (granted : Bool) : Nat :=
  if t.used ≠ 0 ∧ t.used ≤ t.room / 3 ∧ granted then t.room / 2 else 0

/-- No more is used than there is room for, and not much less than a third of it. -/
structure Dense (t : Table) : Prop where
  le : t.used ≤ t.room
  dense : t.room ≤ 3 * t.used + 2

/-- It rises from two thirds of the room up, and from half of the room down. -/
def potential (t : Table) : Nat := (6 * t.used - 4 * t.room) + (3 * t.room - 6 * t.used)

theorem full (n : Nat) : Dense ⟨n, n⟩ := ⟨Nat.le_refl n, by show n ≤ 3 * n + 2; omega⟩

theorem potential_full (n : Nat) : potential ⟨n, n⟩ = 2 * n := by
  simp only [potential]
  omega

theorem Dense.push (h : t.Dense) {n : Nat} (hn : n ≤ 1) : (t.push n granted).Dense := by
  obtain ⟨hle, hdense⟩ := h
  unfold Table.push more
  split
  · cases granted with
    | false => exact ⟨hle, hdense⟩
    | true =>
      constructor
      · simp only [if_true]
        split <;> omega
      · simp only [if_true]
        split <;> omega
  · constructor
    · show t.used + n ≤ t.room
      omega
    · show t.room ≤ 3 * (t.used + n) + 2
      omega

theorem Dense.pop (h : t.Dense) : (t.pop granted).Dense := by
  obtain ⟨hle, hdense⟩ := h
  unfold Table.pop
  split
  · exact ⟨hle, hdense⟩
  · split
    · cases granted with
      | false => exact ⟨hle, hdense⟩
      | true =>
        constructor
        · show t.used - 1 ≤ t.room / 2
          omega
        · show t.room / 2 ≤ 3 * (t.used - 1) + 2
          omega
    · constructor
      · show t.used - 1 ≤ t.room
        omega
      · show t.room ≤ 3 * (t.used - 1) + 2
        omega

/-- A push pays for itself with three moves. -/
theorem push_paid {n : Nat} (hn : n ≤ 1) :
    2 * t.pushMoves granted + (t.push n granted).potential ≤ t.potential + 6 := by
  unfold pushMoves push more potential
  by_cases hfull : t.used = t.room
  · cases granted with
    | false =>
      simp only [hfull, Bool.false_eq_true, and_false, if_false, if_true]
      omega
    | true =>
      simp only [hfull, and_self, if_true]
      split <;> omega
  · simp only [hfull, false_and, if_false]
    omega

/-- A pop pays for itself with three moves. -/
theorem pop_paid : 2 * t.popMoves granted + (t.pop granted).potential ≤ t.potential + 6 := by
  unfold popMoves pop potential
  by_cases hzero : t.used = 0
  · simp only [hzero, ne_eq, not_true_eq_false, false_and, if_false, if_true]
    omega
  · by_cases hfew : t.used ≤ t.room / 3
    · cases granted with
      | false =>
        simp only [hzero, hfew, Bool.false_eq_true, and_false, if_false, if_true]
        omega
      | true =>
        simp only [hzero, hfew, ne_eq, not_false_eq_true, and_self, if_false, if_true]
        omega
    · simp only [hzero, hfew, false_and, and_false, if_false]
      omega

end Table

end Resman.Lib
