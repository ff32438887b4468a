import Resman.RbTree.Basic

/-!
# The built-in comparisons are strict total orders

`cmpaddr` on all pointers, and `cmpint` on the pointers that `INT2PTR` makes of non-negative
integers, where the difference of two keys does not overflow.
-/

namespace Resman.Rb

open Lib (StrictTotal)

theorem cmpaddr_strictTotal : StrictTotal cmpaddr where
  eq_of_zero := by
    intro a b h
    unfold cmpaddr at h
    split at h
    · cases h
    · split at h
      · cases h
      · exact BitVec.le_antisymm (BitVec.not_lt.1 ‹¬ b < a›) (BitVec.not_lt.1 ‹¬ a < b›)
  self a := by simp [cmpaddr]
  swap := by
    intro a b
    simp only [cmpaddr, BitVec.lt_def]
    rcases Nat.lt_trichotomy a.toNat b.toNat with h | h | h
    · simp [h, Nat.not_lt.2 h.le]
    · simp [h]
    · simp [h, Nat.not_lt.2 h.le]
  trans := by
    intro a b c h₁ h₂
    simp only [cmpaddr, BitVec.lt_def] at *
    split at h₁
    · split at h₂
      · rw [if_pos (by omega)]
        decide
      · split at h₂ <;> cases h₂
    · split at h₁ <;> cases h₁

/-- `PTR2INT` undoes `INT2PTR`. -/
theorem ptr2int_int2ptr (x : BitVec 32) : ptr2int (int2ptr x) = x := by
  ext i hi
  rw [ptr2int, int2ptr, BitVec.getElem_setWidth, BitVec.getLsbD_signExtend]
  simp only [show i < 64 by omega, hi, if_true, decide_true, Bool.true_and,
    BitVec.getLsbD_eq_getElem]

/-- A key that `rb_inserti` stores for a non-negative integer. -/
def NonnegKey := {p : BitVec 64 // ∃ x : BitVec 32, 0 ≤ x.toInt ∧ p = int2ptr x}

instance : DecidableEq NonnegKey := inferInstanceAs (DecidableEq (Subtype _))

namespace NonnegKey

/-- The key of `rb_inserti(rb, x, data)`. -/
def ofInt (x : BitVec 32) (h : 0 ≤ x.toInt) : NonnegKey := ⟨int2ptr x, x, h, rfl⟩

def toInt (k : NonnegKey) : Int := (ptr2int k.1).toInt

theorem toInt_nonneg (k : NonnegKey) : 0 ≤ k.toInt := by
  obtain ⟨p, x, hx, rfl⟩ := k
  simpa only [toInt, ptr2int_int2ptr] using hx

theorem toInt_inj {a b : NonnegKey} (h : a.toInt = b.toInt) : a = b := by
  obtain ⟨p, x, hx, rfl⟩ := a
  obtain ⟨q, y, hy, rfl⟩ := b
  simp only [toInt, ptr2int_int2ptr] at h
  exact Subtype.ext (congrArg int2ptr (BitVec.toInt_inj.1 h))

/-- The difference of two non-negative `int` values is representable. -/
theorem cmpint_eq (a b : NonnegKey) : cmpint a.1 b.1 = a.toInt - b.toInt := by
  have ha := a.toInt_nonneg
  have hb := b.toInt_nonneg
  have ha' := BitVec.toInt_lt (x := ptr2int a.1)
  have hb' := BitVec.toInt_lt (x := ptr2int b.1)
  simp only [toInt] at *
  rw [cmpint, BitVec.toInt_sub, Int.bmod_eq_of_le (by omega) (by omega)]

theorem cmpint_strictTotal : StrictTotal fun a b : NonnegKey => cmpint a.1 b.1 where
  eq_of_zero := by
    intro a b h
    rw [cmpint_eq] at h
    exact toInt_inj (by omega)
  self a := by rw [cmpint_eq]; omega
  swap := by
    intro a b
    rw [cmpint_eq, cmpint_eq]
    omega
  trans := by
    intro a b c h₁ h₂
    rw [cmpint_eq] at *
    omega

end NonnegKey

end Resman.Rb
