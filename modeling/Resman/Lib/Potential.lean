import Mathlib.Algebra.Ring.Nat
import Resman.Lib.Run

/-!
# The potential method

`total step f` is the sum of a quantity over the actions of a run, each in the state in which it is
taken. `total_add_le` is the accounting rule: when every action is paid for out of its credit and
out of what it takes from the potential, so is the run. The invariant and the condition on the
actions are those of `exec_invariant`.
-/

namespace Resman.Lib

variable {S A : Type*} {step : S → A → Option S} {f : S → A → Nat}

/-- The sum of `f` over the actions of a run. -/
def total (step : S → A → Option S) (f : S → A → Nat) : S → List A → Nat
  | _, [] => 0
  | s, a :: as => f s a + match step s a with
    | none => 0
    | some s' => total step f s' as

theorem total_cons {s s' : S} {a : A} {as : List A} (h : step s a = some s') :
    total step f s (a :: as) = f s a + total step f s' as := by
  rw [total, h]

theorem total_mul (k : Nat) (s : S) (as : List A) :
    total step (fun s a => k * f s a) s as = k * total step f s as := by
  induction as generalizing s with
  | nil => rfl
  | cons a as ih =>
    simp only [total, Nat.mul_add]
    cases step s a with
    | none => rfl
    | some s' => exact congrArg (_ + ·) (ih s')

/-- **The accounting rule**: the cost of a run, and the potential at its end, are covered by the
potential at its start and the credit. -/
theorem total_add_le {C : S → A → Prop} {I : S → Prop} {φ : S → Nat} {cost credit : S → A → Nat}
    (hstep : ∀ s a s', I s → C s a → step s a = some s' → I s' ∧ cost s a + φ s' ≤ φ s + credit s a)
    {s s' : S} {as : List A} (hI : I s) (hC : Along step C s as) (h : exec step s as = some s') :
    total step cost s as + φ s' ≤ φ s + total step credit s as := by
  induction as generalizing s with
  | nil =>
    obtain rfl := Option.some.inj h
    simp [total]
  | cons a as ih =>
    obtain ⟨m, hm, hrest⟩ := exec_cons_eq_some.1 h
    obtain ⟨hCa, hCrest⟩ := along_cons.1 hC
    obtain ⟨hIm, hpaid⟩ := hstep s a m hI hCa hm
    have hrun := ih hIm (hCrest m hm) hrest
    rw [total_cons hm, total_cons hm]
    omega

/-- A quantity that the state does not enter into. -/
theorem total_of_exec {c : A → Nat} {s s' : S} {as : List A} (h : exec step s as = some s') :
    total step (fun _ a => c a) s as = (as.map c).sum := by
  induction as generalizing s with
  | nil => rfl
  | cons a as ih =>
    obtain ⟨m, hm, hrest⟩ := exec_cons_eq_some.1 h
    rw [total_cons hm, ih hrest, List.map_cons, List.sum_cons]

section Slots

variable {α : Type*} {l : List α} {i : Nat} {a b : α} {g : α → Nat}

/-- The sum over the slots, after slot `i` has changed from `a` to `b`. -/
theorem sum_map_set_add (h : l[i]? = some a) :
    ((l.set i b).map g).sum + g a = (l.map g).sum + g b := by
  induction l generalizing i with
  | nil => cases h
  | cons c l ih =>
    cases i with
    | zero =>
      obtain rfl : c = a := Option.some.inj h
      simp only [List.set_cons_zero, List.map_cons, List.sum_cons]
      omega
    | succ i =>
      have hrest := ih (i := i) h
      simp only [List.set_cons_succ, List.map_cons, List.sum_cons]
      omega

theorem sum_map_le {c : Nat} (hg : ∀ a, g a ≤ c) (l : List α) : (l.map g).sum ≤ c * l.length := by
  induction l with
  | nil => simp
  | cons a l ih =>
    have ha := hg a
    simp only [List.map_cons, List.sum_cons, List.length_cons, Nat.mul_succ]
    omega

end Slots

end Resman.Lib
