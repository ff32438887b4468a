import Mathlib.Logic.Function.Basic

/-!
# Exclusion

The threads of a system go in and out of operations on a shared object. `inside t` is the kind of
the operation that thread `t` is inside of, if any, and `clash` says which kinds of operations may
not overlap. A step moves one thread: exclusion is kept if and only if the thread is `Admitted`
where it goes.
-/

namespace Resman.Lib

variable {T K : Type*}

/-- No two threads are inside operations that clash. -/
def Exclusive (clash : K → K → Prop) (inside : T → Option K) : Prop :=
  ∀ t u, t ≠ u → ∀ a ∈ inside t, ∀ b ∈ inside u, ¬ clash a b

/-- No other thread is inside an operation that clashes with the one that the
thread goes to, if any. -/
def Admitted (clash : K → K → Prop) (inside : T → Option K) (t : T) (k : Option K) : Prop :=
  ∀ a ∈ k, ∀ u, u ≠ t → ∀ b ∈ inside u, ¬ clash a b

namespace Exclusive

variable {clash : K → K → Prop} {inside : T → Option K} {t : T} {k : Option K}

/-- A thread may stay where it is and go out. -/
theorem admitted (h : Exclusive clash inside) (hk : k = none ∨ k = inside t) :
    Admitted clash inside t k := by
  intro a ha u hne b hb
  rcases hk with rfl | rfl
  · cases ha
  · exact h t u hne.symm a ha b hb

/-- One thread moves. -/
theorem update_iff [DecidableEq T] (hsymm : ∀ a b, clash a b → clash b a)
    (h : Exclusive clash inside) :
    Exclusive clash (Function.update inside t k) ↔ Admitted clash inside t k := by
  constructor
  · intro hex a ha u hne b hb
    refine hex t u hne.symm a ?_ b ?_
    · rwa [Function.update_self]
    · rwa [Function.update_of_ne hne]
  · intro hadm u v hne a ha b hb
    by_cases hu : u = t
    · subst hu
      rw [Function.update_self] at ha
      rw [Function.update_of_ne hne.symm] at hb
      exact hadm a ha v hne.symm b hb
    · rw [Function.update_of_ne hu] at ha
      by_cases hv : v = t
      · subst hv
        rw [Function.update_self] at hb
        exact fun hclash => hadm b hb u hu a ha (hsymm a b hclash)
      · rw [Function.update_of_ne hv] at hb
        exact h u v hne a ha b hb

end Exclusive

end Resman.Lib
