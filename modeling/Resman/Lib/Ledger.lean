import Mathlib.Data.List.Perm.Basic
import Resman.Lib.Run

/-!
# The ledger of an allocator

The calls of an allocator in the order in which they are made: what `alloc` returned, and what was
given to `free`. `settle` keeps the list of what is outstanding, and has no result when something is
freed that is not. A trace is `Paired` when it can be settled down to nothing. What is outstanding
matters only up to its order (`List.Perm`).
-/

namespace Resman.Lib

/-- A call of an allocator; `none` is the null pointer. -/
inductive MemCall (A : Type*) where
  | alloc (a : A)
  | free (ptr : Option A)
  deriving DecidableEq

variable {A : Type*} [DecidableEq A]

def settle (out : List A) : MemCall A → Option (List A)
  | .alloc a => some (a :: out)
  | .free none => none
  | .free (some a) => if a ∈ out then some (out.erase a) else none

/-- Everything allocated has been freed once, and nothing else has. -/
def Paired (calls : List (MemCall A)) : Prop := exec settle [] calls = some []

instance (calls : List (MemCall A)) : Decidable (Paired calls) :=
  inferInstanceAs (Decidable (exec settle [] calls = some []))

/-- What the calls leave outstanding, in any order. -/
def Owes (calls : List (MemCall A)) (out : List A) : Prop :=
  ∃ out', exec settle [] calls = some out' ∧ out'.Perm out

variable {calls : List (MemCall A)} {out out' : List A} {a : A}

theorem owes_nil : Owes ([] : List (MemCall A)) [] := ⟨[], rfl, .refl _⟩

theorem Owes.perm (h : Owes calls out) (hp : out.Perm out') : Owes calls out' := by
  obtain ⟨o, ho, ho'⟩ := h
  exact ⟨o, ho, ho'.trans hp⟩

theorem Owes.alloc (h : Owes calls out) (a : A) : Owes (calls ++ [.alloc a]) (a :: out) := by
  obtain ⟨o, ho, hp⟩ := h
  exact ⟨a :: o, exec_snoc.2 ⟨o, ho, rfl⟩, hp.cons a⟩

theorem Owes.free (h : Owes calls (a :: out)) : Owes (calls ++ [.free (some a)]) out := by
  obtain ⟨o, ho, hp⟩ := h
  have ha : a ∈ o := hp.mem_iff.2 List.mem_cons_self
  refine ⟨o.erase a, exec_snoc.2 ⟨o, ho, if_pos ha⟩, ?_⟩
  have herase := hp.erase a
  rwa [List.erase_cons_head] at herase

theorem Owes.frees {as : List A} (h : Owes calls (as ++ out)) :
    Owes (calls ++ as.map fun a => .free (some a)) out := by
  induction as generalizing calls with
  | nil => rwa [List.map_nil, List.append_nil]
  | cons a as ih =>
    rw [List.map_cons, ← List.singleton_append, ← List.append_assoc]
    exact ih h.free

theorem Owes.paired_iff (h : Owes calls out) : Paired calls ↔ out = [] := by
  obtain ⟨o, ho, hp⟩ := h
  rw [Paired, ho, Option.some.injEq]
  constructor
  · rintro rfl
    exact List.nil_perm.1 hp
  · rintro rfl
    exact List.perm_nil.1 hp

/-- A null pointer that has been freed is never settled. -/
theorem not_paired_of_null (h : .free none ∈ calls) : ¬ Paired calls := by
  obtain ⟨pre, post, rfl⟩ := List.append_of_mem h
  intro hp
  rw [Paired, exec_append, Option.bind_eq_some_iff] at hp
  obtain ⟨o, -, ho⟩ := hp
  cases ho

end Resman.Lib
