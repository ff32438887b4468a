import Mathlib.Data.List.Basic
import Mathlib.Logic.Function.Basic

/-!
# Stores

Memory as a partial map from addresses to records. A pointer is an address or null. `load` and
`modify` go through a pointer, `alloc` writes a record at an address that is not in use, `free`
takes one out of use and ignores null; a result of `none` stands for undefined behaviour.

`SameOff S s s'` is the frame of an operation: nothing has changed at the addresses outside of `S`.
`Allocated L s s'` is the ledger of a run: the addresses in `L` have been taken into use, and at all
others there is what there was.
-/

namespace Resman.Lib

abbrev Store (A N : Type*) := A → Option N

variable {A N : Type*}

namespace Store

def load (s : Store A N) (p : Option A) : Option N := p.bind s

variable {s s' : Store A N} {a : A} {n : N} {f : N → N}

@[simp] theorem load_none : s.load none = none := rfl

@[simp] theorem load_some : s.load (some a) = s a := rfl

variable [DecidableEq A]

def modify (s : Store A N) (p : Option A) (f : N → N) : Option (Store A N) :=
  p.bind fun a => (s a).map fun n => Function.update s a (some (f n))

def alloc (s : Store A N) (a : A) (n : N) : Option (Store A N) :=
  match s a with
  | some _ => none
  | none => some (Function.update s a (some n))

def free (s : Store A N) : Option A → Option (Store A N)
  | none => some s
  | some a => (s a).map fun _ => Function.update s a none

@[simp] theorem modify_none : s.modify none f = none := rfl

theorem modify_some (h : s a = some n) :
    s.modify (some a) f = some (Function.update s a (some (f n))) := by
  rw [modify, Option.bind_some, h, Option.map_some]

theorem alloc_eq (h : s a = none) : s.alloc a n = some (Function.update s a (some n)) := by
  rw [alloc, h]

theorem free_some (h : s a = some n) : s.free (some a) = some (Function.update s a none) := by
  rw [free, h, Option.map_some]

end Store

/-! ## Frames -/

/-- The addresses outside of `S` hold what they held. -/
def SameOff (S : List A) (s s' : Store A N) : Prop := ∀ a ∉ S, s' a = s a

namespace SameOff

variable {S T : List A} {s s' s'' : Store A N}

theorem refl (S : List A) (s : Store A N) : SameOff S s s := fun _ _ => rfl

theorem trans (h : SameOff S s s') (h' : SameOff S s' s'') : SameOff S s s'' :=
  fun a ha => (h' a ha).trans (h a ha)

theorem mono (h : SameOff S s s') (hST : S ⊆ T) : SameOff T s s' :=
  fun a ha => h a fun hS => ha (hST hS)

theorem update [DecidableEq A] {a : A} (ha : a ∈ S) (x : Option N) :
    SameOff S s (Function.update s a x) :=
  fun _ hb => Function.update_of_ne (ne_of_mem_of_not_mem ha hb).symm ..

end SameOff

/-- What a write does: the record is there, and nothing else has changed. -/
theorem Store.modify_spec [DecidableEq A] {s : Store A N} {a : A} {n : N} (f : N → N)
    (h : s a = some n) :
    ∃ s', s.modify (some a) f = some s' ∧ s' a = some (f n) ∧ SameOff [a] s s' :=
  ⟨_, modify_some h, Function.update_self .., .update (List.mem_singleton_self a) _⟩

/-! ## Ledgers -/

/-- Since `s`, the addresses in `L` have been taken into use, and at all others
there is what there was. -/
structure Allocated (L : List A) (s s' : Store A N) : Prop where
  nodup : L.Nodup
  unused : ∀ a ∈ L, s a = none
  used : ∀ a ∈ L, s' a ≠ none
  off : SameOff L s s'

namespace Allocated

variable {L L' : List A} {s s' s'' : Store A N}

theorem refl (s : Store A N) : Allocated [] s s :=
  ⟨List.nodup_nil, fun _ ha => absurd ha List.not_mem_nil, fun _ ha => absurd ha List.not_mem_nil,
    .refl _ s⟩

/-- What is outstanding changes from `L` to `L'`: only addresses that were not in use come in, those
that go are freed, and nothing is written elsewhere. -/
theorem step (h : Allocated L s s') (hnodup : L'.Nodup) (hin : ∀ a ∈ L', a ∉ L → s' a = none)
    (hused : ∀ a ∈ L', s'' a ≠ none) (hout : ∀ a ∈ L, a ∉ L' → s'' a = none)
    (hoff : ∀ a ∉ L, a ∉ L' → s'' a = s' a) : Allocated L' s s'' := by
  refine ⟨hnodup, fun a ha => ?_, hused, fun a ha => ?_⟩
  · by_cases haL : a ∈ L
    · exact h.unused a haL
    · rw [← h.off a haL]
      exact hin a ha haL
  · by_cases haL : a ∈ L
    · rw [hout a haL ha, h.unused a haL]
    · rw [hoff a haL ha, h.off a haL]

/-- Nothing comes in. -/
theorem shrink (h : Allocated L s s') (hnodup : L'.Nodup) (hsub : L' ⊆ L)
    (hused : ∀ a ∈ L', s'' a ≠ none) (hout : ∀ a ∈ L, a ∉ L' → s'' a = none)
    (hoff : SameOff L s' s'') : Allocated L' s s'' :=
  h.step hnodup (fun _ ha hna => absurd (hsub ha) hna) hused hout fun a ha _ => hoff a ha

/-- What was in use before is as it was. -/
theorem kept (h : Allocated L s s') {a : A} (ha : s a ≠ none) : s' a = s a :=
  h.off a fun haL => ha (h.unused a haL)

theorem eq_iff (h : Allocated L s s') : s' = s ↔ L = [] := by
  constructor
  · rintro rfl
    exact List.eq_nil_iff_forall_not_mem.2 fun a ha => h.used a ha (h.unused a ha)
  · rintro rfl
    exact funext fun a => h.off a List.not_mem_nil

end Allocated

end Resman.Lib
