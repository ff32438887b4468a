import Mathlib.Data.List.Basic
import Resman.Lib.Run

/-!
# Runs that keep a history

`record step note` runs a system and writes down what happened: the notes of a step depend on the
state before, the action and the state after, and are put in front of the history, so the newest
note comes first. A recorded run is a run of the system (`exec_record`) and every run can be
recorded (`exists_record`).

`Uncovered c b` reads a history for an event that has happened since the last event of another kind:
a note with `c`, and no newer note with `b`.
-/

namespace Resman.Lib

variable {S A E : Type*}

/-- The step of the system on a state with its history. -/
def record (step : S → A → Option S) (note : S → A → S → List E) :
    S × List E → A → Option (S × List E)
  | (s, es), a => (step s a).map fun s' => (s', note s a s' ++ es)

section Record

variable {step : S → A → Option S} {note : S → A → S → List E} {s s' : S} {es es' : List E} {a : A}
  {as : List A}

theorem record_eq_some :
    record step note (s, es) a = some (s', es') ↔ step s a = some s' ∧ es' = note s a s' ++ es := by
  rw [record, Option.map_eq_some_iff]
  constructor
  · rintro ⟨s₁, hs₁, heq⟩
    obtain ⟨rfl, rfl⟩ := Prod.mk.inj heq
    exact ⟨hs₁, rfl⟩
  · rintro ⟨hs', rfl⟩
    exact ⟨s', hs', rfl⟩

theorem exec_record (h : exec (record step note) (s, es) as = some (s', es')) :
    exec step s as = some s' := by
  induction as generalizing s es with
  | nil =>
    obtain ⟨rfl, -⟩ := Prod.mk.inj (Option.some.inj h)
    rfl
  | cons a as ih =>
    obtain ⟨⟨m, ms⟩, hm, h⟩ := exec_cons_eq_some.1 h
    exact exec_cons_eq_some.2 ⟨m, (record_eq_some.1 hm).1, ih h⟩

theorem exists_record (h : exec step s as = some s') (es : List E) :
    ∃ es', exec (record step note) (s, es) as = some (s', es') := by
  induction as generalizing s es with
  | nil => exact ⟨es, by rw [exec, Option.some.inj h]⟩
  | cons a as ih =>
    obtain ⟨m, hm, h⟩ := exec_cons_eq_some.1 h
    obtain ⟨es', hes'⟩ := ih h (note s a m ++ es)
    exact ⟨es', exec_cons_eq_some.2 ⟨_, record_eq_some.2 ⟨hm, rfl⟩, hes'⟩⟩

end Record

/-! ## Reading a history -/

variable {c b : E → Bool} {es es' ns : List E} {e : E}

/-- There is a note with `c`, and no newer note with `b`. A note with both counts as `b` first. -/
def Uncovered (c b : E → Bool) : List E → Bool
  | [] => false
  | e :: es => c e || (!b e && Uncovered c b es)

theorem uncovered_cons_of (hc : c e = true) : Uncovered c b (e :: es) = true := by
  simp [Uncovered, hc]

/-- Notes of neither kind change nothing. -/
theorem uncovered_append (h : ∀ e ∈ ns, c e = false ∧ b e = false) :
    Uncovered c b (ns ++ es) = Uncovered c b es := by
  induction ns with
  | nil => rfl
  | cons e ns ih =>
    obtain ⟨hc, hb⟩ := h e List.mem_cons_self
    rw [List.cons_append, Uncovered, hc, hb, ih fun e he => h e (List.mem_cons_of_mem _ he)]
    rfl

theorem uncovered_mono {c' : E → Bool} (hc : ∀ e, c e = true → c' e = true)
    (h : Uncovered c b es = true) : Uncovered c' b es = true := by
  induction es with
  | nil => cases h
  | cons e es ih =>
    rw [Uncovered, Bool.or_eq_true, Bool.and_eq_true] at h ⊢
    exact h.imp (hc e) fun h => ⟨h.1, ih h.2⟩

/-- In other words: the history can be cut at a note with `c` such that no newer note has `b`. -/
theorem uncovered_iff :
    Uncovered c b es = true ↔
      ∃ l₁ e l₂, es = l₁ ++ e :: l₂ ∧ c e = true ∧ ∀ n ∈ l₁, b n = false := by
  constructor
  · intro h
    induction es with
    | nil => cases h
    | cons e es ih =>
      rw [Uncovered, Bool.or_eq_true, Bool.and_eq_true, Bool.not_eq_true'] at h
      rcases h with hc | ⟨hb, h⟩
      · exact ⟨[], e, es, rfl, hc, fun _ hn => by cases hn⟩
      · obtain ⟨l₁, e', l₂, rfl, hc, hl₁⟩ := ih h
        exact ⟨e :: l₁, e', l₂, rfl, hc, List.forall_mem_cons.2 ⟨hb, hl₁⟩⟩
  · rintro ⟨l₁, e, l₂, rfl, hc, hl₁⟩
    induction l₁ with
    | nil => exact uncovered_cons_of hc
    | cons n l₁ ih =>
      obtain ⟨hb, hl₁⟩ := List.forall_mem_cons.1 hl₁
      rw [List.cons_append, Uncovered, hb, ih hl₁]
      simp

/-- A note that a step has not added was there before, with the history that it had. -/
theorem suffix_of_not_mem {l : List E} (hns : e ∉ ns) (h : e :: l <:+ ns ++ es) :
    e :: l <:+ es := by
  induction ns with
  | nil => exact h
  | cons n ns ih =>
    obtain ⟨hn, hns⟩ := not_or.1 (List.mem_cons.not.1 hns)
    rcases List.suffix_cons_iff.1 h with heq | h
    · exact absurd (List.cons.inj heq).1 hn
    · exact ih hns h

end Resman.Lib
