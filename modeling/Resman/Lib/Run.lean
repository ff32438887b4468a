import Mathlib.Data.List.Induction

/-!
# Runs of partial labelled steps

A system is a function `step : S → A → Option S`: the state after one action, and `none` where the
action is not enabled or its effect is undefined. `exec` runs a list of actions, `Along C` says that
every action of a run is taken in a state that meets the condition `C`, and `exec_invariant` is the
invariant rule for such runs. Facts about a whole run (a history, a condition met so far) go by
`exec_snoc_induction`, which extends the run at its end.
-/

namespace Resman.Lib

variable {S A : Type*}

/-- The state after a list of actions. -/
def exec (step : S → A → Option S) : S → List A → Option S
  | s, [] => some s
  | s, a :: as => (step s a).bind fun s' => exec step s' as

/-- Every action of the run is taken in a state that meets `C`. -/
def Along (step : S → A → Option S) (C : S → A → Prop) : S → List A → Prop
  | _, [] => True
  | s, a :: as => C s a ∧ match step s a with
    | none => True
    | some s' => Along step C s' as

instance Along.decidable (step : S → A → Option S) (C : S → A → Prop)
    [∀ s a, Decidable (C s a)] : ∀ (as : List A) (s : S), Decidable (Along step C s as)
  | [], _ => isTrue trivial
  | a :: as, s =>
    match h : step s a with
    | none => decidable_of_iff (C s a) (by simp [Along, h])
    | some s' =>
      haveI := Along.decidable step C as s'
      decidable_of_iff (C s a ∧ Along step C s' as) (by simp [Along, h])

section Exec

variable {step : S → A → Option S} {C : S → A → Prop}

theorem exec_cons_eq_some {s s' : S} {a : A} {as : List A} :
    exec step s (a :: as) = some s' ↔ ∃ m, step s a = some m ∧ exec step m as = some s' := by
  simp [exec, Option.bind_eq_some_iff]

theorem along_cons {s : S} {a : A} {as : List A} :
    Along step C s (a :: as) ↔ C s a ∧ ∀ s', step s a = some s' → Along step C s' as := by
  rw [Along]
  cases step s a with
  | none => simp
  | some s' => simp

theorem along_cons_of_step {s s' : S} {a : A} {as : List A} (h : step s a = some s') :
    Along step C s (a :: as) ↔ C s a ∧ Along step C s' as := by
  rw [Along, h]

theorem exec_append {s : S} {as bs : List A} :
    exec step s (as ++ bs) = (exec step s as).bind fun m => exec step m bs := by
  induction as generalizing s with
  | nil => rfl
  | cons a as ih =>
    simp only [List.cons_append, exec]
    cases step s a with
    | none => rfl
    | some m => exact ih

theorem exec_snoc {s s' : S} {as : List A} {a : A} :
    exec step s (as ++ [a]) = some s' ↔ ∃ m, exec step s as = some m ∧ step m a = some s' := by
  rw [exec_append, Option.bind_eq_some_iff]
  simp [exec]

theorem along_snoc {s m : S} {as : List A} {a : A} (h : exec step s as = some m) :
    Along step C s (as ++ [a]) ↔ Along step C s as ∧ C m a := by
  induction as generalizing s with
  | nil =>
    obtain rfl : s = m := Option.some.inj h
    rw [List.nil_append, along_cons]
    exact ⟨fun hc => ⟨trivial, hc.1⟩, fun hc => ⟨hc.2, fun _ _ => trivial⟩⟩
  | cons b as ih =>
    obtain ⟨n, hn, hm⟩ := exec_cons_eq_some.1 h
    simp only [List.cons_append, along_cons]
    constructor
    · rintro ⟨hb, hrest⟩
      have hsplit := (ih hm).1 (hrest n hn)
      exact ⟨⟨hb, fun n' hn' => (Option.some.inj (hn.symm.trans hn')) ▸ hsplit.1⟩, hsplit.2⟩
    · rintro ⟨⟨hb, hrest⟩, ha⟩
      refine ⟨hb, fun n' hn' => ?_⟩
      obtain rfl : n = n' := Option.some.inj (hn.symm.trans hn')
      exact (ih hm).2 ⟨hrest n hn, ha⟩

/-- A run is along a condition when every action of it meets the condition in the state that the
actions before it have reached. -/
theorem along_iff_forall {s : S} {as : List A} :
    Along step C s as ↔ ∀ pre a m, pre ++ [a] <+: as → exec step s pre = some m → C m a := by
  induction as generalizing s with
  | nil => exact ⟨fun _ pre a m hpre => absurd (List.prefix_nil.1 hpre) (by simp), fun _ => trivial⟩
  | cons b as ih =>
    rw [along_cons]
    constructor
    · rintro ⟨hb, hrest⟩ pre a m hpre hm
      cases pre with
      | nil =>
        obtain ⟨rfl, -⟩ := List.cons_prefix_cons.1 hpre
        exact Option.some.inj hm ▸ hb
      | cons c pre =>
        obtain ⟨rfl, hpre'⟩ := List.cons_prefix_cons.1 hpre
        obtain ⟨n, hn, hm'⟩ := exec_cons_eq_some.1 hm
        exact ih.1 (hrest n hn) pre a m hpre' hm'
    · intro h
      refine ⟨h [] b s (List.cons_prefix_cons.2 ⟨rfl, List.nil_prefix⟩) rfl, fun n hn => ih.2 ?_⟩
      intro pre a m hpre hm
      exact h (b :: pre) a m (List.cons_prefix_cons.2 ⟨rfl, hpre⟩) (exec_cons_eq_some.2 ⟨n, hn, hm⟩)

theorem Along.and {D : S → A → Prop} {s : S} {as : List A} (hC : Along step C s as)
    (hD : Along step D s as) : Along step (fun s a => C s a ∧ D s a) s as :=
  along_iff_forall.2 fun pre a m hpre hm =>
    ⟨along_iff_forall.1 hC pre a m hpre hm, along_iff_forall.1 hD pre a m hpre hm⟩

/-- **Induction on a run from its end**: the last action is taken in the state that the run before
it has reached, and every action so far met `C`. -/
theorem exec_snoc_induction {s : S} {P : List A → S → Prop} (h0 : P [] s)
    (hstep : ∀ as m a m', exec step s as = some m → P as m → C m a → step m a = some m' →
      P (as ++ [a]) m') :
    ∀ {as : List A} {s' : S}, Along step C s as → exec step s as = some s' → P as s' := by
  intro as
  induction as using List.reverseRecOn with
  | nil =>
    intro s' _ h
    obtain rfl : s = s' := Option.some.inj h
    exact h0
  | append_singleton as a ih =>
    intro s' hc h
    obtain ⟨m, hm, ha⟩ := exec_snoc.1 h
    have hsplit := (along_snoc hm).1 hc
    exact hstep as m a s' hm (ih hsplit.1 hm) hsplit.2 ha

/-- **The invariant rule**: what holds at the start and is preserved by every step taken under `C`
holds at the end of every run along `C`. -/
theorem exec_invariant {I : S → Prop} {s s' : S} {as : List A} (h0 : I s)
    (hstep : ∀ m a m', I m → C m a → step m a = some m' → I m')
    (hc : Along step C s as) (h : exec step s as = some s') : I s' :=
  exec_snoc_induction (P := fun _ m => I m) h0
    (fun _ m a m' _ hm ha hs => hstep m a m' hm ha hs) hc h

theorem along_true (s : S) (as : List A) : Along step (fun _ _ => True) s as := by
  induction as generalizing s with
  | nil => trivial
  | cons a as ih => exact along_cons.2 ⟨trivial, fun s' _ => ih s'⟩

/-- A condition that every action of the run meets in any state. -/
theorem along_of_forall_mem {s : S} {as : List A} (h : ∀ a ∈ as, ∀ m, C m a) :
    Along step C s as := by
  induction as generalizing s with
  | nil => trivial
  | cons a as ih =>
    rw [List.forall_mem_cons] at h
    exact along_cons.2 ⟨h.1 s, fun s' _ => ih h.2⟩

theorem along_mono {D : S → A → Prop} (hCD : ∀ s a, C s a → D s a) {s : S} {as : List A}
    (h : Along step C s as) : Along step D s as := by
  induction as generalizing s with
  | nil => trivial
  | cons a as ih =>
    obtain ⟨ha, hrest⟩ := along_cons.1 h
    exact along_cons.2 ⟨hCD s a ha, fun s' hs' => ih (hrest s' hs')⟩

/-- The invariant rule for runs without a condition on their steps. -/
theorem exec_invariant' {I : S → Prop} {s s' : S} {as : List A} (h0 : I s)
    (hstep : ∀ m a m', I m → step m a = some m' → I m') (h : exec step s as = some s') : I s' :=
  exec_invariant (C := fun _ _ => True) h0 (fun m a m' hm _ hs => hstep m a m' hm hs)
    (along_true s as) h

/-- A run along `C` goes through to its end when every step under `C` is defined. -/
theorem exec_total {I : S → Prop} (hstep : ∀ m a, I m → C m a → ∃ m', step m a = some m' ∧ I m') :
    ∀ {as : List A} {s : S}, I s → Along step C s as → ∃ s', exec step s as = some s'
  | [], s, _, _ => ⟨s, rfl⟩
  | a :: as, s, h, hc => by
    obtain ⟨ha, hrest⟩ := along_cons.1 hc
    obtain ⟨m, hm, hI⟩ := hstep s a h ha
    obtain ⟨s', hs'⟩ := exec_total hstep hI (hrest m hm)
    exact ⟨s', exec_cons_eq_some.2 ⟨m, hm, hs'⟩⟩

/-- Two conditions on the steps are the same all along a run if they are the same from every state
with `I`, which the steps that meet them keep. -/
theorem along_iff_along {D : S → A → Prop} {I : S → Prop}
    (hiff : ∀ m a m', I m → step m a = some m' → (C m a ↔ D m a))
    (hstep : ∀ m a m', I m → D m a → step m a = some m' → I m')
    {s s' : S} {as : List A} (h0 : I s) (h : exec step s as = some s') :
    Along step C s as ↔ Along step D s as := by
  induction as generalizing s with
  | nil => exact Iff.rfl
  | cons a as ih =>
    obtain ⟨n, hn, h'⟩ := exec_cons_eq_some.1 h
    have hrest (hD : D s a) : Along step C n as ↔ Along step D n as := ih (hstep s a n h0 hD hn) h'
    rw [along_cons, along_cons]
    constructor
    · rintro ⟨hC, hCs⟩
      have hD := (hiff s a n h0 hn).1 hC
      refine ⟨hD, fun m hm => ?_⟩
      obtain rfl : n = m := Option.some.inj (hn.symm.trans hm)
      exact (hrest hD).1 (hCs n hn)
    · rintro ⟨hD, hDs⟩
      refine ⟨(hiff s a n h0 hn).2 hD, fun m hm => ?_⟩
      obtain rfl : n = m := Option.some.inj (hn.symm.trans hm)
      exact (hrest hD).2 (hDs n hn)

/-- **The exact condition**: `I` is kept by the steps that meet `C`, it implies the property, and
from it a step that does not meet `C` loses the property. Then the property holds all along a run
exactly when every step of the run meets `C`. What is assumed of all steps is `D`. -/
theorem forall_prefix_iff_along {D : S → A → Prop} {I Good : S → Prop}
    (hgood : ∀ m, I m → Good m)
    (hstep : ∀ m a m', I m → D m a → C m a → step m a = some m' → I m')
    (hbreak : ∀ m a m', I m → D m a → ¬ C m a → step m a = some m' → ¬ Good m')
    {s s' : S} {as : List A} (h0 : I s) (hD : Along step D s as) (h : exec step s as = some s') :
    (∀ pre m, pre <+: as → exec step s pre = some m → Good m) ↔ Along step C s as := by
  induction as generalizing s with
  | nil => exact ⟨fun _ => trivial, fun _ pre m hpre hm => by
      obtain rfl := List.prefix_nil.1 hpre
      exact Option.some.inj hm ▸ hgood s h0⟩
  | cons a as ih =>
    obtain ⟨n, hn, h'⟩ := exec_cons_eq_some.1 h
    obtain ⟨ha, hD'⟩ := along_cons.1 hD
    constructor
    · intro hall
      have hc : C s a := by
        by_contra hc
        refine hbreak s a n h0 ha hc hn (hall [a] n ?_ ?_)
        · exact List.cons_prefix_cons.2 ⟨rfl, List.nil_prefix⟩
        · exact exec_cons_eq_some.2 ⟨n, hn, rfl⟩
      refine along_cons.2 ⟨hc, fun n' hn' => ?_⟩
      obtain rfl : n = n' := Option.some.inj (hn.symm.trans hn')
      refine (ih (hstep s a n h0 ha hc hn) (hD' n hn) h').1 fun pre m hpre hm => ?_
      exact hall (a :: pre) m (List.cons_prefix_cons.2 ⟨rfl, hpre⟩)
        (exec_cons_eq_some.2 ⟨n, hn, hm⟩)
    · intro hcs pre m hpre hm
      obtain ⟨hc, hrest⟩ := along_cons.1 hcs
      cases pre with
      | nil => exact Option.some.inj hm ▸ hgood s h0
      | cons b pre =>
        obtain ⟨rfl, hpre'⟩ := List.cons_prefix_cons.1 hpre
        obtain ⟨n', hn', hm'⟩ := exec_cons_eq_some.1 hm
        obtain rfl : n = n' := Option.some.inj (hn.symm.trans hn')
        exact (ih (hstep s b n h0 ha hc hn) (hD' n hn) h').2 (hrest n hn) pre m hpre' hm'

/-- The exact condition when a step may also be undefined: `C` makes it defined, and without `C` it
is undefined or loses the property. -/
theorem forall_prefix_total_iff_along {D : S → A → Prop} {I Good : S → Prop}
    (hgood : ∀ m, I m → Good m)
    (hstep : ∀ m a, I m → D m a → C m a → ∃ m', step m a = some m' ∧ I m')
    (hbreak : ∀ m a m', I m → D m a → ¬ C m a → step m a = some m' → ¬ Good m')
    {s : S} {as : List A} (h0 : I s) (hD : Along step D s as) :
    (∀ pre, pre <+: as → ∃ m, exec step s pre = some m ∧ Good m) ↔ Along step C s as := by
  have hdefined (n : S) (a : A) (m' : S) (hI : I n) (hDn : D n a) (hCn : C n a)
      (hs : step n a = some m') :
      I m' := by
    obtain ⟨m, hm, hI'⟩ := hstep n a hI hDn hCn
    exact Option.some.inj (hm.symm.trans hs) ▸ hI'
  constructor
  · intro hall
    obtain ⟨m, hm, -⟩ := hall as List.prefix_rfl
    refine (forall_prefix_iff_along hgood hdefined hbreak h0 hD hm).1 fun pre n hpre hn => ?_
    obtain ⟨n', hn', hgoodn⟩ := hall pre hpre
    exact Option.some.inj (hn'.symm.trans hn) ▸ hgoodn
  · intro hC pre hpre
    obtain ⟨post, rfl⟩ := hpre
    have hDC := hD.and hC
    obtain ⟨m, hm⟩ := exec_total (C := fun n a => D n a ∧ C n a)
      (fun n a hI hc => hstep n a hI hc.1 hc.2) h0 hDC
    refine ⟨_, (Option.some_get (x := exec step s pre) ?_).symm, ?_⟩
    · rw [exec_append] at hm
      exact Option.isSome_iff_exists.2 ((Option.bind_eq_some_iff.1 hm).imp fun _ h => h.1)
    · exact (forall_prefix_iff_along hgood hdefined hbreak h0 hD hm).2 hC pre _
        (List.prefix_append ..) (Option.some_get _).symm

end Exec

end Resman.Lib
