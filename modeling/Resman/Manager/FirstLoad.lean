import Resman.Manager.History

/-!
# Failed loads

A load that fails takes a resource out of the table only if it was the first one: `FirstLoadRule`
says so of the notes of a run and of the step that ends a load. With a `done_func` the counter of
loads decides, and the rule holds in every run. Without one nothing counts the loads, and
`firstLoad_of_run` needs that no reload of a loaded file fails (`ReloadsSucceed`).
-/

namespace Resman.Manager

open Lib FileWatch

variable {rman rman' : Rman} {pc pc' : Pc} {p q : ResPtr} {m : MgrPtr}
  {es ns : List Note} {d : Bool}

/-- The note says that a load of the resource succeeded: with a `done_func`, that a call of it
returned something else than `-1`, and without one, that `load_func` did. -/
def Note.succeeds (d : Bool) (m : MgrPtr) (p : ResPtr) : Note → Bool
  | doneReturned m' p' ret => d && m' = m && p' = p && ret ≠ -1
  | loadReturned _ m' p' ret => !d && m' = m && p' = p && ret ≠ -1
  | _ => false

/-- A load of the resource has succeeded; `d` says whether the manager has a `done_func`. -/
def Succeeded (d : Bool) (m : MgrPtr) (p : ResPtr) (es : List Note) : Bool :=
  es.any (·.succeeds d m p)

theorem succeeded_append (h : ∀ n ∈ ns, n.succeeds d m p = false) :
    Succeeded d m p (ns ++ es) = Succeeded d m p es := by
  have hns : ns.any (·.succeeds d m p) = false :=
    List.any_eq_false.2 fun n hn => by simp [h n hn]
  rw [Succeeded, List.any_append, hns, Bool.false_or]
  rfl

theorem succeeded_cons {n : Note} (hn : n.succeeds d m p = false) :
    Succeeded d m p (n :: es) = Succeeded d m p es := by
  rw [Succeeded, List.any_cons, hn, Bool.false_or]
  rfl

theorem Note.succeeds_rman {n : Note} (h : n.succeeds d m p = true) :
    n.rman = some m ∧ n.live = some p := by
  cases n with
  | doneReturned m' p' ret =>
    obtain ⟨⟨⟨-, rfl⟩, rfl⟩, -⟩ : ((d = true ∧ m' = m) ∧ p' = p) ∧ ret ≠ -1 := by
      simpa [Note.succeeds] using h
    exact ⟨rfl, rfl⟩
  | loadReturned w m' p' ret =>
    obtain ⟨⟨⟨-, rfl⟩, rfl⟩, -⟩ : ((d = false ∧ m' = m) ∧ p' = p) ∧ ret ≠ -1 := by
      simpa [Note.succeeds] using h
    exact ⟨rfl, rfl⟩
  | _ => cases h

/-- What happened to other managers, and to other resources, is no success. -/
theorem succeeds_other {n : Note} (h : n.rman ≠ some m ∨ n.live ≠ some p) :
    n.succeeds d m p = false := by
  by_contra hs
  obtain ⟨hm, hp⟩ := Note.succeeds_rman (by simpa using hs : n.succeeds d m p = true)
  exact h.elim (fun h => h hm) fun h => h hp

theorem callNotes_succeeds {f : Call} : ∀ n ∈ callNotes m rman f pc', n.succeeds d m p = false := by
  intro n hn
  cases callNotes_cases hn <;> rfl

/-- A client notes a success where `done_func` has returned. -/
theorem clientNotes_succeeds {o : Oracle} {n : Note} (hn : n ∈ clientNotes m o pc pc')
    (hs : n.succeeds d m p = true) : ∃ t i, pc = .doneCall t i p ∧ n = .doneReturned m p o.ret := by
  cases clientNotes_cases hn with
  | doneReturned =>
    obtain rfl := Option.some.inj (Note.succeeds_rman hs).2
    exact ⟨_, _, rfl, rfl⟩
  | _ => cases hs

theorem completionNotes_succeeds {w : Nat} :
    ∀ n ∈ completionNotes w m rman q, n.succeeds d m p = false := by
  intro n hn
  rcases completionNotes_cases hn with rfl | ⟨rfl, -⟩ <;> rfl

/-! ## The invariant -/

/-- What a failed load looks at: the number of loads with a `done_func`, the last result without. -/
def Resource.failed (d : Bool) (r : Resource) : Prop := if d then r.numLoads = 0 else r.result = -1

/-- A resource for which a failed load would be taken for the first one has not been loaded. -/
def Unloaded (m : MgrPtr) (c : Client) (es : List Note) : Prop :=
  ∀ p r, c.rman.heap p = some r → r.failed c.rman.doneFunc →
    Succeeded c.rman.doneFunc m p es = false

/-- The job whose `load_func` the worker executes. -/
def Worker.loads : Worker → Option Job
  | loading j => some j
  | idle | taken _ | loaded _ | finishing | exited => none

/-- If the manager has no `done_func`, no reload fails of a file of it that has been loaded. -/
def ReloadsSucceed (m : MgrPtr) (x : Sys × List Note) : Action → Prop
  | .worker w o => ∀ c ∈ x.1.clients m, c.rman.doneFunc = false →
      ∀ wk ∈ x.1.pool.workers[w]?, ∀ j ∈ wk.loads, j.rman = m →
        Succeeded false m j.res x.2 = true → o.ret ≠ -1
  | .create .. | .call .. | .client .. => True

instance (m : MgrPtr) (x : Sys × List Note) : ∀ a, Decidable (ReloadsSucceed m x a)
  | .worker w o => inferInstanceAs (Decidable (∀ c ∈ x.1.clients m, c.rman.doneFunc = false →
      ∀ wk ∈ x.1.pool.workers[w]?, ∀ j ∈ wk.loads, j.rman = m →
        Succeeded false m j.res x.2 = true → o.ret ≠ -1))
  | .create .. | .call .. | .client .. => isTrue trivial

/-- A note of a returned `load_func` is of the job that the worker was loading. -/
theorem loading_of_notes {s : Sys} {w : Nat} {o : Oracle} {ret : Int}
    (h : workerNotes s w o = [.loadReturned w m p ret]) :
    ∃ wk j, s.pool.workers[w]? = some wk ∧ wk.loads = some j ∧ j.rman = m ∧ j.res = p := by
  unfold workerNotes at h
  split at h
  · split at h <;> cases h
  · next j hj =>
    obtain ⟨-, rfl, rfl, -⟩ := Note.loadReturned.inj (List.cons.inj h).1
    exact ⟨_, j, hj, rfl, rfl, rfl⟩
  · split at h
    · unfold completionNotes at h
      split at h <;> cases h
    · cases h
  · cases h
  · cases h
  · cases h
  · cases h

namespace Unloaded

/-- A step that writes neither a number of loads nor a result. -/
theorem keep (h : Unloaded m ⟨rman, pc⟩ es) (hdone : rman'.doneFunc = rman.doneFunc)
    (hk : KeepsField (fun r => (r.numLoads, r.result)) rman rman')
    (hns : ∀ n ∈ ns, ∀ p, n.succeeds rman.doneFunc m p = false) :
    Unloaded m ⟨rman', pc'⟩ (ns ++ es) := by
  intro q r' hr' hfail
  obtain ⟨r, hr, heq⟩ := hk q r' hr'
  obtain ⟨hloads, hres⟩ := Prod.mk.inj heq
  simp only [hdone] at hfail ⊢
  rw [succeeded_append fun n hn => hns n hn q]
  refine h q r hr ?_
  rwa [Resource.failed, hloads, hres] at hfail

/-- `done_func` returns. -/
theorem doneReturn {o : Oracle} {startTime i : Nat}
    (h : Unloaded m ⟨rman, .doneCall startTime i p⟩ es)
    (hs : Manager.doneReturn rman startTime i p o = some (rman', pc')) :
    Unloaded m ⟨rman', pc'⟩ (clientNotes m o (.doneCall startTime i p) pc' ++ es) := by
  have hnote : ∀ n ∈ clientNotes m o (.doneCall startTime i p) pc', ∀ q,
      n.succeeds rman.doneFunc m q = true → q = p ∧ rman.doneFunc = true ∧ o.ret ≠ -1 := by
    intro n hn q hsucc
    obtain ⟨t, j, hpc, rfl⟩ := clientNotes_succeeds hn hsucc
    obtain ⟨-, -, rfl⟩ := Pc.doneCall.inj hpc
    have hall : (rman.doneFunc = true) ∧ o.ret ≠ -1 := by simpa [Note.succeeds] using hsucc
    exact ⟨rfl, hall⟩
  obtain ⟨r, hr, ⟨hret, hloads, rfl, rfl⟩ | ⟨hok, ⟨rman₁, ok, hup, hstart⟩, rfl⟩⟩ :=
    doneReturn_spec hs
  · refine h.keep rfl (.refl _) fun n hn q => ?_
    by_contra hsucc
    exact (hnote n hn q (by simpa using hsucc)).2.2 hret
  · have hq := startWatch_quiet hstart
    obtain ⟨r₀, hr₀, rfl⟩ := heap_of_update hup
    obtain rfl : r = r₀ := Option.some.inj (hr.symm.trans hr₀)
    have hdone : rman'.doneFunc = rman.doneFunc := hq.doneFunc
    intro q r' hr' hfail
    obtain ⟨r₁, hr₁, heq⟩ := startWatch_keeps (g := fun r => (r.numLoads, r.result))
      (fun _ _ => rfl) hstart q r' hr'
    obtain ⟨hloads, hres⟩ := Prod.mk.inj heq
    rw [Resource.failed, hloads, hres] at hfail
    simp only [hdone] at hfail ⊢
    rcases update_eq_some.1 hr₁ with ⟨rfl, heq₁⟩ | ⟨hqp, hr₁⟩
    · obtain rfl := Option.some.inj heq₁
      cases hd : rman.doneFunc with
      | true =>
        -- the load has been counted
        simp [hd] at hfail
      | false =>
        rw [hd] at hnote
        rw [succeeded_append fun n hn => ?_]
        · have := h q r hr
          simp only [hd, Resource.failed] at this hfail
          exact this hfail
        · by_contra hsucc
          exact absurd (hnote n hn q (by simpa using hsucc)).2.1 Bool.false_ne_true
    · rw [succeeded_append fun n hn => ?_]
      · exact h q r₁ hr₁ hfail
      · by_contra hsucc
        exact hqp (hnote n hn q (by simpa using hsucc)).1

theorem step {s s' : Sys} {a : Action} {c c' : Client} (hC : ReloadsSucceed m (s, es) a)
    (hc : s.clients m = some c) (hnotes : notes s a s' = ns) (hp : Past m c es)
    (h : Unloaded m c es) (hv : NoteStep m a c c' ns) : Unloaded m c' (ns ++ es) := by
  cases hv with
  | frame _ hns => exact h.keep rfl (.refl _) fun n hn p => succeeds_other (.inl (hns n hn))
  | call hs =>
    have hdone := (NoteStep.call (m := m) hs).fields.1
    rcases callStep_keeps (g := fun r => (r.numLoads, r.result)) hs fun _ _ => rfl with
      hk | ⟨fname, data, mem, rfl, -, rfl, rfl⟩
    · exact h.keep hdone hk fun n hn p => callNotes_succeeds n hn
    · intro q r' hr' hfail
      rw [succeeded_append fun n hn => callNotes_succeeds n hn]
      rcases mem_heap_append.1 hr' with ⟨rfl, rfl⟩ | ⟨-, hr'⟩
      · refine List.any_eq_false.2 fun n hn hs => ?_
        obtain ⟨hm, hlive⟩ := Note.succeeds_rman hs
        exact Nat.lt_irrefl _ (hp.noted n hn hm _ hlive)
      · exact h q r' hr' hfail
  | @client o rman rman' pc pc' hs =>
    by_cases hcall : ∃ t i p, pc = .doneCall t i p
    · obtain ⟨t, i, p, rfl⟩ := hcall
      exact h.doneReturn hs
    · refine h.keep (localStep_fields hs).1 (localStep_keeps ⟨fun _ _ => rfl, fun _ _ => rfl⟩ hs
        (.inl fun _ _ => rfl) (.inl fun _ _ => rfl) (.inr fun t i q heq => hcall ⟨t, i, q, heq⟩))
        fun n hn q => ?_
      by_contra hsucc
      obtain ⟨t, i, hpc, -⟩ := clientNotes_succeeds hn (by simpa using hsucc)
      exact hcall ⟨t, i, q, hpc⟩
  | pool hs =>
    refine h.keep rfl (.refl _) fun n hn q => ?_
    by_contra hsucc
    obtain ⟨t, i, rfl, -⟩ := clientNotes_succeeds hn (by simpa using hsucc)
    cases hs
  | taken => exact h.keep rfl (.of_heap_eq rfl) fun n hn => (by cases hn)
  | @returned w o rman rman' pc p hup =>
    obtain ⟨wk, j, hwk, hj, rfl, rfl⟩ := loading_of_notes hnotes
    obtain ⟨r, hr, rfl⟩ := heap_of_update hup
    intro q r' hr' hfail
    rcases update_eq_some.1 hr' with ⟨rfl, heq⟩ | ⟨hqp, hr'⟩
    · obtain rfl := Option.some.inj heq
      cases hd : rman.doneFunc with
      | true =>
        rw [succeeded_append fun n hn => ?_]
        · have := h j.res r hr
          simp only [hd, Resource.failed] at this hfail
          exact this hfail
        · obtain rfl := List.mem_singleton.1 hn
          rfl
      | false =>
        simp only [hd, Resource.failed] at hfail
        have hret : o.ret = -1 := hfail
        rw [succeeded_append fun n hn => ?_]
        · by_contra hsucc
          exact hC _ hc hd wk hwk j hj rfl (by simpa using hsucc) hret
        · obtain rfl := List.mem_singleton.1 hn
          simp [Note.succeeds, hret]
    · rw [succeeded_append fun n hn => succeeds_other (.inr ?_)]
      · exact h q r' hr' hfail
      · obtain rfl := List.mem_singleton.1 hn
        exact fun heq => hqp (Option.some.inj heq).symm
  | completed _ hwork =>
    obtain ⟨rman₁, hup, hq, -⟩ := workDone_spec hwork
    have hdone : _ = _ := hq.doneFunc
    obtain ⟨r, -, rfl⟩ := heap_of_update hup
    exact h.keep hdone (workDone_keeps (fun _ _ => rfl) (fun _ _ => rfl)
      (fun _ _ => rfl) (fun _ _ => rfl) hwork) fun n hn q => completionNotes_succeeds n hn

end Unloaded

/-- Only a manager with a `done_func` marks resources for its call. -/
structure Flagged (c : Client) : Prop where
  flag : ∀ p r, c.rman.heap p = some r → r.donePending = true → c.rman.doneFunc = true
  call : ∀ t i p, c.pc = .doneCall t i p → c.rman.doneFunc = true

namespace Flagged

/-- A step that neither sets a flag nor begins a call. -/
theorem keep (h : Flagged ⟨rman, pc⟩) (hdone : rman'.doneFunc = rman.doneFunc)
    (hk : KeepsField Resource.donePending rman rman')
    (hpc : ∀ t i p, pc' = .doneCall t i p → pc = .doneCall t i p) : Flagged ⟨rman', pc'⟩ where
  flag q r' hr' hflag := by
    obtain ⟨r, hr, heq⟩ := hk q r' hr'
    exact hdone.trans (h.flag q r hr (heq ▸ hflag))
  call t i p heq := hdone.trans (h.call t i p (hpc t i p heq))

theorem step {a : Action} {c c' : Client} (h : Flagged c) (hv : NoteStep m a c c' ns) :
    Flagged c' := by
  have hdone := hv.fields.1
  cases hv with
  | frame => exact h
  | @call f rman rman' pc' hs =>
    have hpc : ∀ t i p, pc' = .doneCall t i p → Pc.idle = .doneCall t i p := by
      rintro t i p rfl
      cases callStep_cases hs
    rcases callStep_keeps (g := Resource.donePending) hs fun _ _ => rfl with
      hk | ⟨fname, data, mem, -, -, rfl, rfl⟩
    · exact h.keep hdone hk hpc
    · refine ⟨fun q r' hr' hflag => ?_, fun t i p heq => absurd (hpc t i p heq) (by simp)⟩
      rcases mem_heap_append.1 hr' with ⟨rfl, rfl⟩ | ⟨-, hr'⟩
      · cases hflag
      · exact h.flag q r' hr' hflag
  | @client o rman rman' pc pc' hs =>
    by_cases htake : ∃ t i q, pc' = .doneCall t i q
    · obtain ⟨t, i, q, rfl⟩ := htake
      generalize hpc : Pc.doneCall t i q = pc' at hs
      cases localStep_cases hs with
      | doneTake hi hr hflag hup =>
        obtain ⟨r₀, hr₀, rfl⟩ := heap_of_update hup
        have hd : rman.doneFunc = true := h.flag _ _ hr hflag
        exact ⟨fun _ _ _ _ => hd, fun _ _ _ _ => hd⟩
      | doneOk hup hq hpc' => rcases hpc' with rfl | rfl <;> cases hpc
      | @rmFree _ _ _ k => cases k <;> cases hpc
      | _ => cases hpc
    · exact h.keep hdone (localStep_keeps ⟨fun _ _ => rfl, fun _ _ => rfl⟩ hs (.inl fun _ _ => rfl)
        (.inr fun t i q heq => htake ⟨t, i, q, heq⟩) (.inl fun _ _ => rfl))
        fun t i q heq => absurd ⟨t, i, q, heq⟩ htake
  | @pool o rman pool pool' pc pc' hs =>
    refine h.keep rfl (.refl _) fun t i q hpc => ?_
    cases poolStep_cases hs with
    | @enqueue _ _ k | @lost _ _ k => cases k <;> cases hpc
    | release hpc' => rcases hpc' with rfl | rfl <;> cases hpc
    | _ => cases hpc
  | taken => exact h.keep rfl (.of_heap_eq rfl) fun _ _ _ heq => heq
  | returned hup => exact h.keep hdone (.of_update hup fun _ => rfl) fun _ _ _ heq => heq
  | @completed w o rman rman' pc p _ hwork =>
    obtain ⟨rman₁, hup, hq, -⟩ := workDone_spec hwork
    obtain ⟨r₀, hr₀, rfl⟩ := heap_of_update hup
    refine ⟨fun q r' hr' hflag => hdone.trans ?_, fun t i q heq => hdone.trans (h.call t i q heq)⟩
    obtain ⟨r₁, hr₁, -, hflag', -⟩ := hq.flags hr'
    rw [hflag'] at hflag
    rcases update_eq_some.1 hr₁ with ⟨rfl, heq⟩ | ⟨-, hr₁⟩
    · obtain rfl := Option.some.inj heq
      rcases (Bool.or_eq_true _ _).mp hflag with hflag | hd
      · exact h.flag q r₀ hr₀ hflag
      · exact hd
    · exact h.flag q r₁ hr₁ hflag

end Flagged

/-! ## Runs -/

/-- A step in which a load may fail: any step of a worker, and the return of `done_func`. -/
def EndsLoad (m : MgrPtr) (c : Client) : Action → Prop
  | .worker .. => True
  | .client m' _ => m' = m ∧ ∃ t i p, c.pc = .doneCall t i p
  | .create .. | .call .. => False

/-- The first-load rule of a manager:
* a resource was marked for deletion, or its removal began, because a load failed only when no load
  of it had succeeded before;
* a resource that has been loaded stays in its slot and is not marked by a step in which a load may
  fail. -/
structure FirstLoadRule (m : MgrPtr) (s : Sys) (c : Client) (es : List Note) : Prop where
  condemned : ∀ p l, .condemned m p :: l <:+ es → Succeeded c.rman.doneFunc m p l = false
  stays : ∀ i p r a s' es', c.rman.res[i]? = some (some p) → c.rman.heap p = some r →
    Succeeded c.rman.doneFunc m p es = true → EndsLoad m c a → trace (s, es) a = some (s', es') →
    ∃ c' r', s'.clients m = some c' ∧ c'.rman.res[i]? = some (some p) ∧ c'.rman.heap p = some r' ∧
      r'.deletePending = r.deletePending ∧ ∀ k, c'.pc = .rmStop i p k → c.pc = .rmStop i p k

/-- Of the two notes that a failed first load leaves, the other one is no success. -/
theorem condemned_of_notes {a : Action} {c c' : Client} (h : Unloaded m c es) (hf : Flagged c)
    (hv : NoteStep m a c c' ns) (hns : .condemned m p ∈ ns) :
    ∃ n, ns = [.condemned m p, n] ∧ n ≠ .condemned m p ∧
      n.succeeds c.rman.doneFunc m p = false ∧ Succeeded c.rman.doneFunc m p es = false := by
  cases hv with
  | frame _ hother => exact absurd rfl (hother _ hns)
  | call => cases callNotes_cases hns
  | @client o rman rman' pc pc' hs =>
    cases clientNotes_cases hns with
    | condemned =>
      have hd : rman.doneFunc = true := hf.call _ _ _ rfl
      obtain ⟨r, hr, ⟨hret, hloads, -, -⟩ | ⟨-, -, hpc⟩⟩ := doneReturn_spec hs
      · refine ⟨_, rfl, by simp, by simp [Note.succeeds, hret], h p r hr ?_⟩
        simp only [hd, Resource.failed, if_true, hloads]
      · split at hpc <;> cases hpc
  | pool hs =>
    cases clientNotes_cases hns with
    | condemned => cases hs
  | taken => cases hns
  | returned => cases List.mem_singleton.1 hns
  | @completed w o rman rman' pc q _ hwork =>
    rcases completionNotes_cases hns with heq | ⟨heq, hcond⟩
    · cases heq
    · obtain ⟨-, rfl⟩ := Note.condemned.inj heq
      obtain ⟨r, hr, hcond'⟩ := (Option.any_eq_true _ _).1 hcond
      obtain ⟨⟨hd, hres⟩, -⟩ : (rman.doneFunc = false ∧ r.result = -1) ∧ r.numLoads = 0 := by
        simpa using hcond'
      refine ⟨_, by rw [completionNotes, if_pos hcond], by simp, rfl, h p r hr ?_⟩
      simp only [hd, Resource.failed, Bool.false_eq_true, if_false, hres]

/-- What a step in which a load may fail leaves of a resource that has been loaded. -/
theorem stays_of_step {a : Action} {c c' : Client} {i : Nat} {r : Resource} (h : Unloaded m c es)
    (hf : Flagged c) (hi : c.rman.res[i]? = some (some p)) (hr : c.rman.heap p = some r)
    (hsucc : Succeeded c.rman.doneFunc m p es = true) (hend : EndsLoad m c a)
    (hv : NoteStep m a c c' ns) :
    ∃ r', c'.rman.res[i]? = some (some p) ∧ c'.rman.heap p = some r' ∧
      r'.deletePending = r.deletePending ∧ ∀ k, c'.pc = .rmStop i p k → c.pc = .rmStop i p k := by
  have hnot : ¬ r.failed c.rman.doneFunc := fun hfail => by
    rw [h p r hr hfail] at hsucc
    cases hsucc
  cases hv with
  | frame | taken => exact ⟨r, hi, hr, rfl, fun _ heq => heq⟩
  | call => exact hend.elim
  | @client o rman rman' pc pc' hs =>
    obtain ⟨-, t, j, q, rfl⟩ := hend
    obtain ⟨r₀, hr₀, ⟨-, hloads, rfl, rfl⟩ | ⟨-, ⟨rman₁, ok, hup, hstart⟩, hpc⟩⟩ :=
      doneReturn_spec hs
    · refine ⟨r, hi, hr, rfl, fun k heq => absurd ?_ hnot⟩
      obtain ⟨-, rfl, -⟩ := Pc.rmStop.inj heq
      obtain rfl : r₀ = r := Option.some.inj (hr₀.symm.trans hr)
      have hd : rman'.doneFunc = true := hf.call _ _ _ rfl
      simp only [hd, Resource.failed, if_true, hloads]
    · have hq := startWatch_quiet hstart
      have hdel := map_heap_of_update (g := Resource.deletePending) hup (fun _ => rfl) p
      obtain ⟨r₁, hr₁, heq₁⟩ := Option.map_eq_some_iff.1 (hdel.trans (congrArg _ hr))
      obtain ⟨r', hr', heq⟩ := hq.heap_kept hr₁
      obtain ⟨r₂, -, rfl⟩ := heap_of_update hup
      refine ⟨r', ?_, hr', (congrArg Core.deletePending heq).trans heq₁, fun k heq => ?_⟩
      · rw [show rman'.res = rman.res from hq.res]
        exact hi
      · rw [show pc' = _ from hpc] at heq
        split at heq <;> cases heq
  | pool hs =>
    obtain ⟨-, t, j, q, rfl⟩ := hend
    cases hs
  | @returned w o rman rman' pc q hup =>
    have hdel := map_heap_of_update (g := Resource.deletePending) hup (fun _ => rfl) p
    obtain ⟨r', hr', heq⟩ := Option.map_eq_some_iff.1 (hdel.trans (congrArg _ hr))
    obtain ⟨r₁, -, rfl⟩ := heap_of_update hup
    exact ⟨r', hi, hr', heq, fun _ heq => heq⟩
  | @completed w o rman rman' pc q _ hwork =>
    obtain ⟨rman₁, hup, hq, -⟩ := workDone_spec hwork
    obtain ⟨r₀, hr₀, rfl⟩ := heap_of_update hup
    have hr : rman.heap p = some r := hr
    obtain ⟨r₁, hr₁, heq₁⟩ : ∃ r₁, Function.update rman.heap q (some (finish rman.doneFunc r₀)) p =
        some r₁ ∧ r₁.deletePending = r.deletePending := by
      by_cases hpq : p = q
      · subst hpq
        obtain rfl : r₀ = r := Option.some.inj (hr₀.symm.trans hr)
        refine ⟨_, Function.update_self .., ?_⟩
        cases hd : rman.doneFunc with
        | true => simp [finish]
        | false =>
          have hres : r₀.result ≠ -1 := by simpa [Resource.failed, hd] using hnot
          simp [finish, hres]
      · exact ⟨r, (Function.update_of_ne hpq _ _).trans hr, rfl⟩
    obtain ⟨r', hr', heq⟩ := hq.heap_kept hr₁
    refine ⟨r', ?_, hr', (congrArg Core.deletePending heq).trans heq₁, fun _ heq => heq⟩
    rw [show rman'.res = rman.res from hq.res]
    exact hi

/-- **The first-load rule** for every manager with a `done_func` in every run, and for a manager
without one in every run in which no reload of a loaded file fails. -/
theorem firstLoad_of_run {numThreads : Nat} {as : List Action} {s : Sys}
    (hC : Along trace (ReloadsSucceed m) (.initial numThreads, []) as)
    (h : exec trace (.initial numThreads, []) as = some (s, es)) {c : Client}
    (hc : s.clients m = some c) : FirstLoadRule m s c es := by
  obtain ⟨-, hI⟩ := (history_invariant (m := m) (C := ReloadsSucceed m)
    (I := fun m' c es => m = m' → Unloaded m' c es ∧ Flagged c ∧
      ∀ p l, .condemned m' p :: l <:+ es → Succeeded c.rman.doneFunc m' p l = false)
    (fun m d f es hes _ => ⟨fun p r hr => (by cases hr),
      ⟨fun p r hr => (by cases hr), fun t i p heq => (by cases heq)⟩,
      fun p l hl => absurd rfl (hes _ (hl.subset List.mem_cons_self))⟩)
    (fun m' s a s' c c' es ns hC hc hnotes hp hI hv hm => by
      subst hm
      obtain ⟨hU, hF, hlog⟩ := hI rfl
      refine ⟨hU.step hC hc hnotes hp hv, hF.step hv, fun p l hl => ?_⟩
      rw [hv.fields.1]
      by_cases hns : .condemned m p ∈ ns
      · obtain ⟨n, rfl, hne, hn, hsucc⟩ := condemned_of_notes hU hF hv hns
        rcases List.suffix_cons_iff.1 hl with heq | hl
        · rw [(List.cons.inj heq).2]
          exact (succeeded_cons hn).trans hsucc
        · have hl : .condemned m p :: l <:+ [n] ++ es := hl
          exact hlog p l (suffix_of_not_mem (by simpa using hne.symm) hl)
      · exact hlog p l (suffix_of_not_mem hns hl))
    hC h).1 c hc
  obtain ⟨hU, hF, hlog⟩ := hI rfl
  refine ⟨hlog, fun i p r a s' es' hi hr hsucc hend hs => ?_⟩
  obtain ⟨hs', -⟩ := record_eq_some.1 hs
  obtain ⟨c', hc', hv⟩ := step_notes hs' hc
  obtain ⟨r', hstay⟩ := stays_of_step hU hF hi hr hsucc hend hv
  exact ⟨c', r', hc', hstay⟩

/-- A file is loaded and watched. It is deleted and created again, which inotify reports with
`IN_IGNORED`, the watch is restarted, and the reload returns `ret`. -/
def reloaded (ret : Int) : List Action :=
  [.create 0 false false, .call 0 (.add "a" 0 {})] ++ clientSteps 0 {} 3 ++
  workerSteps 0 { watch := some 1 } 5 ++ .call 0 .poll :: clientSteps 0 {} 2 ++
    .client 0 { event := some ⟨1, inIgnored, 0, 0⟩, watch := some 2 } :: clientSteps 0 {} 7 ++
  workerSteps 0 { ret } 4

theorem firstLoad_of_run_reloaded :
    let x := (exec trace (.initial 1, []) (reloaded 0)).get (by decide +kernel)
    let c := (x.1.clients 0).get (by decide +kernel)
    FirstLoadRule 0 x.1 c x.2 := by
  have h := (Option.some_get
    (by decide +kernel : (exec trace (.initial 1, []) (reloaded 0)).isSome)).symm
  exact firstLoad_of_run (by decide +kernel) h (Option.some_get _).symm

/-- Without a `done_func` the failed reload marks the loaded resource for deletion. -/
theorem not_firstLoad_reloaded :
    ¬ ∀ numThreads as s es m c, exec trace (.initial numThreads, []) as = some (s, es) →
      s.clients m = some c → FirstLoadRule m s c es := by
  intro hall
  have hrun : ((exec trace (.initial 1, []) (reloaded (-1))).any
      fun x => (x.1.clients 0).any fun c =>
      x.2.head? = some (.condemned 0 0) ∧ Succeeded c.rman.doneFunc 0 0 x.2.tail = true) =
        true := by
    decide +kernel
  obtain ⟨⟨s, es⟩, hx, hrun⟩ := (Option.any_eq_true _ _).1 hrun
  obtain ⟨c, hc, hrun⟩ := (Option.any_eq_true _ _).1 hrun
  obtain ⟨hhead, hsucc⟩ := of_decide_eq_true hrun
  obtain ⟨l, rfl⟩ := List.head?_eq_some_iff.1 hhead
  have hrule := hall 1 (reloaded (-1)) s _ 0 c hx hc
  exact absurd ((hrule.condemned 0 l List.suffix_rfl).symm.trans hsucc) Bool.false_ne_true

end Resman.Manager
