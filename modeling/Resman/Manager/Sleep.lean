import Resman.Manager.Completion
import Resman.Manager.Events

/-!
# Completions that are slept on

A caller of `resman_wait` sleeps while the event pipe is empty. `Awake` says that in such a state no
resource waits for its `done_func` call because of a job whose event has been written (`Reported`).
`resman_poll` empties the pipe before it scans the resources, and the argument follows the scan:
with an empty pipe, the slots that it has passed hold no reported resource (`Scanned`). The scan
passes all slots unless it stops on the timeslice, and `awake_iff` says when that does no harm.
-/

namespace Resman.Manager

open Lib FileWatch

variable {rman rman' : Rman} {pc pc' : Pc} {p q : ResPtr} {m : MgrPtr} {s s' : Sys} {a : Action}
  {es ns : List Note} {i : Nat}

/-- The worker of a job that has completed a load of the resource has written its event, and no
`done_func` call for the resource has begun since that load. -/
def Reported (m : MgrPtr) (p : ResPtr) : List Note → Bool
  | [] => false
  | .sent w :: es =>
    Uncovered (fun n => decide (n = .completed w m p)) (Note.begins m p) es || Reported m p es
  | .doneBegan m' p' :: es => !decide (m' = m ∧ p' = p) && Reported m p es
  | _ :: es => Reported m p es

/-- Other notes than those of events report nothing. -/
theorem reported_of_append (hns : ∀ n ∈ ns, n.piped = false) (h : Reported m p (ns ++ es) = true) :
    Reported m p es = true ∧ .doneBegan m p ∉ ns := by
  induction ns with
  | nil => exact ⟨h, List.not_mem_nil⟩
  | cons n ns ih =>
    obtain ⟨hn, hrest⟩ := List.forall_mem_cons.1 hns
    rw [List.cons_append] at h
    have hhead : Reported m p (ns ++ es) = true ∧ n ≠ .doneBegan m p := by
      cases n with
      | sent => cases hn
      | doneBegan m' p' =>
        rw [Reported, Bool.and_eq_true, Bool.not_eq_true', decide_eq_false_iff_not] at h
        refine ⟨h.2, fun heq => h.1 ?_⟩
        obtain ⟨rfl, rfl⟩ := Note.doneBegan.inj heq
        exact ⟨rfl, rfl⟩
      | _ => exact ⟨h, by simp⟩
    obtain ⟨hes, hnot⟩ := ih hrest hhead.1
    exact ⟨hes, fun hmem => (List.mem_cons.1 hmem).elim (fun heq => hhead.2 heq.symm) hnot⟩

/-- What has been reported is due. -/
theorem due_of_reported (h : Reported m p es = true) : Due m p es = true := by
  induction es with
  | nil => cases h
  | cons n es ih =>
    cases n with
    | sent w =>
      rw [Reported, Bool.or_eq_true] at h
      refine h.elim (fun h => ?_) ih
      have hdue : Due m p es = true := by
        refine uncovered_mono (fun n hn => ?_) h
        rw [of_decide_eq_true hn]
        simp [Note.completes]
      exact hdue
    | doneBegan m' p' =>
      rw [Reported, Bool.and_eq_true, Bool.not_eq_true', decide_eq_false_iff_not] at h
      simp only [Due, Uncovered, Note.completes, Note.begins, h.1, decide_false, Bool.not_false,
        Bool.true_and, Bool.false_or]
      exact ih h.2
    | completed w m' p' =>
      rw [Due, Uncovered, Bool.or_eq_true]
      exact .inr (ih h)
    | _ => exact ih h

/-! ## The scan -/

def Cont.passes (i : Nat) : Cont → Bool
  | done _ j => i < j
  | add | modset _ | del _ => true

/-- The done loop does not come to the slot any more. -/
def Pc.passes (i : Nat) : Pc → Bool
  | doneStart => false
  | doneScan _ j => i < j
  | doneReload _ j _ | doneCall _ j _ => i < j + 1
  | reloadTask _ k | reloadFlag _ _ k | reloadEnq _ _ k | rmStop _ _ k
  | rmCall _ _ k | rmFree _ _ k =>
    k.passes i
  | _ => true

@[simp] theorem Cont.passes_resume (k : Cont) : k.resume.passes i = k.passes i := by cases k <;> rfl

/-- The scan ends at the end of the table. -/
theorem doneScan_end {startTime j : Nat} (h : doneScan rman startTime j = some (rman', .idle)) :
    rman.res.length ≤ j := by
  unfold doneScan at h
  split at h
  · next hj => exact List.getElem?_eq_none_iff.1 hj
  · cases h
  · simp only [Option.bind_eq_bind, Option.bind_eq_some_iff] at h
    obtain ⟨r, -, h⟩ := h
    split at h
    · obtain ⟨rman₁, -, h⟩ := Option.bind_eq_some_iff.1 h
      cases h
    · split at h <;> cases h

/-- A step passes a slot where it scans it, at the end of the table, or where the scan stops. -/
theorem passes_of_localStep {o : Oracle} (hdone : rman.doneFunc = true)
    (h : localStep rman o pc = some (rman', pc')) (hpass : pc'.passes i = true) :
    pc.passes i = true ∨ (∃ t j, pc = .doneScan t j ∧ (i = j ∨ rman.res.length ≤ i)) ∨
      ∃ t j q, pc = .doneCall t j q ∧ pc' = .idle ∧ j < i := by
  cases localStep_cases h with
  | reloadTask | reloadFlag | rmStop | rmCall | doneReload => exact .inl hpass
  | @rmFree _ _ _ k => exact .inl (k.passes_resume.symm.trans hpass)
  | noDone => simp [localStep, hdone] at h
  | doneStart => cases hpass
  | @doneEnd t j =>
    have hlen := doneScan_end h
    by_cases hij : i < j
    · exact .inl (decide_eq_true hij)
    · exact .inr (.inl ⟨t, j, rfl, .inr (hlen.trans (Nat.not_lt.1 hij))⟩)
  | doneSkip | doneTake | doneLate =>
    rcases Nat.lt_succ_iff_lt_or_eq.1 (of_decide_eq_true hpass) with hlt | rfl
    · exact .inl (decide_eq_true hlt)
    · exact .inr (.inl ⟨_, _, rfl, .inl rfl⟩)
  | doneFail => exact .inl hpass
  | @doneOk _ _ q _ t j _ _ hpc =>
    rcases hpc with rfl | rfl
    · by_cases hij : i < j + 1
      · exact .inl (decide_eq_true hij)
      · exact .inr (.inr ⟨t, j, q, rfl, rfl, by omega⟩)
    · exact .inl hpass
  | _ => exact .inl rfl

/-- The slot at which the scan stops because the timeslice is spent. -/
def stopsAt (rman : Rman) (o : Oracle) : Pc → Option Nat
  | .doneCall startTime i p =>
    if (0 < rman.timeslice ∧ rman.timeslice < elapsed startTime o.now) ∧
        ¬ (o.ret = -1 ∧ (rman.heap p).any (·.numLoads = 0)) then some i else none
  | _ => none

theorem startWatch_timeslice {o : Oracle} {ok : Bool} (h : startWatch rman p o = some (rman', ok)) :
    rman'.timeslice = rman.timeslice := by
  obtain ⟨r, -, ⟨-, rfl, -⟩ | ⟨-, -, rfl, -⟩ | ⟨fd, nresmap, -, -, -, hup, -⟩⟩ := startWatch_cases h
  · rfl
  · rfl
  · obtain ⟨r₁, -, rfl⟩ := heap_of_update hup
    rfl

/-- The return of `done_func` ends `resman_poll` exactly when the timeslice is spent. -/
theorem doneReturn_idle_iff {o : Oracle} {startTime : Nat}
    (h : doneReturn rman startTime i p o = some (rman', pc')) :
    pc' = .idle ↔ stopsAt rman o (.doneCall startTime i p) = some i := by
  obtain ⟨r, hr, ⟨hret, hloads, rfl, rfl⟩ | ⟨hok, ⟨rman₁, ok, hup, hstart⟩, hpc⟩⟩ :=
    doneReturn_spec h
  · simp [stopsAt, hr, hret, hloads]
  · have htime : rman'.timeslice = rman.timeslice := by
      rw [startWatch_timeslice hstart]
      obtain ⟨r₁, -, rfl⟩ := heap_of_update hup
      rfl
    have hok' : ¬ (o.ret = -1 ∧ (rman.heap p).any (·.numLoads = 0) = true) := by
      simpa [hr] using hok
    rw [hpc, htime, stopsAt]
    by_cases hspent : 0 < rman.timeslice ∧ rman.timeslice < elapsed startTime o.now
    · simp [hspent, hok']
    · simp [hspent]

/-! ## The invariant -/

/-- In a state in which a caller of `resman_wait` would sleep, no resource waits for its `done_func`
call because of a job whose event has been written. -/
def Awake (m : MgrPtr) (x : Sys × List Note) : Prop :=
  ∀ c ∈ x.1.clients m, c.rman.doneFunc = true → c.pc = .idle → x.1.pool.pipe = 0 →
    ∀ p r, c.rman.heap p = some r → r.donePending = true → Reported m p x.2 = false

/-- While the pipe is empty, the slots that the scan has passed hold no reported resource. -/
def Scanned (m : MgrPtr) (x : Sys × List Note) : Prop :=
  ∀ c ∈ x.1.clients m, c.rman.doneFunc = true → x.1.pool.pipe = 0 →
    ∀ p r, c.rman.heap p = some r → c.pc.passes r.id = true → Reported m p x.2 = false

/-- All clients that act are that of `m`. -/
def OnlyUser (m : MgrPtr) (_ : Sys × List Note) (a : Action) : Prop := ∀ m' ∈ a.client?, m' = m

instance (m : MgrPtr) (x : Sys × List Note) (a : Action) : Decidable (OnlyUser m x a) :=
  inferInstanceAs (Decidable (∀ m' ∈ a.client?, m' = m))

/-- When the scan stops on the timeslice with an empty pipe, no later slot holds
a reported resource. -/
def StopsClean (m : MgrPtr) (x : Sys × List Note) : Action → Prop
  | .client _ o => ∀ c ∈ x.1.clients m, c.rman.doneFunc = true → ∀ i ∈ stopsAt c.rman o c.pc,
      x.1.pool.pipe = 0 → ∀ j < c.rman.res.length, i < j → ∀ q ∈ c.rman.res[j]?.join,
        Reported m q x.2 = false
  | .create .. | .call .. | .worker .. => True

instance (m : MgrPtr) (x : Sys × List Note) : ∀ a, Decidable (StopsClean m x a)
  | .client _ o => inferInstanceAs (Decidable (∀ c ∈ x.1.clients m, c.rman.doneFunc = true →
      ∀ i ∈ stopsAt c.rman o c.pc, x.1.pool.pipe = 0 → ∀ j < c.rman.res.length, i < j →
        ∀ q ∈ c.rman.res[j]?.join, Reported m q x.2 = false))
  | .create .. | .call .. | .worker .. => isTrue trivial

theorem Scanned.awake {x : Sys × List Note} (h : Scanned m x) : Awake m x :=
  fun c hc hdone hpc hpipe p r hr _ => h c hc hdone hpipe p r hr (by rw [hpc]; rfl)

/-- A resource was there before with the same id, unless it has been added. -/
theorem keeps_id {c c' : Client} (hv : NoteStep m a c c' ns) :
    KeepsField Resource.id c.rman c'.rman ∨
      ∃ fname data, c'.rman = appendResource c.rman fname data := by
  cases hv with
  | frame | pool => exact .inl (.refl _)
  | call hs =>
    refine (callStep_keeps hs fun _ _ => rfl).imp_right ?_
    rintro ⟨fname, data, -, -, -, rfl, -⟩
    exact ⟨fname, data, rfl⟩
  | client hs =>
    exact .inl (localStep_keeps ⟨fun _ _ => rfl, fun _ _ => rfl⟩ hs (.inl fun _ _ => rfl)
      (.inl fun _ _ => rfl) (.inl fun _ _ => rfl))
  | taken => exact .inl (.of_heap_eq rfl)
  | returned hup => exact .inl (.of_update hup fun _ => rfl)
  | completed _ hwork =>
    exact .inl (workDone_keeps (fun _ _ => rfl) (fun _ _ => rfl) (fun _ _ => rfl)
      (fun _ _ => rfl) hwork)

/-- What is known of the manager and the history in every run. -/
def Known (m : MgrPtr) (x : Sys × List Note) : Prop :=
  ∀ c, x.1.clients m = some c → Past m c x.2 ∧ (c.rman.doneFunc = true → FlagDue m c x.2)

theorem known_of_run {numThreads : Nat} {as : List Action} {x : Sys × List Note}
    (h : exec trace (.initial numThreads, []) as = some x) : Known m x := by
  intro c hc
  refine (history_invariant (m := m) (C := fun _ _ => True)
    (I := fun m c es => c.rman.doneFunc = true → FlagDue m c es)
    (fun m d f es hes _ p r hr => (by cases hr)) ?_ (along_true _ as) h).1 c hc
  intro m s a s' c c' es ns _ _ _ hp hI hv hdone'
  rw [hv.fields.1] at hdone'
  exact (hI hdone').step hp hdone' hv

/-- A step of the client that passes the slot of a resource finds it reported only if the scan stops
there. -/
theorem passes_of_client {o : Oracle} (hp : Past m ⟨rman, pc⟩ es)
    (hflag : FlagDue m ⟨rman, pc⟩ es) (hc : s.clients m = some ⟨rman, pc⟩)
    (hC : StopsClean m (s, es) (.client m o)) (hpipe : s.pool.pipe = 0)
    (hdone : rman.doneFunc = true) (hs : localStep rman o pc = some (rman', pc')) {r : Resource}
    (hr : rman.heap p = some r) (hrep : Reported m p es = true)
    (hbegan : .doneBegan m p ∉ clientNotes m o pc pc') (hpass : pc'.passes r.id = true) :
    pc.passes r.id = true := by
  obtain ⟨-, hslot⟩ := hp.indexed.table.live p r hr
  have hslot : rman.res[r.id]? = some (some p) := hslot
  have hlt := (List.getElem?_eq_some_iff.1 hslot).1
  rcases passes_of_localStep hdone hs hpass with
    h | ⟨t, j, rfl, rfl | hlen⟩ | ⟨t, j, q, rfl, rfl, hj⟩
  · exact h
  · have hdue : r.donePending = true := (hflag p r hr).trans (due_of_reported hrep)
    obtain ⟨rman₁, hscan⟩ := doneScan_due t hslot hr hdue
    obtain ⟨-, rfl⟩ := Prod.mk.inj (Option.some.inj (hscan.symm.trans hs))
    exact absurd List.mem_cons_self hbegan
  · omega
  · have hstop := (doneReturn_idle_iff hs).1 rfl
    have hclean := hC _ hc hdone j hstop hpipe r.id hlt hj p (by simp [hslot])
    exact absurd (hclean.symm.trans hrep) Bool.false_ne_true

theorem Scanned.step (hk : Known m (s, es)) (hone : OnlyUser m (s, es) a)
    (hC : StopsClean m (s, es) a) (h : Scanned m (s, es)) (hs : step s a = some s') :
    Scanned m (s', notes s a s' ++ es) := by
  intro c' hc' hdone' hpipe' p r' hr' hpass'
  by_contra hrep
  rw [Bool.not_eq_false] at hrep
  cases hc : s.clients m with
  | none =>
    obtain ⟨d, f, rfl⟩ := (step_notes_absent hs hc).2 c' hc'
    cases hr'
  | some c =>
    obtain ⟨hp, hflag⟩ := hk c hc
    obtain ⟨c₁, hc₁, hv⟩ := step_notes hs hc
    obtain rfl : c₁ = c' := Option.some.inj (hc₁.symm.trans hc')
    have hdone : c.rman.doneFunc = true := hv.fields.1 ▸ hdone'
    have hps := step_pipe hs
    generalize notes s a s' = ns at hv hps hrep
    cases hps with
    | sent _ _ hpipe => exact absurd (hpipe.symm.trans hpipe') (Nat.succ_ne_zero _)
    | drained hc₂ hpc hcl =>
      obtain rfl := hone _ rfl
      rw [hcl, Function.update_self] at hc₁
      obtain rfl := Option.some.inj hc₁
      cases hpass'
    | quiet hpipe hns =>
      have hpipe₀ : s.pool.pipe = 0 := hpipe.symm.trans hpipe'
      obtain ⟨hes, hbegan⟩ := reported_of_append hns hrep
      obtain ⟨r, hr, hid⟩ : ∃ r, c.rman.heap p = some r ∧ r'.id = r.id := by
        rcases keeps_id hv with hkeep | ⟨fname, data, happ⟩
        · exact hkeep p r' hr'
        · rw [happ] at hr'
          rcases mem_heap_append.1 hr' with ⟨rfl, -⟩ | ⟨-, hr'⟩
          · have hnot : Due m c.rman.nalloc es = false := due_of_unnoted fun n hn hm q hq heq =>
              Nat.lt_irrefl _ (heq ▸ hp.noted n hn hm q hq)
            exact absurd (hnot.symm.trans (due_of_reported hes)) Bool.false_ne_true
          · exact ⟨r', hr', rfl⟩
      rw [hid] at hpass'
      have hpass : c.pc.passes r.id = true := by
        cases hv with
        | frame | taken | returned | completed => exact hpass'
        | call => rfl
        | client hs' =>
          exact passes_of_client hp (hflag hdone) hc hC hpipe₀ hdone hs' hr hes hbegan hpass'
        | pool hs' =>
          cases poolStep_cases hs' with
          | @enqueue _ _ k | @lost _ _ k => exact k.passes_resume.symm.trans hpass'
          | drain => cases hpass'
          | release | clear | quit | join => rfl
      exact absurd ((h c hc hdone hpipe₀ p r hr hpass).symm.trans hes) Bool.false_ne_true

/-- A scan that stops before a reported resource, with an empty pipe, leaves it to be slept on. -/
theorem not_awake_of_stop (hk : Known m (s, es)) (hone : OnlyUser m (s, es) a)
    (hC : ¬ StopsClean m (s, es) a) (hs : step s a = some s') :
    ¬ Awake m (s', notes s a s' ++ es) := by
  intro hawake
  cases a with
  | create | call | worker => exact hC trivial
  | client m' o =>
    obtain rfl : m' = m := hone m' rfl
    refine hC fun c hc hdone i hi hpipe j _ _ q hq => ?_
    obtain ⟨rman, pc⟩ := c
    have hc : s.clients m' = some ⟨rman, pc⟩ := hc
    have hdone : rman.doneFunc = true := hdone
    obtain ⟨hp, hflag⟩ := hk _ hc
    cases pc with
    | doneCall t i' p =>
      obtain rfl : i = i' := by
        simp only [stopsAt] at hi
        split at hi
        · exact (Option.some.inj hi).symm
        · cases hi
      rcases client_step_cases hs rfl with ⟨_, _, heq, -⟩ | ⟨_, _, _, _, heq, -⟩ |
        ⟨o', c₁, heq, hc₁, ⟨rman', pc', hs', rfl⟩ | ⟨_, _, hpool, -⟩⟩
      · cases heq
      · cases heq
      · obtain ⟨-, rfl⟩ := Action.client.inj heq
        obtain rfl : ⟨rman, .doneCall t i p⟩ = c₁ := Option.some.inj (hc.symm.trans hc₁)
        obtain rfl := (doneReturn_idle_iff hs').2 hi
        have hslot : rman.res[j]? = some (some q) := Option.join_eq_some_iff.1 hq
        obtain ⟨r, hr, -⟩ := hp.indexed.table.slot j q (Nat.zero_le _) hslot
        by_contra hrep
        rw [Bool.not_eq_false] at hrep
        have hdue : r.donePending = true := (hflag hdone q r hr).trans (due_of_reported hrep)
        obtain ⟨-, -, ⟨-, -, -, hpc⟩ | ⟨-, ⟨rman₁, ok, hup, hstart⟩, -⟩⟩ := doneReturn_spec hs'
        · cases hpc
        · have hmap := map_heap_of_update (g := Resource.donePending) hup (fun _ => rfl) q
          obtain ⟨r₁, hr₁, heq₁⟩ := Option.map_eq_some_iff.1 (hmap.trans (congrArg _ hr))
          obtain ⟨r', hr', heq⟩ := (startWatch_quiet hstart).heap_kept hr₁
          have hdue' : r'.donePending = true :=
            (congrArg Core.donePending heq).trans (heq₁.trans hdue)
          have hrep' := hawake ⟨rman', .idle⟩ (Function.update_self ..)
            ((localStep_fields hs').1.trans hdone) rfl hpipe q r' hr' hdue'
          simp only [notes, hc, Function.update_self, clientNotes] at hrep'
          exact absurd (hrep'.symm.trans hrep) Bool.false_ne_true
      · obtain rfl : ⟨rman, .doneCall t i p⟩ = c₁ := Option.some.inj (hc.symm.trans hc₁)
        cases hpool
    | _ => cases hi

/-! ## Runs -/

/-- **No pending completion is slept on**, in the runs of a manager that uses the pool alone,
and only in the runs, in which the scan never stops on the timeslice before a reported
resource while the pipe is empty. -/
theorem awake_iff {numThreads : Nat} {as : List Action}
    (hone : Along trace (OnlyUser m) (.initial numThreads, []) as)
    (h : exec trace (.initial numThreads, []) as = some (s, es)) :
    (∀ pre x, pre <+: as → exec trace (.initial numThreads, []) pre = some x → Awake m x) ↔
      Along trace (StopsClean m) (.initial numThreads, []) as := by
  refine forall_prefix_iff_along
    (I := fun x => (∃ as, exec trace (.initial numThreads, []) as = some x) ∧ Scanned m x)
    (fun x hx => hx.2.awake) ?_ ?_ ⟨⟨[], rfl⟩, fun c hc => by cases hc⟩ hone h
  · rintro ⟨s, es⟩ a ⟨s', es'⟩ ⟨⟨as, has⟩, hI⟩ hD hC hs
    obtain ⟨hs', rfl⟩ := record_eq_some.1 hs
    exact ⟨⟨as ++ [a], exec_snoc.2 ⟨_, has, hs⟩⟩, hI.step (known_of_run has) hD hC hs'⟩
  · rintro ⟨s, es⟩ a ⟨s', es'⟩ ⟨⟨as, has⟩, -⟩ hD hC hs
    obtain ⟨hs', rfl⟩ := record_eq_some.1 hs
    exact not_awake_of_stop (known_of_run has) hD hC hs'

/-- Two files are loaded, and the `done_func` call for the first one lasts until `now`. -/
def slowCallback (now : Nat) : List Action :=
  [.create 0 true false, .call 0 (.add "a" 0 {})] ++ clientSteps 0 {} 3 ++ workerSteps 0 {} 5 ++
  .call 0 (.add "b" 0 {}) :: clientSteps 0 {} 3 ++ workerSteps 0 {} 5 ++
  .call 0 .poll :: clientSteps 0 {} 8 ++ [.client 0 { now }]

theorem awake_iff_slowCallback :
    Along trace (StopsClean 0) (.initial 1, []) (slowCallback 10) ∧
      ∀ pre x, pre <+: slowCallback 10 → exec trace (.initial 1, []) pre = some x → Awake 0 x := by
  have hC : Along trace (StopsClean 0) (.initial 1, []) (slowCallback 10) := by decide +kernel
  have h := (Option.some_get
    (by decide +kernel : (exec trace (.initial 1, []) (slowCallback 10)).isSome)).symm
  exact ⟨hC, (awake_iff (by decide +kernel) h).2 hC⟩

/-- The timeslice is spent on the first file, and the second one is slept on. -/
theorem not_awake_slowCallback :
    ¬ ∀ numThreads as s es m, Along trace (OnlyUser m) (.initial numThreads, []) as →
      exec trace (.initial numThreads, []) as = some (s, es) → Awake m (s, es) := by
  intro hall
  have hrun : ((exec trace (.initial 1, []) (slowCallback 100)).any fun x =>
      (x.1.clients 0).any fun c => (c.rman.doneFunc = true ∧ c.pc = .idle ∧ x.1.pool.pipe = 0) ∧
        Reported 0 1 x.2 = true ∧ (c.rman.heap 1).any fun r => r.donePending) = true := by
    decide +kernel
  obtain ⟨x, hx, hrun⟩ := (Option.any_eq_true _ _).1 hrun
  obtain ⟨c, hc, hrun⟩ := (Option.any_eq_true _ _).1 hrun
  obtain ⟨⟨hdone, hpc, hpipe⟩, hrep, hany⟩ := of_decide_eq_true hrun
  obtain ⟨r, hr, hdue⟩ := (Option.any_eq_true _ _).1 hany
  have hawake := hall 1 (slowCallback 100) x.1 x.2 0 (by decide +kernel) hx
  exact absurd ((hawake c hc hdone hpc hpipe 1 r hr hdue).symm.trans hrep) Bool.false_ne_true

end Resman.Manager
