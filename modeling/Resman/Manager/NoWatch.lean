import Resman.Manager.Batches
import Resman.Manager.Delayed
import Resman.Manager.Life
import Resman.Manager.Removal

/-!
# The build without a file monitor

With `NOWATCH` the functions of `filewatch_dummy.c` take the place of the file monitor: no watch is
started, and `resman_check_watch` does nothing. `NoWatch.step` is the system of managers, workers
and pool in that build. `NoWatch.refines` says that such a build does what the build with inotify
does when the kernel reports nothing, so what is known of that one holds: `NoWatch.orderly_of_run`
concludes that without a file monitor removal is safe, loads of a resource exclude each other, and
there is one load job for a resource at most.

The steps are those of the other build: sections that hold a lock are single steps, and `workDone`
is one. That removal is safe means between these steps. What `resman_poll` may do inside of
`workDone`, where it can find `pending` cleared and remove the resource before the worker has
unlocked it, is not among the runs.
-/

namespace Resman.Manager

open Lib Rb FileWatch

namespace NoWatch

/-! ## The dummy file monitor -/

/-- `resman_start_watch`, which returns `0`. -/
def startWatch (rman : Rman) (_p : ResPtr) : Rman × Bool := (rman, true)

/-- `resman_stop_watch` -/
def stopWatch (rman : Rman) (_p : ResPtr) : Rman := rman

/-- `resman_check_watch` -/
def checkWatch (rman : Rman) : Rman := rman

/-! ## The functions that call it -/

/-- `done_func` returns, and the iteration goes on to its end. -/
def doneReturn (rman : Rman) (startTime i : Nat) (p : ResPtr) (o : Oracle) :
    Option (Rman × Pc) := do
  let r ← rman.heap p
  if o.ret = -1 ∧ r.numLoads = 0 then return (rman, .rmStop i p (.done startTime (i + 1)))
  let rman ← rman.update p fun r => { r with numLoads := r.numLoads + 1 }
  let (rman, _) := startWatch rman p
  if 0 < rman.timeslice ∧ rman.timeslice < elapsed startTime o.now then return (rman, .idle)
  return (rman, .doneScan startTime (i + 1))

/-- The section of `work_func` after `load_func` has returned. -/
def workDone (rman : Rman) (p : ResPtr) : Option Rman := do
  let rman ← rman.update p fun r => { r with pending := false }
  let r ← rman.heap p
  if rman.doneFunc then rman.update p fun r => { r with donePending := true }
  else if r.result = -1 then
    if r.numLoads = 0 then rman.update p fun r => { r with deletePending := true } else return rman
  else return (startWatch rman p).1

/-- The step of a client that does not touch the pool. -/
def localStep (rman : Rman) (o : Oracle) : Pc → Option (Rman × Pc)
  | .watch _ => some (checkWatch rman, .drain)
  | .modset _ => none
  | .rmStop i p k => some (stopWatch rman p, .rmCall i p k)
  | .doneCall startTime i p => doneReturn rman startTime i p o
  | pc => Manager.localStep rman o pc

def workerStep (s : Sys) (w : Nat) (o : Oracle) : Option Sys :=
  match s.pool.workers[w]? with
  | some (.loaded j) => do
    let c ← s.clients j.rman
    let c ← lockedSection c j.res fun rman => workDone rman j.res
    return ⟨Function.update s.clients j.rman (some c), s.pool.setWorker w .finishing⟩
  | _ => Manager.workerStep s w o

def step (s : Sys) : Action → Option Sys
  | .client m o => do
    let c ← s.clients m
    match localStep c.rman o c.pc with
    | some (rman, pc) => return { s with clients := Function.update s.clients m (some ⟨rman, pc⟩) }
    | none =>
      let (pool, pc) ← poolStep m s.pool o c.pc
      return ⟨Function.update s.clients m (some { c with pc }), pool⟩
  | .worker w o => workerStep s w o
  | a => Manager.step s a

end NoWatch

/-! ## A kernel that reports nothing -/

/-- The same answers, except that no watch can be started and no event is there to read. -/
def Oracle.silence (o : Oracle) : Oracle := { o with watch := none, event := none }

def Action.silence : Action → Action
  | client m o => .client m o.silence
  | worker w o => .worker w o.silence
  | create m d f => .create m d f
  | call m f => .call m f

def Action.Silent : Action → Prop
  | client _ o | worker _ o => o.watch = none ∧ o.event = none
  | create _ _ _ | call _ _ => True

theorem Action.silent_silence (a : Action) : a.silence.Silent := by
  cases a with
  | create | call => trivial
  | client | worker => exact ⟨rfl, rfl⟩

/-- A reload that goes on there is not one of the file monitor. -/
def Cont.unmonitored : Cont → Bool
  | modset _ => false
  | add | del _ | done _ _ => true

/-- The client is in no reload for the file monitor. -/
def Pc.unmonitored : Pc → Bool
  | modset (_ :: _) | doneReload _ _ _ => false
  | reloadTask _ k | reloadFlag _ _ k | reloadEnq _ _ k => k = .add
  | rmStop _ _ k | rmCall _ _ k | rmFree _ _ k => k.unmonitored
  | _ => true

/-- No file is watched, and no reload is due or to be due. -/
structure Unmonitored (c : Client) : Prop where
  set : c.rman.modset.root = .null
  unwatched : ∀ p, ∀ r ∈ c.rman.heap p, r.nfd = 0 ∧ r.reloadTimeout = 0
  pc : c.pc.unmonitored = true

section Silence

variable {rman rman₁ rman' : Rman} {pc pc' : Pc} {p : ResPtr} {o : Oracle} {m : MgrPtr} {a : Action}
  {c c' : Client} {ns : List Note} {s s' : Sys} {w : Nat}

theorem Cont.unmonitored_resume {k : Cont} (h : k.unmonitored = true) :
    k.resume.unmonitored = true := by
  cases k with
  | modset => cases h
  | add | del | done => rfl

theorem Unmonitored.init (d f : Bool) : Unmonitored ⟨.init d f, .idle⟩ where
  set := rfl
  unwatched p r hr := by cases hr
  pc := rfl

/-- The resources of the later state were there before, with the same fields of the file monitor. -/
theorem Unmonitored.keeps (h : Unmonitored ⟨rman, pc⟩)
    (hk : KeepsField (fun r => (r.nfd, r.reloadTimeout)) rman rman')
    (hset : rman'.modset = rman.modset) (hpc : pc'.unmonitored = true) :
    Unmonitored ⟨rman', pc'⟩ where
  set := (congrArg RbTree.root hset).trans h.set
  unwatched q r' hr' := by
    obtain ⟨r, hr, heq⟩ := hk q r' hr'
    obtain ⟨hnfd, htime⟩ := Prod.mk.inj heq
    obtain ⟨hzero, hnever⟩ := h.unwatched q r hr
    exact ⟨hnfd.trans hzero, htime.trans hnever⟩
  pc := hpc

theorem Unmonitored.change {pc₀ : Pc} (h : Unmonitored ⟨rman, pc⟩) (hc : Change rman o pc₀ rman')
    (ho : o.watch = none) (hpc₀ : ∀ t i p, pc₀ ≠ .doneReload t i p) (hpc : pc'.unmonitored = true) :
    Unmonitored ⟨rman', pc'⟩ :=
  h.keeps (hc.keeps (fun _ _ hnfd htime => Prod.ext hnfd htime) hpc₀ (.inl ho)) hc.modset hpc

theorem modifiedKeys_of_null (h : rman.modset.root = .null) : modifiedKeys rman = [] := by
  rw [modifiedKeys, rbForeach, h]
  rfl

theorem Unmonitored.client (h : Unmonitored ⟨rman, pc⟩) (ho : o.watch = none ∧ o.event = none)
    (hs : Manager.localStep rman o pc = some (rman', pc')) : Unmonitored ⟨rman', pc'⟩ := by
  by_cases hwatch : ∃ msec, pc = .watch msec
  · obtain ⟨msec, rfl⟩ := hwatch
    simp only [Manager.localStep, ho.2] at hs
    obtain ⟨rfl, rfl⟩ := Prod.mk.inj (Option.some.inj hs)
    refine h.keeps (.refl _) rfl ?_
    rw [modifiedKeys_of_null h.set]
    rfl
  by_cases hmodset : pc = .modset []
  · subst hmodset
    obtain ⟨rfl, rfl⟩ := Prod.mk.inj (Option.some.inj hs)
    exact ⟨rfl, h.unwatched, rfl⟩
  have hreload : ∀ t i p, pc ≠ .doneReload t i p := by
    rintro t i p rfl
    cases h.pc
  refine h.change (localStep_change (fun msec heq => hwatch ⟨msec, heq⟩) hmodset hs) ho.1 hreload ?_
  have hpc := h.pc
  cases localStep_cases hs with
  | reloadTask | reloadFlag => exact hpc
  | rmStop | rmCall => exact hpc
  | rmFree => exact Cont.unmonitored_resume hpc
  | modsetSkip | modsetReload => cases hpc
  | doneLate =>
    obtain ⟨-, r, hr, hne, -⟩ := localStep_late hs
    exact absurd (h.unwatched _ r hr).2 hne
  | doneReload => cases hpc
  | doneOk _ _ hk =>
    rcases hk with rfl | rfl
    · rfl
    · rfl
  | event | watchEnd => exact absurd ⟨_, rfl⟩ hwatch
  | modsetEnd => exact absurd rfl hmodset
  | _ => rfl

/-- **Nothing is ever monitored** when the kernel reports nothing. -/
theorem Unmonitored.step (h : Unmonitored c) (ha : a.Silent) (hv : NoteStep m a c c' ns) :
    Unmonitored c' := by
  cases hv with
  | frame => exact h
  | call hs =>
    cases callStep_cases hs with
    | setopt => exact h.keeps (.of_heap_eq rfl) rfl rfl
    | stay => exact h
    | poll | destroy => exact h.keeps (.refl _) rfl rfl
    | added =>
      refine ⟨h.set, fun q r hr => ?_, rfl⟩
      rcases mem_heap_append.1 hr with ⟨-, rfl⟩ | ⟨-, hr⟩
      · exact ⟨rfl, rfl⟩
      · exact h.unwatched q r hr
    | remove _ hup => exact h.keeps (.of_update hup fun _ => rfl) (update_modset hup) rfl
  | client hs => exact h.client ha hs
  | pool hs =>
    refine h.keeps (.refl _) rfl ?_
    have hpc := h.pc
    cases poolStep_cases hs with
    | enqueue | lost =>
      obtain rfl := of_decide_eq_true hpc
      rfl
    | release hk => rcases hk with rfl | rfl <;> rfl
    | drain | clear | quit | join => rfl
  | taken => exact h.keeps (.of_heap_eq rfl) rfl h.pc
  | returned hup => exact h.keeps (.of_update hup fun _ => rfl) (update_modset hup) h.pc
  | completed _ hdone =>
    have hchange : Change _ _ .idle _ := workDone_change hdone
    exact h.change hchange ha.1 nofun h.pc

/-! ## The build without a monitor refines the one with inotify -/

theorem startWatch_silence {r : Resource} (hr : rman.heap p = some r) (hnfd : r.nfd = 0) :
    startWatch rman p o.silence = some (rman, false) := by
  simp only [startWatch, hr, Option.bind_eq_bind, Option.bind_some, hnfd]
  rw [if_neg (by decide)]
  rfl

theorem stopWatch_unwatched {r : Resource} (hr : rman.heap p = some r) (hnfd : r.nfd = 0) :
    stopWatch rman p = some rman := by
  simp only [stopWatch, hr, Option.bind_eq_bind, Option.bind_some, hnfd]
  rw [if_neg (by decide)]
  rfl

/-- A resource after a write that is none of the file monitor. -/
theorem unwatched_of_update {f : Resource → Resource} (hup : rman.update p f = some rman₁)
    (hf : ∀ r, (f r).nfd = r.nfd) (h : ∀ r ∈ rman.heap p, r.nfd = 0) :
    ∃ r, rman₁.heap p = some r ∧ r.nfd = 0 := by
  obtain ⟨r, hr, rfl⟩ := heap_of_update hup
  exact ⟨f r, Function.update_self .., (hf r).trans (h r hr)⟩

theorem doneReturn_silence (h : ∀ r ∈ rman.heap p, r.nfd = 0) (startTime i : Nat) :
    doneReturn rman startTime i p o.silence = NoWatch.doneReturn rman startTime i p o := by
  unfold doneReturn NoWatch.doneReturn
  cases hr : rman.heap p with
  | none => rfl
  | some r =>
    cases hup : rman.update p fun r => { r with numLoads := r.numLoads + 1 } with
    | none => rfl
    | some rman₁ =>
      obtain ⟨r₁, hr₁, hnfd⟩ := unwatched_of_update hup (fun _ => rfl) h
      simp only [Option.bind_eq_bind, Option.bind_some, startWatch_silence hr₁ hnfd]
      rfl

theorem workDone_silence (h : ∀ r ∈ rman.heap p, r.nfd = 0) :
    workDone rman p o.silence = NoWatch.workDone rman p := by
  unfold workDone NoWatch.workDone
  cases hup : rman.update p fun r => { r with pending := false } with
  | none => rfl
  | some rman₁ =>
    obtain ⟨r₁, hr₁, hnfd⟩ := unwatched_of_update hup (fun _ => rfl) h
    simp only [Option.bind_eq_bind, Option.bind_some, startWatch_silence hr₁ hnfd]
    rfl

/-- Outside of `resman_check_watch` a client takes the same steps. -/
theorem localStep_silence (h : Unmonitored ⟨rman, pc⟩) (hi : Indexed ⟨rman, pc⟩)
    (hwatch : ∀ msec, pc ≠ .watch msec) (hmodset : ∀ wds, pc ≠ .modset wds) :
    localStep rman o.silence pc = NoWatch.localStep rman o pc := by
  cases pc with
  | watch msec => exact absurd rfl (hwatch msec)
  | modset wds => exact absurd rfl (hmodset wds)
  | rmStop i q k =>
    obtain ⟨r, hr, -⟩ := hi.table.slot i q (Nat.zero_le _) (hi.here i q rfl)
    simp only [localStep, stopWatch_unwatched hr (h.unwatched q r hr).1]
    rfl
  | doneCall t i q => exact doneReturn_silence (fun r hr => (h.unwatched q r hr).1) t i
  | _ => rfl

theorem workerStep_silence (h : ∀ m c, s.clients m = some c → Unmonitored c) :
    workerStep s w o.silence = NoWatch.workerStep s w o := by
  unfold workerStep NoWatch.workerStep
  cases hw : s.pool.workers[w]? with
  | none =>
    simp only [workerStep, hw]
    rfl
  | some wk =>
    cases wk with
    | loaded j =>
      cases hc : s.clients j.rman with
      | none => simp only [Option.bind_eq_bind, Option.bind_some, Option.bind_none, hc]
      | some c =>
        have hdone : (fun rman => workDone rman j.res o.silence) c.rman =
            NoWatch.workDone c.rman j.res :=
          workDone_silence fun r hr => ((h _ c hc).unwatched j.res r hr).1
        simp only [Option.bind_eq_bind, Option.bind_some, hc, workStep, lockedSection, hdone]
        split
        · rfl
        · cases NoWatch.workDone c.rman j.res <;> rfl
    | _ =>
      simp only [workerStep, hw]
      rfl

/-- What is written down does not depend on what the kernel reports. -/
theorem notes_silence : notes s a.silence s' = notes s a s' := by
  cases a with
  | create | call => rfl
  | worker => rfl
  | client m o =>
    simp only [notes, Action.silence]
    cases s.clients m with
    | none => rfl
    | some c =>
      cases s'.clients m with
      | none => rfl
      | some c' =>
        obtain ⟨rman, pc⟩ := c
        cases pc <;> rfl

/-- One step is one step, or two in `resman_check_watch`. -/
theorem step_silence {es : List Note} (h : ∀ m c, s.clients m = some c → Unmonitored c ∧ Indexed c)
    (hs : NoWatch.step s a = some s') :
    ∃ bs, (∀ b ∈ bs, b.Silent) ∧ exec trace (s, es) bs = some (s', notes s a s' ++ es) := by
  have hone : step s a.silence = some s' →
      ∃ bs, (∀ b ∈ bs, b.Silent) ∧ exec trace (s, es) bs = some (s', notes s a s' ++ es) := by
    intro hs
    refine ⟨[a.silence], List.forall_mem_singleton.2 a.silent_silence, ?_⟩
    rw [← notes_silence]
    exact exec_cons_eq_some.2 ⟨_, record_eq_some.2 ⟨hs, rfl⟩, rfl⟩
  cases a with
  | create | call => exact hone hs
  | worker w o =>
    apply hone
    rw [← hs]
    exact workerStep_silence fun m c hc => (h m c hc).1
  | client m o =>
    simp only [NoWatch.step, Option.bind_eq_bind, Option.bind_eq_some_iff] at hs
    obtain ⟨⟨rman, pc⟩, hc, hs⟩ := hs
    obtain ⟨hU, hi⟩ := h m _ hc
    by_cases hwatch : ∃ msec, pc = .watch msec
    · obtain ⟨msec, rfl⟩ := hwatch
      obtain rfl := Option.some.inj hs
      -- the loop over the events ends at once, and that over the modified set too
      have hfirst : step s (.client m o.silence) =
          some { s with clients := Function.update s.clients m (some ⟨rman, .modset []⟩) } := by
        simp only [step, hc, Option.bind_eq_bind, Option.bind_some, localStep, Oracle.silence,
          modifiedKeys_of_null hU.set]
        rfl
      have hclear : { rman with modset := rbClear rman.modset } = rman := by
        rw [rbClear, ← hU.set]
      have hsecond :
          step { s with clients := Function.update s.clients m (some ⟨rman, .modset []⟩) }
            (.client m o.silence) =
          some { s with clients := Function.update s.clients m (some ⟨rman, .drain⟩) } := by
        simp only [step, Function.update_self, Option.bind_eq_bind, Option.bind_some,
          localStep, hclear, Function.update_idem]
        rfl
      refine ⟨[.client m o.silence, .client m o.silence], ?_, ?_⟩
      · simp [Action.Silent, Oracle.silence]
      · refine exec_cons_eq_some.2 ⟨_, record_eq_some.2 ⟨hfirst, rfl⟩,
          exec_cons_eq_some.2 ⟨_, record_eq_some.2 ⟨hsecond, rfl⟩, ?_⟩⟩
        simp only [exec, notes, hc, Function.update_self]
        rfl
    · apply hone
      have hmodset : ∀ wds, pc ≠ .modset wds := by
        rintro wds rfl
        cases hs
      rw [← hs]
      simp only [step, Action.silence, hc, Option.bind_eq_bind, Option.bind_some,
        localStep_silence hU hi (fun msec heq => hwatch ⟨msec, heq⟩) hmodset]
      rfl

end Silence

section Runs

variable {numThreads : Nat} {as : List Action} {x : Sys × List Note} {s s' : Sys}
  {m : MgrPtr} {a : Action}

/-- In a silent run nothing is monitored. -/
theorem unmonitored_of_run (ha : ∀ a ∈ as, a.Silent)
    (h : exec step (.initial numThreads) as = some s) :
    ∀ m c, s.clients m = some c → Unmonitored c := by
  refine exec_invariant (C := fun _ a => a.Silent)
    (I := fun s : Sys => ∀ m c, s.clients m = some c → Unmonitored c) (fun m c hc => (by cases hc))
    ?_ (along_of_forall_mem fun a hmem _ => ha a hmem) h
  intro s a s' hI hsilent hs m c' hc'
  cases hc : s.clients m with
  | none =>
    obtain ⟨d, f, rfl⟩ := (step_notes_absent hs hc).2 c' hc'
    exact .init d f
  | some c =>
    obtain ⟨c₁, hc₁, hv⟩ := step_notes hs hc
    obtain rfl := Option.some.inj (hc₁.symm.trans hc')
    exact (hI m c hc).step hsilent hv

/-- A run of the build without a file monitor, as a run of the other. -/
theorem NoWatch.exists_silent
    (h : exec (record NoWatch.step notes) (.initial numThreads, []) as = some x) :
    ∃ bs, (∀ b ∈ bs, b.Silent) ∧ exec trace (.initial numThreads, []) bs = some x := by
  refine exec_snoc_induction (C := fun _ _ => True)
    (P := fun _ x => ∃ bs, (∀ b ∈ bs, b.Silent) ∧ exec trace (.initial numThreads, []) bs = some x)
    ⟨[], nofun, rfl⟩ ?_ (along_true _ _) h
  rintro as ⟨s, es⟩ a ⟨s', es'⟩ - ⟨bs, hbs, hrun⟩ - hs
  obtain ⟨hs', rfl⟩ := record_eq_some.1 hs
  have hrun' := exec_record hrun
  obtain ⟨bs', hbs', hrun₂⟩ := step_silence
    (fun m c hc => ⟨unmonitored_of_run hbs hrun' m c hc, indexed_of_run hrun' hc⟩) hs'
  refine ⟨bs ++ bs', ?_, ?_⟩
  · intro b hb
    exact (List.mem_append.1 hb).elim (hbs b) (hbs' b)
  · rw [exec_append, hrun]
    exact hrun₂

/-- **The build without a file monitor refines the one with inotify**: a run of it, with its
history, is one of the other in which no watch can be started and no event is read. -/
theorem NoWatch.refines
    (h : exec (record NoWatch.step notes) (.initial numThreads, []) as = some x) :
    ∃ bs, (∀ b ∈ bs, b.Silent) ∧ exec trace (.initial numThreads, []) bs = some x :=
  NoWatch.exists_silent h

end Runs

/-! ## What follows -/

/-- The resource that the client is about to load has no job, and has not been loaded. -/
def New (c : Client) (n : ResPtr → Nat) : Prop :=
  ∀ p k, (c.pc = .reloadTask p k ∨ ∃ t, c.pc = .reloadFlag p t k) →
    n p = 0 ∧ ∀ r ∈ c.rman.heap p, r.pending = false ∧ r.donePending = false

section Orderly

variable {rman rman' : Rman} {pc pc' : Pc} {n n' : ResPtr → Nat} {p : ResPtr}
  {m : MgrPtr} {a : Action} {c c' : Client}

/-- Only `add_resource` begins a load. -/
theorem New.of_reload (h : pc.reload? = none) : New ⟨rman, pc⟩ n := by
  rintro p k (rfl | ⟨t, rfl⟩)
  · cases h
  · cases h

theorem New.keeps (h : New ⟨rman, pc⟩ n) (hn : ∀ p, n' p ≤ n p)
    (hk : ∀ p, n p = 0 → ∀ r' ∈ rman'.heap p, ∃ r ∈ rman.heap p, r'.pending = r.pending ∧
      r'.donePending = r.donePending) : New ⟨rman', pc⟩ n' := by
  intro p k hpc
  obtain ⟨hzero, hflags⟩ := h p k hpc
  refine ⟨Nat.le_zero.1 (hzero ▸ hn p), fun r' hr' => ?_⟩
  obtain ⟨r, hr, hpend, hdone⟩ := hk p hzero r' hr'
  rw [hpend, hdone]
  exact hflags r hr

theorem New.step (h : New c n) (he : Exclusive c n) (hU : ∀ o, a = .client m o → Unmonitored c)
    (hv : ViewStep m a c n c' n') : New c' n' := by
  cases hv with
  | frame _ hn => exact h.keeps hn fun p _ r hr => ⟨r, hr, rfl, rfl⟩
  | call hs =>
    cases callStep_cases hs with
    | added =>
      rintro p k (heq | ⟨t, heq⟩)
      · obtain ⟨rfl, -⟩ := Pc.reloadTask.inj heq
        obtain ⟨hnone, hzero⟩ := he.fresh _ (Nat.le_refl _)
        refine ⟨?_, fun r hr => ?_⟩
        · simp only [inFlight] at hzero
          omega
        · rcases mem_heap_append.1 hr with ⟨-, rfl⟩ | ⟨hne, -⟩
          · exact ⟨rfl, rfl⟩
          · exact absurd rfl hne
      · cases heq
    | setopt | stay | remove | poll | destroy => exact .of_reload rfl
  | client hs =>
    have hpc := (hU _ rfl).pc
    cases localStep_cases hs with
    | @reloadTask _ p k t hq =>
      rintro q k' (heq | ⟨t', heq⟩)
      · cases heq
      · obtain ⟨rfl, -, rfl⟩ := Pc.reloadFlag.inj heq
        obtain ⟨hzero, hflags⟩ := h p k (.inl rfl)
        refine ⟨hzero, fun r' hr' => ?_⟩
        obtain ⟨r, hr, hpend, hdone, -⟩ := hq.flags hr'
        rw [hpend, hdone]
        exact hflags r hr
    | reloadFlag => exact fun q k hq => by rcases hq with heq | ⟨t, heq⟩ <;> cases heq
    | modsetReload | doneReload => cases hpc
    | @rmFree _ _ _ k => exact .of_reload (by cases k <;> rfl)
    | doneOk _ _ hk => rcases hk with rfl | rfl <;> exact .of_reload rfl
    | _ => exact .of_reload rfl
  | @enqueue _ _ p t k => exact .of_reload (by cases k <;> rfl)
  | drain => exact .of_reload rfl
  | @release _ _ _ pc' _ _ _ hpc' =>
    apply New.of_reload
    cases pc' with
    | reloadTask | reloadFlag | reloadEnq => cases hpc'
    | _ => rfl
  | taken => exact h.keeps (fun _ => Nat.le_refl _) fun p _ r hr => ⟨r, hr, rfl, rfl⟩
  | returned hup =>
    refine h.keeps (fun _ => Nat.le_refl _) fun p _ r' hr' => ?_
    obtain ⟨r, hr, rfl⟩ := heap_of_update hup
    rcases update_eq_some.1 hr' with ⟨rfl, heq⟩ | ⟨-, hr'⟩
    · obtain rfl := Option.some.inj heq
      exact ⟨r, hr, rfl, rfl⟩
    · exact ⟨r', hr', rfl, rfl⟩
  | @completed _ _ _ _ _ _ _ q _ hdone hn =>
    refine h.keeps (fun p => Nat.le_of_add_right_le (hn p).le) fun p hzero r' hr' => ?_
    -- the job that ends is one for another resource
    have hne : p ≠ q := by
      rintro rfl
      have hone := hn p
      rw [if_pos rfl, hzero] at hone
      cases hone
    obtain ⟨rman₁, hup, hq, -⟩ := workDone_spec hdone
    obtain ⟨r, hr, rfl⟩ := heap_of_update hup
    obtain ⟨r₁, hr₁, hpend, hdone, -⟩ := hq.flags hr'
    exact ⟨r₁, by simpa [hne] using hr₁, hpend, hdone⟩

/-- A resource gets a job when `resman_add` makes it, and no other. -/
structure Once (m : MgrPtr) (c : Client) (es : List Note) : Prop where
  one : ∀ p, es.count (.enqueued m p) + (c.pc.reload?.any (·.1 = p)).toNat ≤ 1
  fresh : ∀ p, c.rman.nalloc ≤ p → es.count (.enqueued m p) = 0 ∧ c.pc.reload?.any (·.1 = p) = false

theorem count_enqueued_of_absent {es : List Note} (h : ∀ n ∈ es, n.rman ≠ some m) (p : ResPtr) :
    es.count (.enqueued m p) = 0 :=
  List.count_eq_zero_of_not_mem fun hn => h _ hn rfl

theorem Once.init {es : List Note} (h : ∀ n ∈ es, n.rman ≠ some m) (d f : Bool) :
    Once m ⟨.init d f, .idle⟩ es where
  one p := by
    rw [count_enqueued_of_absent h]
    exact Nat.zero_le 1
  fresh p _ := ⟨count_enqueued_of_absent h p, rfl⟩

theorem Once.pass {es ns : List Note} (h : Once m ⟨rman, pc⟩ es) (hns : ∀ p, .enqueued m p ∉ ns)
    (hreload : ∀ p, pc'.reload?.any (·.1 = p) → pc.reload?.any (·.1 = p))
    (halloc : rman.nalloc ≤ rman'.nalloc) :
    Once m ⟨rman', pc'⟩ (ns ++ es) := by
  have hcount : ∀ p, (ns ++ es).count (.enqueued m p) = es.count (.enqueued m p) := by
    intro p
    rw [List.count_append, List.count_eq_zero_of_not_mem (hns p), Nat.zero_add]
  refine ⟨fun p => ?_, fun p hp => ?_⟩
  · rw [hcount]
    exact le_trans (Nat.add_le_add_left (Bool.toNat_le_toNat (hreload p)) _) (h.one p)
  · obtain ⟨hzero, hnone⟩ := h.fresh p (halloc.trans hp)
    refine ⟨(hcount p).trans hzero, Bool.eq_false_iff.2 fun hsome => ?_⟩
    exact Bool.eq_false_iff.1 hnone (hreload p hsome)

theorem not_enqueued_completionNotes {w : Nat} {m' : MgrPtr} {q : ResPtr} :
    .enqueued m p ∉ completionNotes w m' rman q := by
  intro hn
  rcases completionNotes_cases hn with heq | ⟨heq, -⟩ <;> cases heq

theorem Once.step {es ns : List Note} (h : Once m c es) (hU : Unmonitored c)
    (hv : NoteStep m a c c' ns) :
    Once m c' (ns ++ es) := by
  cases hv with
  | frame _ hns =>
    refine h.pass (fun p hp => hns _ hp rfl) (fun _ hp => hp) (Nat.le_refl _)
  | @call f rman rman' pc' hs =>
    have hns : ∀ p, .enqueued m p ∉ callNotes m rman f pc' := by
      intro p hn
      generalize hx : Note.enqueued m p = x at hn
      cases callNotes_cases hn <;> cases hx
    cases callStep_cases hs with
    | @added fname data mem =>
      have hcount :
          ∀ p, (callNotes m rman (.add fname data mem) (.reloadTask rman.nalloc .add) ++ es).count
          (.enqueued m p) = es.count (.enqueued m p) := by
        intro p
        rw [List.count_append, List.count_eq_zero_of_not_mem (hns p), Nat.zero_add]
      have hreload : ∀ p, ((Pc.reloadTask rman.nalloc .add).reload?.any fun x => decide (x.1 = p)) =
          decide (rman.nalloc = p) := fun p => rfl
      refine ⟨fun p => ?_, fun p hp => ?_⟩
      · rw [hcount, hreload]
        by_cases hp : rman.nalloc = p
        · rw [(h.fresh p hp.le).1, Nat.zero_add]
          exact Bool.toNat_le _
        · rw [decide_eq_false hp]
          exact Nat.le_of_add_right_le (h.one p)
      · have hlt : rman.nalloc < p := hp
        rw [hcount, hreload]
        exact ⟨(h.fresh p hlt.le).1, decide_eq_false hlt.ne⟩
    | setopt | stay => exact h.pass hns (fun _ hp => hp) (Nat.le_refl _)
    | poll | destroy => exact h.pass hns (fun _ hp => by cases hp) (Nat.le_refl _)
    | remove _ hup =>
      obtain ⟨r, -, rfl⟩ := heap_of_update hup
      exact h.pass hns (fun _ hp => hp) (Nat.le_refl _)
  | @client o rman rman' pc pc' hs =>
    have halloc := (localStep_fields hs).2.ge
    have hns : ∀ p, .enqueued m p ∉ clientNotes m o pc pc' := by
      intro p hn
      generalize hx : Note.enqueued m p = x at hn
      cases clientNotes_cases hn with
      | enqueued => cases hs
      | _ => cases hx
    refine h.pass hns ?_ halloc
    have hpc := hU.pc
    cases localStep_cases hs with
    | reloadTask | reloadFlag => exact fun _ hp => hp
    | modsetReload | doneReload => cases hpc
    | @rmFree _ _ _ k => exact fun _ hp => by cases k <;> cases hp
    | doneOk _ _ hk => rcases hk with rfl | rfl <;> exact fun _ hp => by cases hp
    | _ => exact fun _ hp => by cases hp
  | @pool o rman pool pool' pc pc' hs =>
    cases poolStep_cases hs with
    | @enqueue p t k hmem =>
      have hreload : k.resume.reload? = none := by cases k <;> rfl
      have hns : clientNotes m o (.reloadEnq p t k) k.resume = [.enqueued m p] := if_pos hmem
      rw [hns]
      refine ⟨fun q => ?_, fun q hq => ?_⟩
      · have hone := h.one q
        rw [hreload]
        simpa [Pc.reload?, List.count_cons, Bool.toNat, Bool.cond_decide] using hone
      · obtain ⟨hzero, hnone⟩ := h.fresh q hq
        have hne : p ≠ q := of_decide_eq_false hnone
        rw [hreload]
        simpa [hne] using hzero
    | @lost p t k hmem =>
      have hns : clientNotes m o (.reloadEnq p t k) k.resume = [] := if_neg (by simp [hmem])
      rw [hns]
      exact h.pass (fun _ => List.not_mem_nil) (fun _ hp => by cases k <;> cases hp) (Nat.le_refl _)
    | drain | clear =>
      exact h.pass (fun _ hp => by cases List.mem_singleton.1 hp) (fun _ hp => by cases hp)
        (Nat.le_refl _)
    | quit | join =>
      exact h.pass (fun _ => List.not_mem_nil) (fun _ hp => by cases hp) (Nat.le_refl _)
    | release hk =>
      rcases hk with rfl | rfl
      · exact h.pass (fun _ => List.not_mem_nil) (fun _ hp => by cases hp) (Nat.le_refl _)
      · exact h.pass (fun _ => List.not_mem_nil) (fun _ hp => by cases hp) (Nat.le_refl _)
  | taken => exact h.pass (fun _ => List.not_mem_nil) (fun _ hp => hp) (Nat.le_refl _)
  | returned hup =>
    obtain ⟨r, -, rfl⟩ := heap_of_update hup
    exact h.pass (by simp) (fun _ hp => hp) (Nat.le_refl _)
  | completed _ hdone =>
    obtain ⟨rman₁, hup, hq, -⟩ := workDone_spec hdone
    obtain ⟨r, -, rfl⟩ := heap_of_update hup
    exact h.pass (fun _ => not_enqueued_completionNotes) (fun _ hp => hp) hq.nalloc.ge

end Orderly

/-- A resource has one job at most, queued or executed, and none while its `done_func` runs or while
it is removed; and it never gets a second one. -/
structure Orderly (s : Sys) (es : List Note) : Prop where
  one : ∀ m c p, s.clients m = some c →
    s.pool.njobs m p + (c.pc.enqueues p).toNat + (c.pc.locks p).toNat ≤ 1
  removing : ∀ m c p, s.clients m = some c → c.pc.removes p = true → s.pool.njobs m p = 0
  once : ∀ m p, es.count (.enqueued m p) ≤ 1

/-- Nothing is monitored as long as a silent run goes on. -/
theorem unmonitored_along {numThreads : Nat} {as : List Action} (ha : ∀ a ∈ as, a.Silent) :
    Along step (OnClient fun rman pc => Unmonitored ⟨rman, pc⟩) (.initial numThreads) as := by
  refine along_iff_forall.2 fun pre a s hpre hs => ?_
  have hall := unmonitored_of_run (fun b hb => ha b (hpre.subset (List.mem_append_left _ hb))) hs
  cases a with
  | client m o => exact fun c hc => hall m c hc
  | create | call | worker => trivial

/-- A resource that is new is at rest. -/
theorem New.reloadsIdle {c : Client} {n : ResPtr → Nat} (h : New c n) :
    ReloadsIdle c.rman c.pc := by
  obtain ⟨rman, pc⟩ := c
  cases pc with
  | reloadFlag p t k => exact (h p k (.inr ⟨t, rfl⟩)).2
  | _ => trivial

/-- In a silent run every load starts on a resource that has no job. -/
theorem new_of_silent {numThreads : Nat} {as : List Action} {s : Sys} (ha : ∀ a ∈ as, a.Silent)
    (h : exec step (.initial numThreads) as = some s) :
    ∀ m c, s.clients m = some c →
      Exclusive c (s.pool.njobs m) ∧ Safe c (s.pool.njobs m) ∧ New c (s.pool.njobs m) := by
  have hinv := view_invariant (R := fun rman pc => Unmonitored ⟨rman, pc⟩)
    (I := fun c n => Exclusive c n ∧ Safe c n ∧ New c n) ?_ ?_ (unmonitored_along ha) h
  · exact hinv.1
  · exact fun d f n hn => ⟨Exclusive.init d f hn, Safe.init d f hn, .of_reload rfl⟩
  rintro m a c n c' n' ⟨hexcl, hsafe, hnew⟩ hU hv
  refine ⟨hexcl.step (fun _ _ => hnew.reloadsIdle) hv, hsafe.step (fun o _ => ?_) hv,
    hnew.step hexcl hU hv⟩
  have hidle := hnew.reloadsIdle
  obtain ⟨rman, pc⟩ := c
  cases pc with
  | reloadFlag p t k => exact fun r hr => (hidle r hr).1
  | _ => trivial

theorem reloadsIdle_along {numThreads : Nat} {as : List Action} (ha : ∀ a ∈ as, a.Silent) :
    Along step (OnClient ReloadsIdle) (.initial numThreads) as := by
  refine along_iff_forall.2 fun pre a s hpre hs => ?_
  have hall := new_of_silent (fun b hb => ha b (hpre.subset (List.mem_append_left _ hb))) hs
  cases a with
  | client m o => exact fun c hc => (hall m c hc).2.2.reloadsIdle
  | create | call | worker => trivial

/-- In a silent run there is one enqueued job for a resource at most. -/
theorem once_of_silent {numThreads : Nat} {as : List Action} {s : Sys} {es : List Note}
    (ha : ∀ a ∈ as, a.Silent) (h : exec trace (.initial numThreads, []) as = some (s, es))
    (m : MgrPtr) (p : ResPtr) :
    es.count (.enqueued m p) ≤ 1 := by
  have hC : Along trace (fun x _ => ∀ m c, x.1.clients m = some c → Unmonitored c)
      (.initial numThreads, []) as := by
    refine along_iff_forall.2 fun pre a y hpre hy => ?_
    exact unmonitored_of_run (fun b hb => ha b (hpre.subset (List.mem_append_left _ hb)))
      (exec_record hy)
  have honce := history_invariant (m := m) (I := Once)
    (C := fun x _ => ∀ m c, x.1.clients m = some c → Unmonitored c)
    (fun m d f es hes => .init hes d f)
    (fun m s a s' c c' es ns hC hc _ _ hI hv => hI.step (hC m c hc) hv) hC h
  cases hc : s.clients m with
  | none =>
    rw [count_enqueued_of_absent (honce.2 hc)]
    exact Nat.zero_le 1
  | some c => exact Nat.le_of_add_right_le ((honce.1 c hc).2.one p)

/-- **Without a file monitor the managers are in order**, in every run of that build, with any
number of managers and workers. -/
theorem NoWatch.orderly_of_run {numThreads : Nat} {as : List Action} {x : Sys × List Note}
    (h : exec (record NoWatch.step notes) (.initial numThreads, []) as = some x) :
    Orderly x.1 x.2 := by
  obtain ⟨bs, hbs, hrun⟩ := NoWatch.exists_silent h
  have hsafe := new_of_silent hbs (exec_record hrun)
  constructor
  · intro m c p hc
    exact (hsafe m c hc).1.one p
  · intro m c p hc hp
    exact Nat.eq_zero_of_add_eq_zero_right ((hsafe m c hc).2.1.removing p hp)
  · intro m p
    exact once_of_silent hbs hrun m p

/-- Two workers load two files, `resman_poll` reports them, and the first one is removed. -/
def loadsTwo : List Action :=
  [.create 0 true false, .call 0 (.add "a" 0 {})] ++ clientSteps 0 {} 3 ++
    .call 0 (.add "b" 0 {}) ::
    clientSteps 0 {} 3 ++ workerSteps 0 {} 5 ++ workerSteps 1 {} 5 ++
      .call 0 .poll :: clientSteps 0 {} 11 ++
    .call 0 (.remove 0) :: .call 0 .poll :: clientSteps 0 {} 6

theorem NoWatch.refines_loadsTwo :
    let x := (exec (record NoWatch.step notes) (.initial 2, []) loadsTwo).get (by decide +kernel)
    .removed 0 0 ∈ x.2 ∧ ∃ bs, (∀ b ∈ bs, b.Silent) ∧ exec trace (.initial 2, []) bs = some x :=
  ⟨by decide +kernel, NoWatch.refines (Option.some_get _).symm⟩

theorem NoWatch.orderly_of_run_loadsTwo :
    let x := (exec (record NoWatch.step notes) (.initial 2, []) loadsTwo).get (by decide +kernel)
    .doneBegan 0 1 ∈ x.2 ∧ Orderly x.1 x.2 :=
  ⟨by decide +kernel, NoWatch.orderly_of_run (Option.some_get _).symm⟩

/-- **Without a file monitor a resource has one life**: in every run of that build its stages are a
path of `Life`, and this path has five stages at most. -/
theorem NoWatch.single_life {numThreads : Nat} {as : List Action} {x : Sys × List Note}
    {m : MgrPtr} {c : Client}
    (h : exec (record NoWatch.step notes) (.initial numThreads, []) as = some x)
    (hc : x.1.clients m = some c) (p : ResPtr) :
    ∃ l, exec (Life.step c.rman.doneFunc) .resting (stages m p x.2) = some l ∧
      LifeAt x.1.pool m p c l ∧
      (stages m p x.2).length ≤ 5 := by
  obtain ⟨bs, hbs, hrun⟩ := NoWatch.exists_silent h
  obtain ⟨l, hl, hlife⟩ := (lives_of_run (reloadsIdle_along hbs) hrun).1 m c p hc
  refine ⟨l, hl, hlife, ?_⟩
  have hlen := Life.length_le hl
  have honce := once_of_silent hbs hrun m p
  rw [count_enqueued_stages] at hlen
  simp only [Life.left] at hlen
  omega

theorem NoWatch.single_life_loadsTwo :
    ∃ x, exec (record NoWatch.step notes) (.initial 2, []) loadsTwo = some x ∧
      stages 0 1 x.2 = [.enqueued, .returned 1 0, .completed 1, .began, .ended] ∧
      ∃ c, x.1.clients 0 = some c ∧
        ∃ l, exec (Life.step c.rman.doneFunc) .resting (stages 0 1 x.2) = some l ∧
          LifeAt x.1.pool 0 1 c l ∧
          (stages 0 1 x.2).length ≤ 5 := by
  have hrun : ((exec (record NoWatch.step notes) (.initial 2, []) loadsTwo).any
      fun x => (x.1.clients 0).isSome ∧
      stages 0 1 x.2 = [.enqueued, .returned 1 0, .completed 1, .began, .ended]) = true := by
        decide +kernel
  obtain ⟨x, hx, hlists⟩ := (Option.any_eq_true _ _).1 hrun
  obtain ⟨hsome, hstages⟩ := of_decide_eq_true hlists
  obtain ⟨c, hc⟩ := Option.isSome_iff_exists.1 hsome
  exact ⟨x, hx, hstages, c, hc, NoWatch.single_life hx hc 1⟩

end Resman.Manager
