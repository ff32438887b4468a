import Resman.Manager.Events

/-!
# The main loop and delayed reloads

An application calls `resman_wait` and `resman_poll` in turn. `resman_wait` blocks until the event
pipe or the inotify descriptor is readable, for as long as it takes: its `select` has no timeout. A
modified file is reloaded with a delay, though, by the first `resman_poll` after `reload_timeout`,
and the inotify event has been read by then. `inTime_iff` says when the main thread sleeps through
no delayed reload.

A `Loop` adds to a system what `resman_wait` of one manager depends on: the inotify events that have
not been read, the clock, and whether its main thread is in `resman_wait`. Other threads, other
managers and the clock go on at any time.
-/

namespace Resman.Manager

open Lib

/-- Where the main thread is: outside of `resman_wait`, inside, or behind it with `resman_poll`
still to be called. -/
inductive Stage where
  | free
  | waiting
  | woken
  deriving DecidableEq, Repr

structure Loop where
  sys : Sys
  unread : Nat
  now : Nat
  stage : Stage

def Loop.initial (numThreads : Nat) : Loop := ⟨.initial numThreads, 0, 0, .free⟩

/-- One of `wait_fds` is readable. -/
def Loop.readable (l : Loop) : Bool := 0 < l.sys.pool.pipe ∨ 0 < l.unread

/-- What the clock and the inotify descriptor answer to a step of the main thread. A `read` takes an
event as long as there is one; the event that is handled is any, since the loop over the buffer may
look at other bytes than those of a record. -/
def Loop.answer (l : Loop) (o : Oracle) : Pc → Option (Oracle × Nat)
  | .watch _ =>
    match l.unread, o.event with
    | 0, _ => some ({ o with now := l.now, event := none }, 0)
    | unread + 1, some _ => some ({ o with now := l.now }, unread)
    | _ + 1, none => none
  | _ => some ({ o with now := l.now }, l.unread)

/-- `wait` enters `resman_wait`, `wake` is the return of `select`, `call` and `main` are steps of
the main thread outside of `resman_wait`, and `other` is a step of another thread. -/
inductive LoopAction where
  | create (doneFunc destroyFunc : Bool)
  | wait
  | wake
  | call (f : Call)
  | main (o : Oracle)
  | other (a : Action)
  | event
  | tick (msec : Nat)

def loopStep (m : MgrPtr) (l : Loop) : LoopAction → Option Loop
  | .create doneFunc destroyFunc =>
    (step l.sys (.create m doneFunc destroyFunc)).map fun sys => { l with sys }
  | .wait => do
    let c ← l.sys.clients m
    if l.stage = .free ∧ c.pc = .idle then return { l with stage := .waiting } else none
  | .wake => if l.stage = .waiting ∧ l.readable then some { l with stage := .woken } else none
  | .call f =>
    if l.stage = .waiting then none
    else (step l.sys (.call m f)).map fun sys =>
      { l with sys, stage := if f = .poll then .free else l.stage }
  | .main o =>
    if l.stage = .waiting then none
    else do
      let c ← l.sys.clients m
      let (o, unread) ← l.answer o c.pc
      let sys ← step l.sys (.client m o)
      return { l with sys, unread }
  | .other a =>
    if a.client? = some m then none else (step l.sys a).map fun sys => { l with sys }
  | .event => some { l with unread := l.unread + 1 }
  | .tick msec => some { l with now := l.now + msec }

/-! ## Delayed reloads -/

/-- No live resource has a delayed reload. -/
def NoneDelayed (rman : Rman) : Prop :=
  ∀ slot ∈ rman.res, ∀ p ∈ slot, ∀ r ∈ rman.heap p, r.reloadTimeout = 0

instance (rman : Rman) : Decidable (NoneDelayed rman) :=
  inferInstanceAs (Decidable (∀ slot ∈ rman.res, ∀ p ∈ slot, ∀ r ∈ rman.heap p,
    r.reloadTimeout = 0))

/-- No live resource has a delayed reload that is due. -/
def NoneExpired (rman : Rman) (now : Nat) : Prop :=
  ∀ slot ∈ rman.res, ∀ p ∈ slot, ∀ r ∈ rman.heap p, ¬ (r.reloadTimeout ≠ 0 ∧ r.reloadTimeout ≤ now)

instance (rman : Rman) (now : Nat) : Decidable (NoneExpired rman now) :=
  inferInstanceAs (Decidable (∀ slot ∈ rman.res, ∀ p ∈ slot, ∀ r ∈ rman.heap p,
    ¬ (r.reloadTimeout ≠ 0 ∧ r.reloadTimeout ≤ now)))

/-- The main thread is blocked in `resman_wait`. -/
def Loop.blocked (l : Loop) : Bool := l.stage = .waiting ∧ l.readable = false

/-- While the main thread is blocked, no delayed reload is due. -/
def InTime (m : MgrPtr) (l : Loop) : Prop :=
  l.blocked = true → ∀ c ∈ l.sys.clients m, NoneExpired c.rman l.now

/-- The main thread gets blocked only when no live resource has a delayed reload:
it enters `resman_wait` with nothing to read, or another manager empties the pipe
while nothing else is readable. -/
def BlocksWithNoneDelayed (m : MgrPtr) (l : Loop) : LoopAction → Prop
  | .wait => l.readable = false → ∀ c ∈ l.sys.clients m, NoneDelayed c.rman
  | .other (.client m' _) => l.stage = .waiting → l.unread = 0 →
      (∃ c' ∈ l.sys.clients m', c'.pc = .drain) → ∀ c ∈ l.sys.clients m, NoneDelayed c.rman
  | _ => True

instance (m : MgrPtr) (l : Loop) : ∀ a, Decidable (BlocksWithNoneDelayed m l a)
  | .wait => inferInstanceAs (Decidable (l.readable = false →
      ∀ c ∈ l.sys.clients m, NoneDelayed c.rman))
  | .other (.client m' _) => inferInstanceAs (Decidable (l.stage = .waiting → l.unread = 0 →
      (∃ c' ∈ l.sys.clients m', c'.pc = .drain) → ∀ c ∈ l.sys.clients m, NoneDelayed c.rman))
  | .other (.create ..) | .other (.call ..) | .other (.worker ..) | .create .. | .wake | .call _
  | .main _ | .event | .tick _ => isTrue trivial

section Proofs

variable {m m' : MgrPtr} {l l' : Loop} {s s' : Sys} {rman rman' : Rman} {p : ResPtr} {o : Oracle}
  {a : Action} {as : List LoopAction} {now numThreads : Nat}

theorem NoneDelayed.noneExpired (h : NoneDelayed rman) : NoneExpired rman now := by
  rintro slot hslot p hp r hr ⟨hne, -⟩
  exact hne (h slot hslot p hp r hr)

/-- A delayed reload is due some time. -/
theorem exists_not_noneExpired (now : Nat) (h : ¬ NoneDelayed rman) :
    ∃ n, ¬ NoneExpired rman (now + n) := by
  simp only [NoneDelayed, Classical.not_forall] at h
  obtain ⟨slot, hslot, p, hp, r, hr, hne⟩ := h
  refine ⟨r.reloadTimeout, fun hnone => hnone slot hslot p hp r hr ⟨hne, ?_⟩⟩
  omega

theorem NoneDelayed.keep (h : NoneDelayed rman) (hres : rman'.res = rman.res)
    (hkeep : KeepsField Resource.reloadTimeout rman rman') : NoneDelayed rman' := by
  intro slot hslot p hp r' hr'
  obtain ⟨r, hr, heq⟩ := hkeep p r' hr'
  exact heq.trans (h slot (hres ▸ hslot) p hp r hr)

/-- A worker sets up no delayed reload. -/
theorem worker_noneDelayed {w : Nat} (h : workerStep s w o = some s')
    (hnone : ∀ c ∈ s.clients m, NoneDelayed c.rman) : ∀ c ∈ s'.clients m, NoneDelayed c.rman := by
  have hjob : ∀ {j : Job} {rman rman' : Rman} {pc : Pc}, s.clients j.rman = some ⟨rman, pc⟩ →
      rman'.res = rman.res → KeepsField Resource.reloadTimeout rman rman' →
      ∀ c ∈ Function.update s.clients j.rman (some ⟨rman', pc⟩) m, NoneDelayed c.rman := by
    intro j rman rman' pc hc hres hkeep c' hc'
    rcases update_eq_some.1 hc' with ⟨rfl, heq⟩ | ⟨-, hold⟩
    · obtain rfl := Option.some.inj heq
      exact (hnone _ hc).keep hres hkeep
    · exact hnone c' hold
  cases workerStep_cases h with
  | exit | take | sent => exact hnone
  | taken _ hc => exact hjob hc rfl (.of_heap_eq rfl)
  | returned _ hc hup =>
    refine hjob hc ?_ (.of_update hup fun _ => rfl)
    obtain ⟨r, -, rfl⟩ := heap_of_update hup
    rfl
  | completed _ hc _ hdone =>
    refine hjob hc ?_ (workDone_keeps (fun _ _ => rfl) (fun _ _ => rfl) (fun _ _ => rfl)
      (fun _ _ => rfl) hdone)
    obtain ⟨rman₁, hup, hq, -⟩ := workDone_spec hdone
    obtain ⟨r, -, rfl⟩ := heap_of_update hup
    exact hq.res

/-- Another thread sets up no delayed reload for the manager. -/
theorem other_noneDelayed (ha : a.client? ≠ some m) (h : step s a = some s')
    (hnone : ∀ c ∈ s.clients m, NoneDelayed c.rman) : ∀ c ∈ s'.clients m, NoneDelayed c.rman := by
  cases hm : a.client? with
  | none =>
    cases a with
    | worker w o => exact worker_noneDelayed h hnone
    | create | call | client => cases hm
  | some m' =>
    have hne : m' ≠ m := by
      rintro rfl
      exact ha hm
    rw [(step_other h hm hne).1]
    exact hnone

/-- The pipe becomes empty by a drain only. -/
theorem drain_of_pipe (h : step s a = some s') (hpipe : s'.pool.pipe = 0) :
    s.pool.pipe = 0 ∨ ∃ m' o, a = .client m' o ∧ ∃ c ∈ s.clients m', c.pc = .drain := by
  have hv := step_pipe h
  generalize notes s a s' = ns at hv
  cases hv with
  | quiet heq => exact .inl (heq ▸ hpipe)
  | sent _ _ heq =>
    rw [heq] at hpipe
    cases hpipe
  | drained hc hpc => exact .inr ⟨_, _, rfl, _, hc, hpc⟩

/-- A drain empties the pipe. -/
theorem pipe_of_drain {c : Client} (hc : s.clients m = some c) (hpc : c.pc = .drain)
    (h : step s (.client m o) = some s') : s'.pool.pipe = 0 := by
  rcases client_step_cases h rfl with ⟨d, f, ha, -, -⟩ | ⟨f, c', rman', pc', ha, -⟩ |
    ⟨o', c', ha, hc', ⟨rman', pc', hlocal, rfl⟩ | ⟨pool', pc', hpool, rfl⟩⟩
  · cases ha
  · cases ha
  · obtain rfl := Option.some.inj (hc.symm.trans hc')
    rw [hpc] at hlocal
    cases hlocal
  · obtain rfl := Option.some.inj (hc.symm.trans hc')
    rw [hpc] at hpool
    cases poolStep_cases hpool
    rfl

theorem blocked_iff : l.blocked = true ↔ l.stage = .waiting ∧ l.sys.pool.pipe = 0 ∧
    l.unread = 0 := by
  simp [Loop.blocked, Loop.readable]

/-- While the main thread is blocked, no live resource has a delayed reload. -/
def SleepsFreely (m : MgrPtr) (l : Loop) : Prop :=
  l.blocked = true → ∀ c ∈ l.sys.clients m, NoneDelayed c.rman

theorem SleepsFreely.inTime (h : SleepsFreely m l) (n : Nat) :
    InTime m { l with now := l.now + n } := fun hb c hc => (h hb c hc).noneExpired

theorem SleepsFreely.step {a : LoopAction} (hI : SleepsFreely m l)
    (ha : BlocksWithNoneDelayed m l a) (h : loopStep m l a = some l') : SleepsFreely m l' := by
  intro hb
  rw [blocked_iff] at hb
  obtain ⟨hstage, hpipe, hunread⟩ := hb
  cases a with
  | create doneFunc destroyFunc =>
    obtain ⟨sys, hs, rfl⟩ := Option.map_eq_some_iff.1 h
    -- a new manager has no resources
    intro c hc
    simp only [Manager.step] at hs
    split at hs
    · cases hs
    · obtain rfl := Option.some.inj hs
      obtain rfl : (⟨.init doneFunc destroyFunc, .idle⟩ : Client) = c := by simpa using hc
      intro slot hslot
      cases hslot
  | wait =>
    simp only [loopStep, Option.bind_eq_bind, Option.bind_eq_some_iff] at h
    obtain ⟨c, -, h⟩ := h
    split at h
    · obtain rfl := Option.some.inj h
      apply ha
      simpa [Loop.readable] using ⟨hpipe, hunread⟩
    · cases h
  | wake =>
    simp only [loopStep] at h
    split at h
    · obtain rfl := Option.some.inj h
      cases hstage
    · cases h
  | call f =>
    simp only [loopStep] at h
    split at h
    · cases h
    · next hne =>
      obtain ⟨sys, -, rfl⟩ := Option.map_eq_some_iff.1 h
      split at hstage
      · cases hstage
      · exact absurd hstage hne
  | main o =>
    simp only [loopStep, Option.bind_eq_bind] at h
    split at h
    · cases h
    · next hne =>
      simp only [Option.bind_eq_some_iff] at h
      obtain ⟨c, -, ⟨o', unread⟩, -, sys, -, h⟩ := h
      obtain rfl := Option.some.inj h
      exact absurd hstage hne
  | other a =>
    simp only [loopStep] at h
    split at h
    · cases h
    · next hne =>
      obtain ⟨sys, hs, rfl⟩ := Option.map_eq_some_iff.1 h
      refine other_noneDelayed hne hs ?_
      rcases drain_of_pipe hs hpipe with hold | ⟨m', o, rfl, hdrain⟩
      · exact hI (blocked_iff.2 ⟨hstage, hold, hunread⟩)
      · exact ha hstage hunread hdrain
  | event =>
    obtain rfl := Option.some.inj h
    cases hunread
  | tick msec =>
    obtain rfl := Option.some.inj h
    exact hI (blocked_iff.2 ⟨hstage, hpipe, hunread⟩)

/-- A main thread that gets blocked with a delayed reload set up sleeps through it. -/
theorem not_inTime_of_blocks {a : LoopAction} (ha : ¬ BlocksWithNoneDelayed m l a)
    (h : loopStep m l a = some l') : ∃ n, ¬ InTime m { l' with now := l'.now + n } := by
  -- it suffices that the main thread is blocked now
  suffices hbad : l'.blocked = true ∧ ∃ c ∈ l'.sys.clients m, ¬ NoneDelayed c.rman by
    obtain ⟨hb, c, hc, hdelayed⟩ := hbad
    obtain ⟨n, hn⟩ := exists_not_noneExpired l'.now hdelayed
    exact ⟨n, fun hin => hn (hin hb c hc)⟩
  cases a with
  | wait =>
    simp only [loopStep, Option.bind_eq_bind, Option.bind_eq_some_iff] at h
    obtain ⟨c, -, h⟩ := h
    split at h
    · obtain rfl := Option.some.inj h
      simp only [BlocksWithNoneDelayed, Classical.not_imp, not_forall] at ha
      obtain ⟨hread, c, hc, hdelayed⟩ := ha
      refine ⟨?_, c, hc, hdelayed⟩
      simpa [Loop.blocked, Loop.readable] using hread
    · cases h
  | other a =>
    cases a with
    | client m' o =>
      simp only [loopStep] at h
      split at h
      · cases h
      · next hne =>
        obtain ⟨sys, hs, rfl⟩ := Option.map_eq_some_iff.1 h
        simp only [BlocksWithNoneDelayed, Classical.not_imp, not_forall] at ha
        obtain ⟨hstage, hunread, ⟨c', hc', hpc⟩, c, hc, hdelayed⟩ := ha
        have hm : m' ≠ m := fun heq => hne (congrArg some heq)
        refine ⟨blocked_iff.2 ⟨hstage, ?_, hunread⟩, c, ?_, hdelayed⟩
        · exact pipe_of_drain hc' hpc hs
        · exact (step_other hs rfl hm).1 ▸ hc
    | create | call | worker => exact absurd trivial ha
  | create | wake | call | main | event | tick => exact absurd trivial ha

end Proofs

/-- **No delayed reload is slept through**, whatever the clock says, in the runs, and only
in the runs, in which the main thread gets blocked in `resman_wait` only when no live
resource has a delayed reload. -/
theorem inTime_iff {m : MgrPtr} {l : Loop} {as : List LoopAction} {numThreads : Nat}
    (h : exec (loopStep m) (.initial numThreads) as = some l) :
    (∀ pre l', pre <+: as → exec (loopStep m) (.initial numThreads) pre = some l' →
        ∀ n, InTime m { l' with now := l'.now + n }) ↔
      Along (loopStep m) (BlocksWithNoneDelayed m) (.initial numThreads) as := by
  refine forall_prefix_iff_along (D := fun _ _ => True) (I := SleepsFreely m)
    (fun l' hI n => hI.inTime n) (fun _ _ _ hI _ ha hs => hI.step ha hs) ?_ ?_ (along_true _ _) h
  · intro l₁ a l₂ _ _ ha hs hall
    obtain ⟨n, hn⟩ := not_inTime_of_blocks ha hs
    exact hn (hall n)
  · intro hb
    cases hb

/-- A file is loaded and watched. -/
def watchesFile : List LoopAction :=
  [.create true false, .call (.add "a" 0 {})] ++ List.replicate 3 (.main {}) ++
  List.replicate 5 (.other (.worker 0 {})) ++ .call .poll :: List.replicate 9
    (.main { watch := some 1 })

/-- The file is modified, which a `resman_poll` finds out, and the main thread
goes back to sleep. -/
def modifiesFile : List LoopAction :=
  [.event, .wait, .wake, .call .poll] ++
  List.replicate 9 (.main { event := some ⟨1, FileWatch.inModify, 0, 0⟩ }) ++ [.wait, .tick 128]

theorem inTime_iff_watchesFile :
    Along (loopStep 0) (BlocksWithNoneDelayed 0) (.initial 1) (watchesFile ++ [.wait]) ∧
      ∀ pre l', pre <+: watchesFile ++ [.wait] → exec (loopStep 0) (.initial 1) pre = some l' →
        ∀ n, InTime 0 { l' with now := l'.now + n } := by
  have hC : Along (loopStep 0) (BlocksWithNoneDelayed 0) (.initial 1) (watchesFile ++ [.wait]) := by
    decide +kernel
  have h := (Option.some_get (by decide +kernel :
    (exec (loopStep 0) (.initial 1) (watchesFile ++ [.wait])).isSome)).symm
  exact ⟨hC, (inTime_iff h).2 hC⟩

/-- The reload was due, and nothing wakes the main thread up. -/
theorem not_inTime_modifiesFile :
    ¬ ∀ m numThreads as l, exec (loopStep m) (.initial numThreads) as = some l → InTime m l := by
  intro hall
  have hrun : ((exec (loopStep 0) (.initial 1) (watchesFile ++ modifiesFile)).any fun l =>
      l.blocked = true ∧ (l.sys.clients 0).any fun c => ¬ NoneExpired c.rman l.now) = true := by
    decide +kernel
  obtain ⟨l, hl, hrun⟩ := (Option.any_eq_true _ _).1 hrun
  obtain ⟨hb, hany⟩ := of_decide_eq_true hrun
  obtain ⟨c, hc, hdue⟩ := (Option.any_eq_true _ _).1 hany
  exact of_decide_eq_true hdue (hall 0 1 _ l hl hb c hc)

end Resman.Manager
