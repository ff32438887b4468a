import Resman.Manager.History

/-!
# Waiting for jobs

Threads that call `resman_wait_job` and `resman_wait_any`, beside the clients and workers of the
system. `resman_wait_job` tests `pending`, reads the number of pending jobs and waits until it is
smaller, in three sections, and starts again; `resman_wait_any` reads the number and waits once. A
thread that waits for the condition variable may go on in any state in which its condition is met,
which covers every pattern of wakeups.

The target of a wait is one less than the number of jobs that has been read: `targets_iff` says when
it can be reached.
-/

namespace Resman.Manager

open Lib

/-- The position of a thread: before the test of `pending`, before the number of pending jobs is
read, in `resman_tpool_wait_pending`, and after the call. -/
inductive WaitPc where
  | test
  | count
  | wait (target : Int)
  | returned
  deriving DecidableEq, Repr

/-- A thread in `resman_wait_job`, with the resource that it waits for, or in `resman_wait_any`, and
the history when the call began. -/
structure Waiter where
  res : Option (MgrPtr × ResPtr)
  since : List Note
  pc : WaitPc

/-- The worker counts as active: from the section that takes a job to the one that follows it. -/
def Worker.active : Worker → Bool
  | taken _ | loading _ | loaded _ | finishing => true
  | idle | exited => false

/-- `resman_tpool_pending_jobs` -/
def Pool.pendingJobs (pool : Pool) : Nat := pool.queue.length + pool.workers.countP Worker.active

/-- The read of `res->pending` with the lock of the resource. -/
def testPending (s : Sys) (m : MgrPtr) (p : ResPtr) : Option Bool := do
  let c ← s.clients m
  if c.pc.locks p ∨ c.pc = .dead then none
  let r ← c.rman.heap p
  return r.pending

def Waiter.step (s : Sys) (w : Waiter) : Option Waiter :=
  match w.pc, w.res with
  | .test, some (m, p) => do
    let pending ← testPending s m p
    return { w with pc := if pending then .count else .returned }
  | .count, _ => some { w with pc := .wait (s.pool.pendingJobs - 1) }
  | .wait target, res =>
    if (s.pool.pendingJobs : Int) > target then none
    else some { w with pc := if res.isSome then .test else .returned }
  | .test, none | .returned, _ => none

/-- The system with its history and the threads that wait. -/
structure Waiting where
  base : Sys × List Note
  threads : Nat → Option Waiter

/-- The system takes a step, a thread calls `resman_wait_job` or `resman_wait_any`, or
it takes a step of the call. -/
inductive WaitAction where
  | base (a : Action)
  | waitJob (t : Nat) (m : MgrPtr) (id : Nat)
  | waitAny (t : Nat) (m : MgrPtr)
  | thread (t : Nat)

def Waiting.setThread (y : Waiting) (t : Nat) (w : Waiter) : Waiting :=
  { y with threads := Function.update y.threads t (some w) }

/-- A thread that is in no call begins one. -/
def Waiting.enter (y : Waiting) (t : Nat) (w : Waiter) : Option Waiting :=
  if (y.threads t).all (·.pc = .returned) then some (y.setThread t w) else none

def waitStep (y : Waiting) : WaitAction → Option Waiting
  | .base a => (trace y.base a).map fun base => { y with base }
  | .waitJob t m id => do
    let c ← y.base.1.clients m
    let p ← (← c.rman.res[id]?)
    y.enter t ⟨some (m, p), y.base.2, .test⟩
  | .waitAny t m => do
    let _ ← y.base.1.clients m
    y.enter t ⟨none, y.base.2, .count⟩
  | .thread t => do
    let w ← (← y.threads t).step y.base.1
    return y.setThread t w

/-- No thread waits yet. -/
def Waiting.initial (numThreads : Nat) : Waiting := ⟨(.initial numThreads, []), fun _ => none⟩

variable {y y' : Waiting} {t : Nat} {w w' : Waiter} {s : Sys} {target : Int}

/-! ## The cases of a step -/

inductive WaiterStep (s : Sys) (w : Waiter) : Waiter → Prop where
  | pending {m : MgrPtr} {p : ResPtr} (hpc : w.pc = .test) (hres : w.res = some (m, p))
      (htest : testPending s m p = some true) : WaiterStep s w { w with pc := .count }
  | clear {m : MgrPtr} {p : ResPtr} (hpc : w.pc = .test) (hres : w.res = some (m, p))
      (htest : testPending s m p = some false) : WaiterStep s w { w with pc := .returned }
  | count (hpc : w.pc = .count) : WaiterStep s w { w with pc := .wait (s.pool.pendingJobs - 1) }
  | ended {target : Int} {pc : WaitPc} (hpc : w.pc = .wait target)
      (htarget : (s.pool.pendingJobs : Int) ≤ target)
      (hpc' : pc = if w.res.isSome then .test else .returned) : WaiterStep s w { w with pc }

theorem waiter_step_cases (h : w.step s = some w') : WaiterStep s w w' := by
  obtain ⟨res, since, pc⟩ := w
  cases pc with
  | test =>
    cases res with
    | none => cases h
    | some mp =>
      obtain ⟨pending, htest, h⟩ := Option.bind_eq_some_iff.1 h
      obtain rfl := Option.some.inj h
      cases pending with
      | true => exact .pending rfl rfl htest
      | false => exact .clear rfl rfl htest
  | count =>
    obtain rfl := Option.some.inj h
    exact .count rfl
  | wait target =>
    simp only [Waiter.step] at h
    split at h
    · cases h
    · next hle =>
      obtain rfl := Option.some.inj h
      exact .ended rfl (Int.not_lt.1 hle) rfl
  | returned => cases h

/-- What an action does to the system and to the threads. -/
inductive WaitStep (y : Waiting) : WaitAction → Waiting → Prop where
  | base {a : Action} {base : Sys × List Note} (h : trace y.base a = some base) :
      WaitStep y (.base a) { y with base }
  | waitJob {t id : Nat} {m : MgrPtr} {p : ResPtr} :
      WaitStep y (.waitJob t m id) (y.setThread t ⟨some (m, p), y.base.2, .test⟩)
  | waitAny {t : Nat} {m : MgrPtr} :
      WaitStep y (.waitAny t m) (y.setThread t ⟨none, y.base.2, .count⟩)
  | thread {t : Nat} {w w' : Waiter} (ht : y.threads t = some w) (h : WaiterStep y.base.1 w w') :
      WaitStep y (.thread t) (y.setThread t w')

theorem enter_eq_some (h : y.enter t w = some y') : y' = y.setThread t w := by
  unfold Waiting.enter at h
  split at h
  · exact (Option.some.inj h).symm
  · cases h

theorem waitStep_cases {a : WaitAction} (h : waitStep y a = some y') : WaitStep y a y' := by
  cases a with
  | base a =>
    obtain ⟨base, hbase, rfl⟩ := Option.map_eq_some_iff.1 h
    exact .base hbase
  | waitJob t m id =>
    simp only [waitStep, Option.bind_eq_bind, Option.bind_eq_some_iff] at h
    obtain ⟨c, -, slot, -, p, -, h⟩ := h
    obtain rfl := enter_eq_some h
    exact .waitJob
  | waitAny t m =>
    simp only [waitStep, Option.bind_eq_bind, Option.bind_eq_some_iff] at h
    obtain ⟨c, -, h⟩ := h
    obtain rfl := enter_eq_some h
    exact .waitAny
  | thread t =>
    simp only [waitStep, Option.bind_eq_bind, Option.bind_eq_some_iff] at h
    obtain ⟨w, hw, w', hstep, h⟩ := h
    obtain rfl := Option.some.inj h
    exact .thread hw (waiter_step_cases hstep)

theorem setThread_eq_some {t' : Nat} (h : (y.setThread t w).threads t' = some w') :
    t' = t ∧ w' = w ∨ y.threads t' = some w' :=
  (update_eq_some.1 h).imp (fun h => ⟨h.1, (Option.some.inj h.2).symm⟩) And.right

/-! ## Targets -/

/-- A wait can end exactly when its target is not negative: then it ends once all jobs are done. -/
theorem wait_ends_iff (hpc : w.pc = .wait target) :
    (∃ s w', w.step s = some w') ↔ 0 ≤ target := by
  constructor
  · rintro ⟨s, w', h⟩
    cases waiter_step_cases h with
    | ended hpc' hle =>
      obtain rfl := WaitPc.wait.inj (hpc.symm.trans hpc')
      omega
    | pending hpc' | clear hpc' | count hpc' => cases hpc.symm.trans hpc'
  · intro hle
    have hzero : (Sys.initial 0).pool.pendingJobs = 0 := rfl
    exact ⟨.initial 0, _, by rw [Waiter.step, hpc]; simp [hzero, hle]; rfl⟩

/-- The target of every thread that waits is not negative, and the wait can end. -/
def TargetsReachable (y : Waiting) : Prop :=
  ∀ t w target, y.threads t = some w → w.pc = .wait target →
    0 ≤ target ∧ ∃ s w', w.step s = some w'

/-- A job is queued, or a worker is at work on one. -/
def Pool.Busy (pool : Pool) : Prop :=
  pool.queue ≠ [] ∨ ∃ worker ∈ pool.workers, worker.active = true

instance (pool : Pool) : Decidable pool.Busy := inferInstanceAs (Decidable (_ ∨ _))

theorem pendingJobs_pos_iff {pool : Pool} : 0 < pool.pendingJobs ↔ pool.Busy := by
  rw [Pool.pendingJobs, Nat.add_pos_iff_pos_or_pos, List.length_pos_iff, List.countP_pos_iff]
  rfl

/-- The pool is busy when a thread reads the number of pending jobs. -/
def CountsJobs (y : Waiting) : WaitAction → Prop
  | .thread t => ∀ w ∈ y.threads t, w.pc = .count → y.base.1.pool.Busy
  | .base _ | .waitJob .. | .waitAny .. => True

instance (y : Waiting) : ∀ a, Decidable (CountsJobs y a)
  | .thread t => inferInstanceAs (Decidable (∀ w ∈ y.threads t, w.pc = .count →
      y.base.1.pool.Busy))
  | .base _ | .waitJob .. | .waitAny .. => isTrue trivial

theorem TargetsReachable.set_iff (hI : TargetsReachable y) :
    TargetsReachable (y.setThread t w) ↔ ∀ target, w.pc = .wait target → 0 ≤ target := by
  constructor
  · exact fun h target hpc => (h t w target (Function.update_self ..) hpc).1
  · intro h t' w' target ht' hpc
    rcases setThread_eq_some ht' with ⟨-, rfl⟩ | hold
    · exact ⟨h target hpc, (wait_ends_iff hpc).2 (h target hpc)⟩
    · exact hI t' w' target hold hpc

theorem targetsReachable_step_iff {a : WaitAction} (hI : TargetsReachable y)
    (h : waitStep y a = some y') : TargetsReachable y' ↔ CountsJobs y a := by
  cases waitStep_cases h with
  | base => exact ⟨fun _ => trivial, fun _ => hI⟩
  | waitJob | waitAny => exact ⟨fun _ => trivial, fun _ => hI.set_iff.2 fun _ hpc => (by cases hpc)⟩
  | @thread t w w' ht hw =>
    rw [hI.set_iff]
    have hcounts : CountsJobs y (.thread t) ↔ (w.pc = .count → y.base.1.pool.Busy) :=
      ⟨fun h => h w ht, fun h w₁ hw₁ => Option.some.inj (ht.symm.trans hw₁) ▸ h⟩
    rw [hcounts]
    cases hw with
    | pending hpc | clear hpc =>
      exact ⟨fun _ heq => (by cases hpc.symm.trans heq), fun _ _ heq => (by cases heq)⟩
    | count hpc =>
      constructor
      · intro hle _
        have := hle _ rfl
        exact pendingJobs_pos_iff.1 (by omega)
      · rintro hbusy target heq
        obtain rfl := WaitPc.wait.inj heq
        have := pendingJobs_pos_iff.2 (hbusy hpc)
        omega
    | ended hpc _ hpc' =>
      refine ⟨fun _ heq => (by cases hpc.symm.trans heq), fun _ target heq => ?_⟩
      have heq : _ = WaitPc.wait target := hpc'.symm.trans heq
      split at heq <;> cases heq

/-- **Targets are never negative**, in the runs, and only in the runs, in which the pool is busy
whenever the number of pending jobs is read. -/
theorem targets_iff {numThreads : Nat} {as : List WaitAction}
    (h : exec waitStep (.initial numThreads) as = some y) :
    (∀ pre y, pre <+: as → exec waitStep (.initial numThreads) pre = some y → TargetsReachable y) ↔
      Along waitStep CountsJobs (.initial numThreads) as :=
  forall_prefix_iff_along (D := fun _ _ => True) (I := TargetsReachable) (fun _ hI => hI)
    (fun _ _ _ hI _ hC hs => (targetsReachable_step_iff hI hs).2 hC)
    (fun _ _ _ hI _ hC hs hgood => hC ((targetsReachable_step_iff hI hs).1 hgood))
    (fun _ _ _ ht => by cases ht) (along_true _ as) h

/-- A file is added, and a thread waits for its job from the time when `k` steps
of its load are done. -/
def waitsForJob (k : Nat) : List WaitAction :=
  [.base (.create 0 true false), .base (.call 0 (.add "a" 0 {}))] ++
  (clientSteps 0 {} 3).map .base ++ [.waitJob 0 0 0, .thread 0] ++ (workerSteps 0 {} k).map .base ++
  [.thread 0]

theorem targets_iff_waitsForJob :
    Along waitStep CountsJobs (.initial 1) (waitsForJob 4) ∧
      ∀ pre y, pre <+: waitsForJob 4 → exec waitStep (.initial 1) pre = some y →
        TargetsReachable y := by
  have hC : Along waitStep CountsJobs (.initial 1) (waitsForJob 4) := by decide +kernel
  have h := (Option.some_get
    (by decide +kernel : (exec waitStep (.initial 1) (waitsForJob 4)).isSome)).symm
  exact ⟨hC, (targets_iff h).2 hC⟩

/-- The job ends between the test of `pending` and the read of the number of jobs,
and the thread waits for ever. -/
theorem not_targets_waitsForJob :
    ¬ ∀ numThreads as y, exec waitStep (.initial numThreads) as = some y → TargetsReachable y := by
  intro hall
  have hrun : ((exec waitStep (.initial 1) (waitsForJob 5)).any fun y =>
      (y.threads 0).any fun w => w.pc = .wait (-1)) = true := by
    decide +kernel
  obtain ⟨y, hy, hrun⟩ := (Option.any_eq_true _ _).1 hrun
  obtain ⟨w, hw, hpc⟩ := (Option.any_eq_true _ _).1 hrun
  exact absurd (hall 1 _ y hy 0 w (-1) hw (of_decide_eq_true hpc)).1 (by decide)

end Resman.Manager
