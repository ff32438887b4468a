import Resman.TaskList.System

/-!
# The cases of a step on the list of tasks

`MainStep` and `WorkerStep` list what a thread can do in one step, with what it has read, and `Step`
what one action can do.
-/

namespace Resman.TaskList

open Lib Manager

variable {s s' s₁ : State} {a : Action} {w : Nat} {p : ResPtr} {t : TaskPtr} {pc pc' : WorkerPc}

inductive MainStep (s : State) : MainPc → State → Prop where
  | lock {p : ResPtr} (hfree : s.lock = none) :
      MainStep s (.lock p) { s with lock := some .main, main := .test p }
  | empty {p : ResPtr} (htasks : s.tasks = none) :
      MainStep s (.test p) { s with main := .malloc p }
  | test {p : ResPtr} (htasks : s.tasks ≠ none) : MainStep s (.test p) { s with main := .head p }
  | head {p : ResPtr} {t : TaskPtr} (ht : s.tasks = some t) :
      MainStep s (.head p) { s with main := .next p t }
  | next {p : ResPtr} {t : TaskPtr} {n : Option TaskPtr} (hn : s.link t = some n) :
      MainStep s (.next p t) { s with main := .store p t n }
  | store {p : ResPtr} {t : TaskPtr} {n : Option TaskPtr} :
      MainStep s (.store p t n) { s with tasks := n, main := .unlock p t }
  | malloc {p : ResPtr} :
      MainStep s (.malloc p) { s with
        mem := Function.update s.mem s.ntasks (some ⟨none, none⟩)
        ntasks := s.ntasks + 1
        main := .unlock p s.ntasks }
  | unlock {p : ResPtr} {t : TaskPtr} :
      MainStep s (.unlock p t) { s with lock := none, main := .setRes p t }
  | setRes {p : ResPtr} {t : TaskPtr} {task : Task} (ht : s.mem t = some task) :
      MainStep s (.setRes p t) { s with
        mem := Function.update s.mem t (some { task with res := some p })
        main := .enqueue t }
  | enqueue {t : TaskPtr} :
      MainStep s (.enqueue t) { s with queue := s.queue ++ [t], main := .idle }
  | drop {t : TaskPtr} :
      MainStep s (.enqueue t) { s with dropped := t :: s.dropped, main := .idle }

theorem mainStep_cases {mem : Bool} (h : mainStep s mem = some s') : MainStep s s.main s' := by
  unfold mainStep at h
  generalize s.main = pc at h ⊢
  split at h
  · cases h
  · split at h
    · next hfree =>
      obtain rfl := Option.some.inj h
      exact .lock hfree
    · cases h
  · obtain rfl := Option.some.inj h
    split
    · next htasks => exact .empty htasks
    · next htasks => exact .test htasks
  · obtain ⟨t, ht, rfl⟩ := Option.map_eq_some_iff.1 h
    exact .head ht
  · simp only [Option.bind_eq_bind, Option.bind_eq_some_iff] at h
    obtain ⟨task, ht, n, hn, h⟩ := h
    obtain rfl := Option.some.inj h
    exact .next (Option.bind_eq_some_iff.2 ⟨task, ht, hn⟩)
  · obtain rfl := Option.some.inj h
    exact .store
  · split at h
    · obtain rfl := Option.some.inj h
      exact .malloc
    · cases h
  · obtain rfl := Option.some.inj h
    exact .unlock
  · simp only [Option.bind_eq_bind, Option.bind_eq_some_iff] at h
    obtain ⟨task, ht, h⟩ := h
    obtain rfl := Option.some.inj h
    exact .setRes ht
  · obtain rfl := Option.some.inj h
    split
    · exact .enqueue
    · exact .drop

/-- The state that a worker's step leaves, but for the position of the worker. -/
inductive WorkerStep (s : State) (w : Nat) : WorkerPc → WorkerPc → State → Prop where
  | take {t : TaskPtr} {queue : List TaskPtr} (hq : s.queue = t :: queue) :
      WorkerStep s w .idle (.start t) { s with queue }
  | start {t : TaskPtr} {p : ResPtr} : WorkerStep s w (.start t) (.lock t p) s
  | lock {t : TaskPtr} {p : ResPtr} (hfree : s.resLock p = none) :
      WorkerStep s w (.lock t p) (.head t p)
        { s with resLock := Function.update s.resLock p (some (.worker w)) }
  | head {t : TaskPtr} {p : ResPtr} : WorkerStep s w (.head t p) (.link t p s.tasks) s
  | link {t : TaskPtr} {p : ResPtr} {h : Option TaskPtr} {task : Task} (ht : s.mem t = some task) :
      WorkerStep s w (.link t p h) (.store t p)
        { s with mem := Function.update s.mem t (some { task with next := some h }) }
  | store {t : TaskPtr} {p : ResPtr} :
      WorkerStep s w (.store t p) (.unlock p) { s with tasks := some t }
  | unlock {p : ResPtr} :
      WorkerStep s w (.unlock p) (.load p) { s with resLock := Function.update s.resLock p none }
  | load {p : ResPtr} : WorkerStep s w (.load p) (.lockDone p) s
  | lockDone {p : ResPtr} (hfree : s.resLock p = none) :
      WorkerStep s w (.lockDone p) (.unlockDone p)
        { s with resLock := Function.update s.resLock p (some (.worker w)) }
  | unlockDone {p : ResPtr} :
      WorkerStep s w (.unlockDone p) .idle { s with resLock := Function.update s.resLock p none }

theorem workerStep_cases (h : workerStep s w pc = some s') :
    ∃ pc' s₁, WorkerStep s w pc pc' s₁ ∧ s' = s₁.setWorker w pc' := by
  unfold workerStep at h
  split at h
  · split at h
    · cases h
    · next hq => exact ⟨_, _, .take hq, (Option.some.inj h).symm⟩
  · simp only [Option.bind_eq_bind, Option.bind_eq_some_iff] at h
    obtain ⟨task, -, p, -, h⟩ := h
    exact ⟨_, _, .start, (Option.some.inj h).symm⟩
  · split at h
    · next hfree => exact ⟨_, _, .lock hfree, (Option.some.inj h).symm⟩
    · cases h
  · exact ⟨_, _, .head, (Option.some.inj h).symm⟩
  · simp only [Option.bind_eq_bind, Option.bind_eq_some_iff] at h
    obtain ⟨task, ht, h⟩ := h
    exact ⟨_, _, .link ht, (Option.some.inj h).symm⟩
  · exact ⟨_, _, .store, (Option.some.inj h).symm⟩
  · exact ⟨_, _, .unlock, (Option.some.inj h).symm⟩
  · exact ⟨_, _, .load, (Option.some.inj h).symm⟩
  · split at h
    · next hfree => exact ⟨_, _, .lockDone hfree, (Option.some.inj h).symm⟩
    · cases h
  · exact ⟨_, _, .unlockDone, (Option.some.inj h).symm⟩

/-- What an action does. -/
inductive Step (s : State) : Action → State → Prop where
  | reload {p : ResPtr} (hidle : s.main = .idle) : Step s (.reload p) { s with main := .lock p }
  | main {mem : Bool} {s' : State} (h : MainStep s s.main s') : Step s (.main mem) s'
  | worker {w : Nat} {pc pc' : WorkerPc} {s₁ : State} (hw : s.workers[w]? = some pc)
      (h : WorkerStep s w pc pc' s₁) : Step s (.worker w) (s₁.setWorker w pc')

theorem step_cases (h : step s a = some s') : Step s a s' := by
  cases a with
  | reload p =>
    simp only [step] at h
    split at h
    · next hidle =>
      obtain rfl := Option.some.inj h
      exact .reload hidle
    · cases h
  | main mem => exact .main (mainStep_cases h)
  | worker w =>
    simp only [step, Option.bind_eq_bind, Option.bind_eq_some_iff] at h
    obtain ⟨pc, hw, h⟩ := h
    obtain ⟨pc', s₁, hstep, rfl⟩ := workerStep_cases h
    exact .worker hw hstep

end Resman.TaskList
