import Resman.Lib.Chain
import Resman.Lib.Exclusion
import Resman.Lib.Run
import Resman.Lib.Tally
import Resman.Manager.Basic

/-!
# Threads at the list of tasks

The main thread calls `resman_reload` again and again, for any resource, and the workers run
`work_func`. `alloc_task` and `free_task` are split here into their accesses to memory: a step reads
or writes one location, locks or unlocks a mutex, or goes on without either. `resman_reload` calls
`alloc_task` with the lock of the manager and `work_func` calls `free_task` with the lock of the
resource.

* `Task` is a block of memory, and `tasks` the head of the free list that runs through `next`.
* `MainPc` and `WorkerPc` are the positions in `resman_reload` and in `work_func`.
* What the two functions do to the resource is left to `Resman.Manager.System`, and the queue of the
  pool is a list: `resman_tpool_enqueue` and `thread_func` are one step each.
-/

namespace Resman.TaskList

open Lib Manager

inductive Thread where
  | main
  | worker (w : Nat)
  deriving DecidableEq, Repr

/-- `struct task`, without its manager. A field is none until it is written. -/
structure Task where
  res : Option ResPtr
  next : Option (Option TaskPtr)
  deriving DecidableEq, Repr

/-- The position of the main thread:
* `lock`, `unlock` in `resman_reload`: before the mutex of the manager is locked, before it is
  unlocked;
* `test`, `head`, `next`, `store` in `alloc_task`: before the test of `rman->tasks`, before this is
  read again, before `res->next` is read, before `rman->tasks` is written;
* `malloc` in `alloc_task`, when the list is empty;
* `setRes`, `enqueue` in `resman_reload`: before `work->res` is written, before
  `resman_tpool_enqueue`. -/
inductive MainPc where
  | idle
  | lock (p : ResPtr)
  | test (p : ResPtr)
  | head (p : ResPtr)
  | next (p : ResPtr) (t : TaskPtr)
  | store (p : ResPtr) (t : TaskPtr) (n : Option TaskPtr)
  | malloc (p : ResPtr)
  | unlock (p : ResPtr) (t : TaskPtr)
  | setRes (p : ResPtr) (t : TaskPtr)
  | enqueue (t : TaskPtr)
  deriving DecidableEq, Repr

/-- The position of a worker:
* `start` in `work_func`: before `work->res` is read;
* `lock`, `unlock` in `work_func`: before the mutex of the resource is locked for `free_task`,
  before it is unlocked;
* `head`, `link`, `store` in `free_task`: before `rman->tasks` is read, before `w->next` is written,
  before `rman->tasks` is written;
* `load` in `load_func`, `lockDone` and `unlockDone` around the section after it. -/
inductive WorkerPc where
  | idle
  | start (t : TaskPtr)
  | lock (t : TaskPtr) (p : ResPtr)
  | head (t : TaskPtr) (p : ResPtr)
  | link (t : TaskPtr) (p : ResPtr) (h : Option TaskPtr)
  | store (t : TaskPtr) (p : ResPtr)
  | unlock (p : ResPtr)
  | load (p : ResPtr)
  | lockDone (p : ResPtr)
  | unlockDone (p : ResPtr)
  deriving DecidableEq, Repr

/-- `lock` is the mutex of the manager and `resLock` those of the resources, with the thread
that holds them; `ntasks` tasks have been allocated so far, and `dropped` are those whose work
item could not be allocated. -/
structure State where
  mem : TaskPtr → Option Task
  tasks : Option TaskPtr
  ntasks : Nat
  lock : Option Thread
  resLock : ResPtr → Option Thread
  queue : List TaskPtr
  dropped : List TaskPtr
  main : MainPc
  workers : List WorkerPc

def State.initial (numThreads : Nat) : State where
  mem _ := none
  tasks := none
  ntasks := 0
  lock := none
  resLock _ := none
  queue := []
  dropped := []
  main := .idle
  workers := List.replicate numThreads .idle

/-- The next step of `resman_reload`, and whether an allocation succeeds. -/
def mainStep (s : State) (mem : Bool) : Option State :=
  match s.main with
  | .idle => none
  | .lock p => if s.lock = none then some { s with lock := some .main, main := .test p } else none
  | .test p => some { s with main := if s.tasks = none then .malloc p else .head p }
  | .head p => s.tasks.map fun t => { s with main := .next p t }
  | .next p t => do
    let task ← s.mem t
    let n ← task.next
    return { s with main := .store p t n }
  | .store p t n => some { s with tasks := n, main := .unlock p t }
  | .malloc p =>
    -- the program aborts when there is no memory
    if mem then
      some { s with
        mem := Function.update s.mem s.ntasks (some ⟨none, none⟩)
        ntasks := s.ntasks + 1
        main := .unlock p s.ntasks }
    else none
  | .unlock p t => some { s with lock := none, main := .setRes p t }
  | .setRes p t => do
    let task ← s.mem t
    return { s with
      mem := Function.update s.mem t (some { task with res := some p })
      main := .enqueue t }
  | .enqueue t =>
    -- the return value of `resman_tpool_enqueue` is ignored
    some (if mem then { s with queue := s.queue ++ [t], main := .idle }
      else { s with dropped := t :: s.dropped, main := .idle })

def State.setWorker (s : State) (w : Nat) (pc : WorkerPc) : State :=
  { s with workers := s.workers.set w pc }

/-- The next step of a worker in `thread_func` and `work_func`. -/
def workerStep (s : State) (w : Nat) : WorkerPc → Option State
  | .idle =>
    match s.queue with
    | [] => none
    | t :: queue => some ({ s with queue }.setWorker w (.start t))
  | .start t => do
    let task ← s.mem t
    let p ← task.res
    return s.setWorker w (.lock t p)
  | .lock t p =>
    if s.resLock p = none then
      some ({ s with resLock := Function.update s.resLock p (some (.worker w)) }.setWorker w
        (.head t p))
    else none
  | .head t p => some (s.setWorker w (.link t p s.tasks))
  | .link t p h => do
    let task ← s.mem t
    return { s with mem := Function.update s.mem t (some { task with next := some h }) }.setWorker w
      (.store t p)
  | .store t p => some ({ s with tasks := some t }.setWorker w (.unlock p))
  | .unlock p =>
    some ({ s with resLock := Function.update s.resLock p none }.setWorker w (.load p))
  | .load p => some (s.setWorker w (.lockDone p))
  | .lockDone p =>
    if s.resLock p = none then
      some ({ s with resLock := Function.update s.resLock p (some (.worker w)) }.setWorker w
        (.unlockDone p))
    else none
  | .unlockDone p =>
    some ({ s with resLock := Function.update s.resLock p none }.setWorker w .idle)

/-- The main thread calls `resman_reload`, or a thread takes its next step. -/
inductive Action where
  | reload (p : ResPtr)
  | main (mem : Bool)
  | worker (w : Nat)
  deriving DecidableEq, Repr

def step (s : State) : Action → Option State
  | .reload p => if s.main = .idle then some { s with main := .lock p } else none
  | .main mem => mainStep s mem
  | .worker w => do
    let pc ← s.workers[w]?
    workerStep s w pc

/-! ## Who is where -/

/-- The main thread is inside `alloc_task`. -/
def MainPc.allocates : MainPc → Bool
  | test _ | head _ | next .. | store .. | malloc _ => true
  | idle | lock _ | unlock .. | setRes .. | enqueue _ => false

/-- The resource with whose lock the worker is inside `free_task`. -/
def WorkerPc.frees : WorkerPc → Option ResPtr
  | head _ p | link _ p _ | store _ p => some p
  | idle | start _ | lock .. | unlock _ | load _ | lockDone _ | unlockDone _ => none

/-- The main thread is about to lock the mutex under which it calls `alloc_task`. -/
def MainPc.enters : MainPc → Bool
  | lock _ => true
  | idle | test _ | head _ | next .. | store .. | malloc _ | unlock .. | setRes .. | enqueue _ =>
    false

/-- The resource whose mutex the worker is about to lock to call `free_task`. -/
def WorkerPc.enters : WorkerPc → Option ResPtr
  | lock _ p => some p
  | idle | start _ | head .. | link .. | store .. | unlock _ | load _ | lockDone _
  | unlockDone _ => none

/-- The resource whose lock the worker holds. -/
def WorkerPc.holds : WorkerPc → Option ResPtr
  | head _ p | link _ p _ | store _ p | unlock p | unlockDone p => some p
  | idle | start _ | lock .. | load _ | lockDone _ => none

/-- The task that the main thread holds: the one taken from the list or allocated, up to the
enqueueing of its work item. -/
def MainPc.task : MainPc → Option TaskPtr
  | unlock _ t | setRes _ t | enqueue t => some t
  | idle | lock _ | test _ | head _ | next .. | store .. | malloc _ => none

/-- The task that the worker holds: the data of its job, up to the write that
puts it on the list. -/
def WorkerPc.task : WorkerPc → Option TaskPtr
  | start t | lock t _ | head t _ | link t _ _ | store t _ => some t
  | idle | unlock _ | load _ | lockDone _ | unlockDone _ => none

/-- The functions on the list that a thread is inside of. -/
inductive Section where
  | allocTask
  | freeTask
  deriving DecidableEq, Repr

def MainPc.inside (pc : MainPc) : Option Section := if pc.allocates then some .allocTask else none

def WorkerPc.inside (pc : WorkerPc) : Option Section := pc.frees.map fun _ => .freeTask

def State.inside (s : State) : Thread → Option Section
  | .main => s.main.inside
  | .worker w => s.workers[w]?.bind WorkerPc.inside

/-- The link of a task. -/
def State.link (s : State) (t : TaskPtr) : Option (Option TaskPtr) := (s.mem t).bind Task.next

/-- In how many places the task is: on the free list `l`, in the hands of the main thread, of a
queued work item or of a worker, or dropped. -/
def State.places (s : State) (l : List TaskPtr) (t : TaskPtr) : Nat :=
  l.count t + (if s.main.task = some t then 1 else 0) + s.queue.count t +
    s.workers.countP (·.task = some t) + s.dropped.count t

/-- The free list is a chain, and every task is in one place: nothing is lost and
nothing is handed out twice. -/
def State.Sound (s : State) : Prop :=
  ∃ l, Chain s.link s.tasks l ∧ ∀ t, s.places l t = if t < s.ntasks then 1 else 0

/-- No two threads are inside `alloc_task` or `free_task`. -/
def State.Alone (s : State) : Prop := Exclusive (fun _ _ => True) s.inside

/-- The main thread locks the mutex of the manager only when no worker is inside `free_task`, and a
worker locks the mutex of a resource to call `free_task` only when the main thread is not inside
`alloc_task` and no worker is inside `free_task` with the lock of another resource. -/
def EntersAlone (s : State) : Action → Prop
  | .reload _ => True
  | .main _ => s.main.enters = true → ∀ pc ∈ s.workers, pc.frees = none
  | .worker w => ∀ pc ∈ s.workers[w]?, ∀ p ∈ pc.enters,
      s.main.allocates = false ∧ ∀ pc' ∈ s.workers, ∀ q ∈ pc'.frees, q = p

instance (s : State) : ∀ a, Decidable (EntersAlone s a)
  | .reload _ => isTrue trivial
  | .main _ =>
    inferInstanceAs (Decidable (s.main.enters = true → ∀ pc ∈ s.workers, pc.frees = none))
  | .worker w => inferInstanceAs (Decidable (∀ pc ∈ s.workers[w]?, ∀ p ∈ pc.enters,
      s.main.allocates = false ∧ ∀ pc' ∈ s.workers, ∀ q ∈ pc'.frees, q = p))

end Resman.TaskList
