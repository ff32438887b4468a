import Resman.Lib.Run
import Resman.Manager.Basic

/-!
# Managers, workers and the shared pool

Every manager is driven by one thread, its client; the workers of the pool run the load jobs of all
of them. An action is one step of a client or of a worker: a section that holds a lock, the call of
a callback, or an access to a flag outside of any lock. Clients and workers interleave in any order.

* `Pc` is the position of a client inside a call of the interface, `clientStep` its next step. The
  resource lock is held at `doneCall` only; all other sections with a lock are single steps.
* `Worker` is the position of a worker: `workerStep` takes the first job of the queue, returns its
  task to the free list, runs `load_func` (from `loading` to `loaded`), and runs the last section of
  `work_func`.
* The queue is the list of jobs from the head of `workq` on; `resman_tpool_clear` and
  `resman_tpool_enqueue` are its operations here. That a worker may test the queue at any time
  covers every pattern of wakeups.

A flag that is read outside of a lock is thus read between the sections that hold it. `resman_poll`
tests `delete_pending` and `pending` without the lock and may do so inside of the last section of
`work_func`, after `pending` has been cleared: it may then remove a resource whose lock the worker
still holds, and `resman_reload` may enqueue the next job there. That race is outside of this model.
-/

namespace Resman.Manager

open Rb

abbrev MgrPtr := Nat

/-- A queued work item: its data is a task, with the manager and the resource that it names. -/
structure Job where
  task : TaskPtr
  rman : MgrPtr
  res : ResPtr
  deriving DecidableEq, Repr

/-- Where a client goes on after `resman_reload` or `remove_resource`. -/
inductive Cont where
  | add
  | modset (wds : List (BitVec 32))
  | del (i : Nat)
  | done (startTime i : Nat)
  deriving DecidableEq, Repr

/-- The position of a client:
* `reloadTask`, `reloadFlag`, `reloadEnq` in `resman_reload`: before `alloc_task`, before the write
  of `pending`, before `resman_tpool_enqueue`;
* `delScan`, `delTest`, `delCall` in the deletion loop of `resman_poll`: before the test of
  `delete_pending`, before that of `pending`, before `destroy_func`;
* `rmStop`, `rmCall`, `rmFree` in `remove_resource`: at its start, before `destroy_func`, after it;
* `watch`, `modset` in `resman_check_watch`: in the loop over events, in the loop over the modified
  set;
* `drain`, `doneStart` in `resman_poll`: before the event pipe is emptied, before the test of
  `done_func`;
* `doneScan`, `doneReload`, `doneCall` in the last loop of `resman_poll`: before the locked section
  of a slot, before an expired reload, in `done_func` with the lock held;
* `destroyScan`, `destroyCall`, `destroyFree` in the loop of `resman_destroy`, `destroyRelease`
  after it;
* `poolClear`, `poolQuit`, `poolJoin` in `resman_tpool_destroy`;
* `dead` after the manager has been freed. -/
inductive Pc where
  | idle
  | reloadTask (p : ResPtr) (k : Cont)
  | reloadFlag (p : ResPtr) (t : TaskPtr) (k : Cont)
  | reloadEnq (p : ResPtr) (t : TaskPtr) (k : Cont)
  | delScan (i : Nat)
  | delTest (i : Nat) (p : ResPtr)
  | delCall (i : Nat) (p : ResPtr)
  | rmStop (i : Nat) (p : ResPtr) (k : Cont)
  | rmCall (i : Nat) (p : ResPtr) (k : Cont)
  | rmFree (i : Nat) (p : ResPtr) (k : Cont)
  | watch (msec : Nat)
  | modset (wds : List (BitVec 32))
  | drain
  | doneStart
  | doneScan (startTime i : Nat)
  | doneReload (startTime i : Nat) (p : ResPtr)
  | doneCall (startTime i : Nat) (p : ResPtr)
  | destroyScan (i : Nat)
  | destroyCall (i : Nat) (p : ResPtr)
  | destroyFree (i : Nat) (p : ResPtr)
  | destroyRelease
  | poolClear
  | poolQuit
  | poolJoin
  | dead
  deriving DecidableEq, Repr

def Cont.resume : Cont → Pc
  | add => .idle
  | modset wds => .modset wds
  | del i => .delScan i
  | done startTime i => .doneScan startTime i

structure Client where
  rman : Rman
  pc : Pc

/-- The position of a worker in `thread_func` and `work_func`. -/
inductive Worker where
  | idle
  | taken (j : Job)
  | loading (j : Job)
  | loaded (j : Job)
  | finishing
  | exited
  deriving DecidableEq, Repr

/-- The job that a worker executes, from the section that takes it to the end of `work_func`. -/
def Worker.job : Worker → Option Job
  | taken j | loading j | loaded j => some j
  | idle | finishing | exited => none

/-- The pool, with the number of bytes in its event pipe. -/
structure Pool where
  queue : List Job
  workers : List Worker
  nref : Int
  shouldQuit : Bool
  joined : Bool
  pipe : Nat
  deriving DecidableEq, Repr

structure Sys where
  clients : MgrPtr → Option Client
  pool : Pool

/-- No manager yet, and the number of threads that the pool will have. -/
def Sys.initial (numThreads : Nat) : Sys :=
  ⟨fun _ => none, ⟨[], List.replicate numThreads .idle, 0, false, false, 0⟩⟩

/-! ## Steps of a client -/

/-- The keys of the modified set, in the order of `rb_foreach`. -/
def modifiedKeys (rman : Rman) : List (BitVec 32) :=
  (rbForeach rman.modset).map fun node => ptr2int node.1

/-- One iteration of the deletion loop, up to the test of `pending`. -/
def delScan (rman : Rman) (i : Nat) (o : Oracle) : Option Pc :=
  match rman.res[i]? with
  | none => some (.watch o.now)
  | some none => some (.delScan (i + 1))
  | some (some p) => do
    let r ← rman.heap p
    return if r.deletePending then .delTest i p else .delScan (i + 1)

/-- `reload_modified` up to the call of `resman_reload`. -/
def reloadModified (rman : Rman) (wd : BitVec 32) (wds : List (BitVec 32)) : Option Pc :=
  match rbFindi rman.nresmap wd with
  | none => some (.modset wds)
  | some p => do
    let r ← rman.heap p
    -- `assert(watch_fd == res->nfd)`
    if wd = r.nfd then return .reloadTask p (.modset wds) else none

/-- The locked section at the head of an iteration of the done loop. -/
def doneScan (rman : Rman) (startTime i : Nat) : Option (Rman × Pc) :=
  match rman.res[i]? with
  | none => some (rman, .idle)
  | some none => some (rman, .doneScan startTime (i + 1))
  | some (some p) => do
    let r ← rman.heap p
    if r.donePending then
      let rman ← rman.update p fun r => { r with donePending := false }
      return (rman, .doneCall startTime i p)
    else if r.reloadTimeout ≠ 0 ∧ r.reloadTimeout ≤ startTime then
      return (rman, .doneReload startTime i p)
    else return (rman, .doneScan startTime (i + 1))

/-- `resman_get_time_msec() - start_time`, a difference of two `unsigned long`. -/
def elapsed (startTime now : Nat) : Nat := (((now : Int) - startTime) % 2 ^ 64).toNat

/-- `done_func` returns, and the iteration goes on to its end. -/
def doneReturn (rman : Rman) (startTime i : Nat) (p : ResPtr) (o : Oracle) :
    Option (Rman × Pc) := do
  let r ← rman.heap p
  if o.ret = -1 ∧ r.numLoads = 0 then return (rman, .rmStop i p (.done startTime (i + 1)))
  let rman ← rman.update p fun r => { r with numLoads := r.numLoads + 1 }
  let (rman, _) ← startWatch rman p o
  -- the timeslice is spent
  if 0 < rman.timeslice ∧ rman.timeslice < elapsed startTime o.now then return (rman, .idle)
  return (rman, .doneScan startTime (i + 1))

/-- The step of a client that does not touch the pool. -/
def localStep (rman : Rman) (o : Oracle) : Pc → Option (Rman × Pc)
  | .reloadTask p k =>
    let (rman, t) := allocTask rman
    some (rman, .reloadFlag p t k)
  | .reloadFlag p t k =>
    (rman.update p fun r => { r with pending := true }).map (·, .reloadEnq p t k)
  | .delScan i => (delScan rman i o).map (rman, ·)
  | .delTest i p =>
    (rman.heap p).map fun r => (rman, if r.pending then .delScan (i + 1) else .delCall i p)
  | .delCall i p => some (callDestroy rman i, .rmStop i p (.del (i + 1)))
  | .rmStop i p k => (stopWatch rman p).map (·, .rmCall i p k)
  | .rmCall i p k => some (callDestroy rman i, .rmFree i p k)
  | .rmFree i p k => (freeResource rman i p).map (·, k.resume)
  | .watch msec =>
    match o.event with
    | some ev => (handleEvent rman msec ev o).map (·, .watch msec)
    | none => some (rman, .modset (modifiedKeys rman))
  | .modset [] => some ({ rman with modset := rbClear rman.modset }, .drain)
  | .modset (wd :: wds) => (reloadModified rman wd wds).map (rman, ·)
  | .doneStart => some (rman, if rman.doneFunc then .doneScan o.now 0 else .idle)
  | .doneScan startTime i => doneScan rman startTime i
  | .doneReload startTime i p =>
    (rman.update p fun r => { r with reloadTimeout := 0 }).map
      (·, .reloadTask p (.done startTime (i + 1)))
  | .doneCall startTime i p => doneReturn rman startTime i p o
  | .destroyScan i =>
    match rman.res[i]? with
    | none => some (rman, .destroyRelease)
    | some none => some (rman, .destroyScan (i + 1))
    | some (some p) => some (rman, .destroyCall i p)
  | .destroyCall i p => some (callDestroy rman i, .destroyFree i p)
  | .destroyFree i p => do
    let _ ← rman.heap p
    some ({ rman with heap := Function.update rman.heap p none, log := .freed p :: rman.log },
      .destroyScan (i + 1))
  | .idle | .reloadEnq .. | .drain | .destroyRelease | .poolClear | .poolQuit | .poolJoin | .dead =>
    none

/-- The step of the client of manager `m` that touches the pool. -/
def poolStep (m : MgrPtr) (pool : Pool) (o : Oracle) : Pc → Option (Pool × Pc)
  | .reloadEnq p t k =>
    -- the return value of `resman_tpool_enqueue` is ignored
    some (if o.mem then { pool with queue := pool.queue ++ [⟨t, m, p⟩] } else pool, k.resume)
  | .drain => some ({ pool with pipe := 0 }, .doneStart)
  | .destroyRelease =>
    some ({ pool with nref := pool.nref - 1 }, if pool.nref - 1 ≤ 0 then .poolClear else .dead)
  | .poolClear => some ({ pool with queue := [] }, .poolQuit)
  | .poolQuit => some ({ pool with shouldQuit := true }, .poolJoin)
  | .poolJoin =>
    if pool.workers.all (· = .exited) ∧ ¬ pool.joined then
      some ({ pool with joined := true }, .dead)
    else none
  | _ => none

/-! ## Steps of a worker -/

/-- The lock of a resource is held by the client. -/
def Pc.locks (p : ResPtr) : Pc → Bool
  | doneCall _ _ q => p = q
  | _ => false

/-- A section of `work_func` that holds the lock of the resource. -/
def lockedSection (c : Client) (p : ResPtr) (f : Rman → Option Rman) : Option Client :=
  if c.pc.locks p ∨ c.pc = .dead ∨ c.rman.heap p = none then none
  else (f c.rman).map fun rman => { c with rman }

/-- The effect of a worker's step on the manager of its job, and the worker afterwards. -/
def workStep (c : Client) (o : Oracle) : Worker → Option (Client × Worker)
  | .taken j =>
    (lockedSection c j.res fun rman => some (freeTask rman j.task)).map (·, .loading j)
  | .loading j =>
    if c.pc = .dead then none
    else (c.rman.update j.res fun r => { r with result := o.ret }).map
      fun rman => ({ c with rman }, .loaded j)
  | .loaded j => (lockedSection c j.res fun rman => workDone rman j.res o).map (·, .finishing)
  | .idle | .finishing | .exited => none

def Pool.setWorker (pool : Pool) (w : Nat) (wk : Worker) : Pool :=
  { pool with workers := pool.workers.set w wk }

def workerStep (s : Sys) (w : Nat) (o : Oracle) : Option Sys := do
  let wk ← s.pool.workers[w]?
  match wk with
  | .idle =>
    if s.pool.shouldQuit then return { s with pool := s.pool.setWorker w .exited }
    match s.pool.queue with
    | [] => none
    | j :: queue => return { s with pool := { s.pool with queue }.setWorker w (.taken j) }
  | .finishing =>
    -- the completion event is written
    return { s with pool := { s.pool with pipe := s.pool.pipe + 1 }.setWorker w .idle }
  | .taken j | .loading j | .loaded j =>
    let c ← s.clients j.rman
    let (c, wk) ← workStep c o wk
    return ⟨Function.update s.clients j.rman (some c), s.pool.setWorker w wk⟩
  | .exited => none

/-! ## The system -/

/-- A call of the interface. -/
inductive Call where
  | setopt (timeslice : Nat)
  | add (fname : String) (data : Nat) (mem : AddMem)
  | find (fname : String)
  | remove (id : Nat)
  | poll
  | destroy
  deriving DecidableEq, Repr

/-- The first step of a call. -/
def callStep (rman : Rman) : Call → Option (Rman × Pc)
  | .setopt timeslice => some ({ rman with timeslice }, .idle)
  | .add fname data mem => do
    let idx ← findResource rman fname
    if idx ≠ -1 then return (rman, .idle)
    match ← addResource rman fname data mem with
    | (rman, none) => return (rman, .idle)
    | (rman, some p) => return (rman, .reloadTask p .add)
  | .find fname => (findResource rman fname).map fun _ => (rman, .idle)
  | .remove id => do
    let p ← (← rman.res[id]?)
    let rman ← rman.update p fun r => { r with deletePending := true }
    return (rman, .idle)
  | .poll => some (rman, .delScan 0)
  | .destroy => some (rman, .destroyScan 0)

/-- A manager is created, its client makes a call or takes a step of the one it is in, or a worker
takes a step. -/
inductive Action where
  | create (m : MgrPtr) (doneFunc destroyFunc : Bool)
  | call (m : MgrPtr) (f : Call)
  | client (m : MgrPtr) (o : Oracle)
  | worker (w : Nat) (o : Oracle)

def step (s : Sys) : Action → Option Sys
  | .create m doneFunc destroyFunc =>
    match s.clients m with
    | some _ => none
    | none =>
      some ⟨Function.update s.clients m (some ⟨.init doneFunc destroyFunc, .idle⟩),
        { s.pool with nref := s.pool.nref + 1 }⟩
  | .call m f => do
    let c ← s.clients m
    if c.pc = .idle then
      let (rman, pc) ← callStep c.rman f
      return { s with clients := Function.update s.clients m (some ⟨rman, pc⟩) }
    else none
  | .client m o => do
    let c ← s.clients m
    match localStep c.rman o c.pc with
    | some (rman, pc) => return { s with clients := Function.update s.clients m (some ⟨rman, pc⟩) }
    | none =>
      let (pool, pc) ← poolStep m s.pool o c.pc
      return ⟨Function.update s.clients m (some { c with pc }), pool⟩
  | .worker w o => workerStep s w o

/-- The client of `m` takes `k` steps in a row, with the same answers from outside. -/
def clientSteps (m : MgrPtr) (o : Oracle) (k : Nat) : List Action := List.replicate k (.client m o)

def workerSteps (w : Nat) (o : Oracle) (k : Nat) : List Action := List.replicate k (.worker w o)

end Resman.Manager
