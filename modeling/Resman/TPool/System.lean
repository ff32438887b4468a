import Resman.Lib.Run
import Resman.TPool.Basic

/-!
# Threads on thread pools

Any number of threads call the functions of any number of pools, and every pool has its workers. An
action is one step of a caller or of a worker: a section that holds `workq_mutex` or the lock of the
free list, a read or write outside of any lock, a broadcast, or the return of a callback. Sections
of callers are single steps. A worker that holds the mutex may be overtaken between its test of
`should_quit` and its wait, and it may block in `send_done_event`, so these points have positions of
their own.

* `callStep` is the first step of a call, `callerStep` the next step of a caller, `workerStep` that
  of a worker. `capacity` is the number of bytes that an event pipe holds.
* A waiting thread may wake up at any time, signalled or not, as POSIX allows.
-/

namespace Resman.TPool

open Lib

/-- What a caller waits for: no pending job, at most `target` pending jobs, or no
pending job until a timeout. -/
inductive Wait where
  | all
  | pending (target : Int)
  | timed
  deriving DecidableEq, Repr

/-- The position of a caller inside a function of the pool:
* `enqAlloc`, `enqMalloc`, `enqLink`, `enqTest`, `enqBroadcast` in `resman_tpool_enqueue`: before
  the free list is tried, before `malloc`, before the locked section, before the test of `in_batch`,
  before the broadcast;
* `endBroadcast` in `resman_tpool_end_batch` after the write of `in_batch`;
* `waitTest`, `waiting` in `resman_tpool_wait` and its relatives: before the mutex is locked,
  blocked on `done_condvar`;
* `destroyQuit`, `destroyBroadcast`, `destroyJoin`, `destroyEvent` in `resman_tpool_destroy`: before
  the write of `should_quit`, before the broadcast, before the workers are joined, before
  `send_done_event`. -/
inductive Position where
  | enqAlloc (job : Job)
  | enqMalloc (job : Job)
  | enqLink (a : ItemPtr)
  | enqTest
  | enqBroadcast
  | endBroadcast
  | waitTest (k : Wait)
  | waiting (k : Wait) (signalled : Bool)
  | destroyQuit
  | destroyBroadcast
  | destroyJoin
  | destroyEvent
  deriving DecidableEq, Repr

abbrev CallerId := Nat

/-- All items, pools and threads; a caller is in a function of one pool, or in none. -/
structure World where
  items : Items
  pools : PoolPtr → Option Pool
  callers : CallerId → Option (PoolPtr × Position)

def World.initial : World where
  items := { heap := fun _ => none, wpool := none, wpoolSize := 0 }
  pools _ := none
  callers _ := none

def World.setPool (s : World) (P : PoolPtr) (pool : Pool) : World :=
  { s with pools := Function.update s.pools P (some pool) }

def World.setCaller (s : World) (t : CallerId) (c : Option (PoolPtr × Position)) : World :=
  { s with callers := Function.update s.callers t c }

def World.setItems (s : World) (items : Items) : World := { s with items }

/-! ## Broadcasts -/

def Worker.signal : Worker → Worker
  | waiting _ => .waiting true
  | wk => wk

/-- `pthread_cond_broadcast(&tpool->workq_condvar)` -/
def Pool.broadcast (pool : Pool) : Pool := { pool with workers := pool.workers.map Worker.signal }

def Position.signal : Position → Position
  | waiting k _ => .waiting k true
  | pos => pos

/-- `pthread_cond_broadcast(&tpool->done_condvar)` -/
def World.broadcastDone (s : World) (P : PoolPtr) : World :=
  { s with callers := fun t => (s.callers t).map fun c =>
    if c.1 = P then (P, c.2.signal) else c }

/-! ## Callers -/

/-- A call of a function of `tpool.h`. -/
inductive Call where
  | enqueue (job : Job)
  | beginBatch
  | endBatch
  | clear
  | query
  | wait (k : Wait)
  | getWaitFd (ok : Bool)
  | drain
  | destroy
  deriving DecidableEq, Repr

/-- The first step of a call. -/
def callStep (s : World) (t : CallerId) (P : PoolPtr) (f : Call) : Option World := do
  let pool ← s.pools P
  match f with
  | .enqueue job => return s.setCaller t (some (P, .enqAlloc job))
  | .beginBatch => return s.setPool P { pool with inBatch := true }
  | .endBatch =>
    return (s.setPool P { pool with inBatch := false }).setCaller t (some (P, .endBroadcast))
  | .clear =>
    (pool.locked (clearQueue s.items pool)).map fun r => (s.setPool P r.2).setItems r.1
  -- the result is `queuedJobs`, `activeJobs` or `pendingJobs`
  | .query => pool.locked (some s)
  | .wait k => return s.setCaller t (some (P, .waitTest k))
  | .getWaitFd ok =>
    return s.setPool P { pool with pipe := if pool.pipe.isNone ∧ ok then some 0 else pool.pipe }
  | .drain => return s.setPool P { pool with pipe := pool.pipe.map fun _ => 0 }
  | .destroy =>
    (pool.locked (clearQueue s.items pool)).map fun r =>
      ((s.setPool P r.2).setItems r.1).setCaller t (some (P, .destroyQuit))

/-- The condition under which a caller keeps waiting. -/
def Wait.blocks (pool : Pool) : Wait → Bool
  | all | timed => pool.nactive ≠ 0 ∨ pool.qsize ≠ 0
  | pending target => pool.qsize + pool.nactive > target

/-- What is outside of the pool: the address that `malloc` returns, and whether the time is up. -/
structure Oracle where
  mem : Option ItemPtr := none
  timeout : Bool := false

/-- A caller tests its condition with the mutex locked, and blocks or returns. -/
def waitStep (s : World) (t : CallerId) (P : PoolPtr) (pool : Pool) (k : Wait) : Option World :=
  pool.locked (some (s.setCaller t (if k.blocks pool then some (P, .waiting k false) else none)))

def callerStep (capacity : Nat) (s : World) (t : CallerId) (o : Oracle) : Option World := do
  let (P, pos) ← s.callers t
  let pool ← s.pools P
  match pos with
  | .enqAlloc job =>
    match s.items.wpool with
    | some w => (popWorkItem s.items job w).map fun items =>
        (s.setItems items).setCaller t (some (P, .enqLink w))
    | none => return s.setCaller t (some (P, .enqMalloc job))
  | .enqMalloc job =>
    match o.mem with
    | none => return s.setCaller t none
    | some a => (mallocWorkItem s.items job a).map fun items =>
        (s.setItems items).setCaller t (some (P, .enqLink a))
  | .enqLink a =>
    (pool.locked (linkItem s.items pool a)).map fun r =>
      ((s.setPool P r.2).setItems r.1).setCaller t (some (P, .enqTest))
  | .enqTest => return s.setCaller t (if pool.inBatch then none else some (P, .enqBroadcast))
  | .enqBroadcast | .endBroadcast => return (s.setPool P pool.broadcast).setCaller t none
  | .waitTest k => waitStep s t P pool k
  | .waiting k _ =>
    if k = .timed ∧ o.timeout then pool.locked (some (s.setCaller t none))
    else waitStep s t P pool k
  | .destroyQuit =>
    return (s.setPool P { pool with shouldQuit := true }).setCaller t (some (P, .destroyBroadcast))
  | .destroyBroadcast =>
    return (s.setPool P pool.broadcast).setCaller t (some (P, .destroyJoin))
  | .destroyJoin =>
    if pool.workers.all (· = .exited) then
      return ((s.setPool P { pool with nactive := 0 }).broadcastDone P).setCaller t
        (some (P, .destroyEvent))
    else none
  | .destroyEvent =>
    if pool.pipe.any (capacity ≤ ·) then none
    else return { s.setCaller t none with pools := Function.update s.pools P none }

/-! ## Workers -/

/-- The test of the outer loop by worker `w`, which has locked the mutex. -/
def outerTest (pool : Pool) (w : Nat) : Pool :=
  if pool.shouldQuit then { pool with mutex := none }.setWorker w .exited
  else if pool.workq.isNone then { pool with mutex := some w }.setWorker w .sleeping
  else { pool with mutex := some w }.setWorker w .inner

/-- The test by worker `w` after `pthread_cond_wait`. -/
def wakeTest (pool : Pool) (w : Nat) : Pool :=
  if pool.shouldQuit then pool.setWorker w .exited
  else { pool with mutex := some w }.setWorker w .inner

/-- The test of the inner loop, and what follows up to the next scheduling point. -/
def innerTest (items : Items) (pool : Pool) (w : Nat) : Option Pool :=
  if pool.shouldQuit ∨ pool.workq.isNone then some (outerTest pool w) else takeItem items pool w

def workerStep (capacity : Nat) (s : World) (P : PoolPtr) (w : Nat) : Option World := do
  let pool ← s.pools P
  let wk ← pool.workers[w]?
  match wk with
  | .start => pool.locked (some (s.setPool P (outerTest pool w)))
  | .inner => (innerTest s.items pool w).map (s.setPool P)
  | .sleeping => return s.setPool P ({ pool with mutex := none }.setWorker w (.waiting false))
  | .waiting _ => pool.locked (some (s.setPool P (wakeTest pool w)))
  | .working a => do
    let x ← s.items.heap a
    return s.setPool P ((pool.record (.called x.id w (x.work, x.data))).setWorker w
      (if x.done.isSome then .doing a else .freeing a))
  | .doing a => do
    let x ← s.items.heap a
    let done ← x.done
    return s.setPool P ((pool.record (.called x.id w (done, x.data))).setWorker w (.freeing a))
  | .freeing a => do
    let x ← s.items.heap a
    let items ← freeWorkItem s.items a
    return (s.setPool P (pool.setWorker w (.finishing x.id x.toJob))).setItems items
  | .finishing id job =>
    pool.locked (some ((s.setPool P ({ pool with mutex := some w }.setWorker w
      (.writing id job))).broadcastDone P))
  | .writing id _ => (finishItem capacity pool w id).map (s.setPool P)
  | .exited => none

/-! ## The system -/

/-- A pool is created, a thread calls a function or takes a step of the one it is
in, or a worker takes a step. -/
inductive Action where
  | create (P : PoolPtr) (numThreads : Nat)
  | call (t : CallerId) (P : PoolPtr) (f : Call)
  | caller (t : CallerId) (o : Oracle)
  | worker (P : PoolPtr) (w : Nat)

def step (capacity : Nat) (s : World) : Action → Option World
  | .create P numThreads =>
    match s.pools P with
    | some _ => none
    | none => some (s.setPool P (Pool.create numThreads))
  | .call t P f => if (s.callers t).isSome then none else callStep s t P f
  | .caller t o => callerStep capacity s t o
  | .worker P w => workerStep capacity s P w

end Resman.TPool
