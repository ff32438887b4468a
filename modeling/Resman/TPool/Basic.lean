import Resman.Lib.WorkQueue

/-!
# A thread pool

The data of `tpool.c` and its functions that run without a scheduling point inside. Work items live
in one heap and are recycled through one free list, whatever pool they are used in. `none` as a
result stands for undefined behaviour: a null pointer or a freed item is dereferenced.

* `popWorkItem`, `mallocWorkItem` are the two halves of `alloc_work_item`, with the writes to the
  new item that follow in `resman_tpool_enqueue`; `freeWorkItem` is the function of that name.
* `linkItem` is the locked section of `resman_tpool_enqueue`, `clearQueue` that of
  `resman_tpool_clear`, and `takeItem` the one of `thread_func` that grabs the first job.
* A job is the callbacks and the data of an item. Its number `id` and the history `log` are not in
  the source: they record what happens to every job, and no function reads them.
-/

namespace Resman.TPool

open Lib

abbrev ItemPtr := Nat

abbrev PoolPtr := Nat

abbrev JobId := Nat

abbrev Callback := Nat

/-- What a caller of `resman_tpool_enqueue` passes in. -/
structure Job where
  data : Nat
  work : Callback
  done : Option Callback
  deriving DecidableEq, Repr

/-- `struct work_item`, with the number that its job gets when it is linked. -/
structure WorkItem extends Job where
  next : Option ItemPtr
  id : JobId
  deriving DecidableEq, Repr

/-- The items, and the free list of `alloc_work_item`. -/
structure Items where
  heap : ItemPtr → Option WorkItem
  wpool : Option ItemPtr
  wpoolSize : Int

/-- What happens to a job; a call is a callback with its argument. -/
abbrev Event := JobEvent (Callback × Nat) Nat

/-- The calls that a worker makes for a job: `work`, then `done` if it is set. -/
def Job.calls (job : Job) : List (Callback × Nat) :=
  (job.work, job.data) :: (job.done.map (·, job.data)).toList

/-- The position of a worker in `thread_func`:
* `start` before it locks the mutex for the first time;
* `inner` before the test of the inner loop, `sleeping` before `pthread_cond_wait`, both with the
  mutex held; `waiting` inside, where the flag says whether it was signalled;
* `working`, `doing` in the callbacks of an item, `freeing` before `free_work_item`;
* `finishing` before the mutex is locked again, `writing` in `send_done_event`, with the mutex held;
* `exited` after its return. -/
inductive Worker where
  | start
  | inner
  | sleeping
  | waiting (signalled : Bool)
  | working (a : ItemPtr)
  | doing (a : ItemPtr)
  | freeing (a : ItemPtr)
  | finishing (id : JobId) (job : Job)
  | writing (id : JobId) (job : Job)
  | exited
  deriving DecidableEq, Repr

/-- `struct resman_thread_pool` without its reference count. `mutex` is the worker that
holds `workq_mutex` from one step to the next, and `pipe` is the number of bytes in the
event pipe, once it exists. -/
structure Pool where
  qsize : Int
  workq : Option ItemPtr
  workqTail : Option ItemPtr
  nactive : Int
  shouldQuit : Bool
  inBatch : Bool
  mutex : Option Nat
  workers : List Worker
  pipe : Option Nat
  nlinked : Nat
  log : List Event
  deriving DecidableEq, Repr

/-- What `resman_tpool_create` leaves. -/
def Pool.create (numThreads : Nat) : Pool where
  qsize := 0
  workq := none
  workqTail := none
  nactive := 0
  shouldQuit := false
  inBatch := false
  mutex := none
  workers := List.replicate numThreads .start
  pipe := none
  nlinked := 0
  log := []

def Pool.setWorker (pool : Pool) (w : Nat) (wk : Worker) : Pool :=
  { pool with workers := pool.workers.set w wk }

/-- A section that holds `workq_mutex`. -/
def Pool.locked {β : Type} (pool : Pool) (x : Option β) : Option β :=
  if pool.mutex.isNone then x else none

def Pool.record (pool : Pool) (e : Event) : Pool := { pool with log := e :: pool.log }

/-! ## Work items -/

def maxWpoolSize : Int := 64

/-- The head `w` of the free list is taken off it. -/
def popWorkItem (items : Items) (job : Job) (w : ItemPtr) : Option Items := do
  let x ← items.heap w
  return { heap := Function.update items.heap w (some { job with next := none, id := 0 })
           wpool := x.next
           wpoolSize := items.wpoolSize - 1 }

/-- A new item from `malloc`, at an address that is not in use. -/
def mallocWorkItem (items : Items) (job : Job) (a : ItemPtr) : Option Items :=
  match items.heap a with
  | some _ => none
  | none =>
    some { items with
      heap := Function.update items.heap a (some { job with next := none, id := 0 }) }

def freeWorkItem (items : Items) (w : ItemPtr) : Option Items := do
  let x ← items.heap w
  if maxWpoolSize ≤ items.wpoolSize then
    return { items with heap := Function.update items.heap w none }
  return { heap := Function.update items.heap w (some { x with next := items.wpool })
           wpool := some w
           wpoolSize := items.wpoolSize + 1 }

/-! ## The queue -/

/-- An item is linked behind the last one. -/
def linkItem (items : Items) (pool : Pool) (a : ItemPtr) : Option (Items × Pool) := do
  let job ← items.heap a
  let heap := Function.update items.heap a (some { job with id := pool.nlinked })
  let linked := { pool with
    qsize := pool.qsize + 1
    nlinked := pool.nlinked + 1
    log := .linked pool.nlinked job.calls :: pool.log }
  match pool.workq with
  | some _ =>
    let tail ← pool.workqTail
    let x ← heap tail
    return ({ items with heap := Function.update heap tail (some { x with next := some a }) },
      { linked with workqTail := some a })
  | none => return ({ items with heap }, { linked with workq := some a, workqTail := some a })

/-- The loop of `resman_tpool_clear`: the heap without the items of the queue, and their jobs. It
runs once for each item of the queue, so the length of the queue is enough fuel. -/
def freeQueue : Nat → (ItemPtr → Option WorkItem) → Option ItemPtr →
    Option ((ItemPtr → Option WorkItem) × List JobId)
  | _, heap, none => some (heap, [])
  | 0, _, some _ => none
  | fuel + 1, heap, some a => do
    let x ← heap a
    let (heap, ids) ← freeQueue fuel (Function.update heap a none) x.next
    return (heap, x.id :: ids)

def clearQueue (items : Items) (pool : Pool) : Option (Items × Pool) := do
  let (heap, ids) ← freeQueue pool.qsize.toNat items.heap pool.workq
  return ({ items with heap }, { pool with
    workq := none
    workqTail := none
    qsize := 0
    log := (ids.map .discarded).reverse ++ pool.log })

/-- Worker `w` grabs the first job and unlocks the mutex. -/
def takeItem (items : Items) (pool : Pool) (w : Nat) : Option Pool := do
  let a ← pool.workq
  let x ← items.heap a
  return { pool with
    workq := x.next
    workqTail := if x.next.isNone then none else pool.workqTail
    nactive := pool.nactive + 1
    qsize := pool.qsize - 1
    mutex := none
    workers := pool.workers.set w (.working a)
    log := .taken x.id w :: pool.log }

/-- The last lines of the inner loop: `send_done_event` into a pipe with room, and `--nactive`. -/
def finishItem (capacity : Nat) (pool : Pool) (w : Nat) (id : JobId) : Option Pool :=
  if pool.pipe.any (capacity ≤ ·) then none
  else some { pool with
    pipe := pool.pipe.map (· + 1)
    nactive := pool.nactive - 1
    workers := pool.workers.set w .inner
    log := .finished id w :: pool.log }

/-! ## Queries -/

def queuedJobs (pool : Pool) : Int := pool.qsize

def activeJobs (pool : Pool) : Int := pool.nactive

def pendingJobs (pool : Pool) : Int := pool.qsize + pool.nactive

end Resman.TPool
