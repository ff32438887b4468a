import Resman.Lib.Chain
import Resman.Lib.Tally
import Resman.TPool.System

/-!
# A pool as a work queue

The pool over its items is a work queue: `view` reads the jobs off the linked list and off the
positions of the workers. Every item in use has an owner: the free list, a queue, a worker or a
caller. `Linked` says that the list, the tail pointer and the two counters of a pool agree, and that
the pool owns its items; `PoolOk` adds that the work queue is in order. Both read the heap at the
items of the pool only (`PoolOk.frame`).
-/

namespace Resman.TPool

open Lib

variable {heap heap' : ItemPtr → Option WorkItem} {pool pool' : Pool} {P : PoolPtr} {a : ItemPtr}
  {x : WorkItem} {q : List ItemPtr} {w : Nat} {wk wk' : Worker}

/-! ## Workers -/

/-- The item that a worker holds. -/
def Worker.item : Worker → Option ItemPtr
  | working a | doing a | freeing a => some a
  | _ => none

/-- The worker has taken a job and has not decremented `nactive` for it. -/
def Worker.active : Worker → Bool
  | working _ | doing _ | freeing _ | finishing _ _ | writing _ _ => true
  | _ => false

/-- The job that a worker executes, with the calls that it has made and those that are left. -/
def Worker.running (heap : ItemPtr → Option WorkItem) : Worker → Option (Running (Callback × Nat))
  | working a => (heap a).map fun x => ⟨x.id, [], x.calls⟩
  | doing a => (heap a).map fun x =>
    ⟨x.id, [(x.work, x.data)], (x.done.map (·, x.data)).toList⟩
  | freeing a => (heap a).map fun x => ⟨x.id, x.calls, []⟩
  | finishing id job | writing id job => some ⟨id, job.calls, []⟩
  | _ => none

/-- The position up to the scheduling points without a job, and up to the last lock. -/
def Worker.core : Worker → Worker
  | writing id job => .finishing id job
  | working a => .working a
  | doing a => .doing a
  | freeing a => .freeing a
  | finishing id job => .finishing id job
  | start | inner | sleeping | waiting _ | exited => .start

theorem Worker.item_core (wk : Worker) : wk.core.item = wk.item := by cases wk <;> rfl

theorem Worker.active_core (wk : Worker) : wk.core.active = wk.active := by cases wk <;> rfl

theorem Worker.running_core (wk : Worker) : wk.core.running heap = wk.running heap := by
  cases wk <;> rfl

theorem Worker.core_signal (wk : Worker) : wk.signal.core = wk.core := by cases wk <;> rfl

/-- A worker reads the heap at its item only. -/
theorem Worker.running_congr (h : ∀ a ∈ wk.item, heap' a = heap a) :
    wk.running heap' = wk.running heap := by
  cases wk with
  | working a | doing a | freeing a => simp only [running, h a rfl]
  | start | inner | sleeping | waiting | finishing | writing | exited => rfl

/-! ## The view -/

/-- The link that an item stores. -/
def nextOf (heap : ItemPtr → Option WorkItem) (a : ItemPtr) : Option (Option ItemPtr) :=
  (heap a).map WorkItem.next

def WorkItem.entry (x : WorkItem) : Nat × List (Callback × Nat) := (x.id, x.calls)

/-- The jobs in the list `q` of items. -/
def entries (heap : ItemPtr → Option WorkItem) (q : List ItemPtr) :
    List (Nat × List (Callback × Nat)) :=
  q.filterMap fun a => (heap a).map WorkItem.entry

/-- The job that worker `w` executes. -/
def Pool.running (heap : ItemPtr → Option WorkItem) (pool : Pool) (w : Nat) :
    Option (Running (Callback × Nat)) :=
  pool.workers[w]?.bind (Worker.running heap)

/-- The work queue that a pool is, where `q` holds the items from `workq` on. -/
def view (heap : ItemPtr → Option WorkItem) (pool : Pool) (q : List ItemPtr) :
    WorkQueue (Callback × Nat) Nat where
  queue := entries heap q
  running := pool.running heap
  nlinked := pool.nlinked
  log := pool.log

theorem entries_congr (h : ∀ a ∈ q, (heap' a).map WorkItem.entry = (heap a).map WorkItem.entry) :
    entries heap' q = entries heap q :=
  List.filterMap_congr h

/-- Who may access an item. -/
inductive Owner where
  | free
  | queue (P : PoolPtr)
  | worker (P : PoolPtr) (w : Nat)
  | caller (t : CallerId)
  deriving DecidableEq

def Owner.pool? : Owner → Option PoolPtr
  | queue P | worker P _ => some P
  | free | caller _ => none

/-- Items of two owners are different. -/
theorem ne_of_own {own : ItemPtr → Option Owner} {b : ItemPtr} {o o' : Owner} (hb : own b = some o)
    (ha : own a = some o') (ho : o ≠ o') : b ≠ a := by
  rintro rfl
  exact ho (Option.some.inj (hb.symm.trans ha))

structure Linked (own : ItemPtr → Option Owner) (heap : ItemPtr → Option WorkItem) (P : PoolPtr)
    (pool : Pool) (q : List ItemPtr) : Prop where
  chain : Chain (nextOf heap) pool.workq q
  queue : ∀ a ∈ q, own a = some (.queue P)
  worker : ∀ (w : Nat) (wk : Worker), pool.workers[w]? = some wk → ∀ a ∈ wk.item,
    own a = some (.worker P w)
  qsize : pool.qsize = q.length
  tail : pool.workqTail = q.getLast?
  nactive : pool.nactive = pool.workers.countP Worker.active

/-- The pool is in order. -/
def PoolOk (own : ItemPtr → Option Owner) (heap : ItemPtr → Option WorkItem) (P : PoolPtr)
    (pool : Pool) : Prop :=
  ∃ q, Linked own heap P pool q ∧ (view heap pool q).Ok

/-- The fields that matter for the jobs are the same in two states of a pool. -/
structure Pool.Same (pool pool' : Pool) : Prop where
  qsize : pool'.qsize = pool.qsize
  workq : pool'.workq = pool.workq
  workqTail : pool'.workqTail = pool.workqTail
  nactive : pool'.nactive = pool.nactive
  nlinked : pool'.nlinked = pool.nlinked
  log : pool'.log = pool.log
  workers : pool'.workers.map Worker.core = pool.workers.map Worker.core

/-- A change of the items and of the pool that the work queue can follow. -/
def Follows (P : PoolPtr) (own : ItemPtr → Option Owner) (heap : ItemPtr → Option WorkItem)
    (pool : Pool) (own' : ItemPtr → Option Owner) (heap' : ItemPtr → Option WorkItem)
    (pool' : Pool) : Prop :=
  ∀ q, Linked own heap P pool q → ∃ q', Linked own' heap' P pool' q' ∧
    WorkQueue.Steps (view heap pool q) (view heap' pool' q')

theorem PoolOk.follow {own own' : ItemPtr → Option Owner} (h : PoolOk own heap P pool)
    (hf : Follows P own heap pool own' heap' pool') : PoolOk own' heap' P pool' := by
  obtain ⟨q, hl, hok⟩ := h
  obtain ⟨q', hl', hsteps⟩ := hf q hl
  exact ⟨q', hl', hok.steps hsteps⟩

/-- The jobs of the workers depend on the heap at their items only. -/
theorem Pool.running_congr (h : ∀ (w : Nat) (wk : Worker), pool.workers[w]? = some wk →
    ∀ a ∈ wk.item, heap' a = heap a) : pool.running heap' = pool.running heap := by
  funext w
  rw [running, running]
  cases hwk : pool.workers[w]? with
  | none => rfl
  | some wk => exact Worker.running_congr (h w wk hwk)

/-- A worker moves to another position. -/
theorem Pool.running_set (h : pool.workers[w]? = some wk)
    (hset : pool'.workers = pool.workers.set w wk') :
    pool'.running heap = Function.update (pool.running heap) w (wk'.running heap) := by
  have hw := (List.getElem?_eq_some_iff.1 h).1
  funext i
  rw [running, hset]
  by_cases hi : i = w
  · subst hi
    simp [hw]
  · simp [hi, running, List.getElem?_set_ne (Ne.symm hi)]

/-- A new pool is in order. -/
theorem PoolOk.create {own : ItemPtr → Option Owner} (numThreads : Nat) :
    PoolOk own heap P (.create numThreads) := by
  have hstart : ∀ (w : Nat) (wk : Worker),
      (Pool.create numThreads).workers[w]? = some wk → wk = .start := fun w wk hwk =>
    List.eq_of_mem_replicate (List.mem_of_getElem? hwk)
  refine ⟨[], ⟨rfl, fun a ha => (by cases ha), fun w wk hwk a ha => ?_, rfl, rfl, ?_⟩, ?_⟩
  · rw [hstart w wk hwk] at ha
    cases ha
  · simp [Pool.create, List.countP_replicate, Worker.active]
  · have hempty : view heap (.create numThreads) [] = .empty := by
      have hrunning : (Pool.create numThreads).running heap = fun _ => none := by
        funext w
        rw [Pool.running]
        cases hwk : (Pool.create numThreads).workers[w]? with
        | none => rfl
        | some wk =>
          rw [hstart w wk hwk]
          rfl
      rw [view, hrunning]
      rfl
    exact hempty ▸ .empty

end Resman.TPool
