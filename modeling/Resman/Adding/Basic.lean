import Resman.DynArr.Words
import Resman.Manager.Basic
import Resman.TPool.Enqueue

/-!
# Adding a resource, down to the array and the queue

`resman_add` on the array of pointers that `dynarr.c` manages and on the work queue of `tpool.c`,
with every allocation that can fail on its way. `none` as a result stands for undefined behaviour: a
null pointer is dereferenced, or an access is past the end of the array.

* `storeResource` is `add_resource` up to the call of `resman_reload`, `addResource` is all of it.
* `reload`, `allocTask`, `findResource`, `removeResource` are the functions of `resman.c` of these
  names; `removeResource` is what `remove_resource` does to the table. `alloc_task` aborts when it
  gets no memory.
* `step` is a system around them: clients add, reload and remove, anything may happen to the pools
  in between, and the other functions write the fields of the resources but neither ids nor names.
-/

namespace Resman.Adding

open Dynarr
open Manager (Resource TaskPtr)
open TPool (World PoolPtr ItemPtr CallerId Job Callback tpoolEnqueue)

/-- The address of `work_func`. -/
def workFunc : Callback := 1

/-- The array, the resources, the tasks with their free list, and the pools;
`tpool` is the one of the manager. -/
structure State where
  res : DynArr
  heap : Word → Option Resource
  tasks : List TaskPtr
  ntasks : Nat
  taskRes : TaskPtr → Option Word
  tpool : PoolPtr
  world : World

/-- What `dynarr_alloc(0, sizeof *rman->res)` returns. -/
def emptyTable : DynArr := ⟨0, 8, 0, 0, []⟩

theorem dynarrAlloc_emptyTable : dynarrAlloc 0 wordSize true = some (some emptyTable) := rfl

/-- What `resman_init` leaves, with a new pool. -/
def State.initial (P : PoolPtr) (numThreads : Nat) : State where
  res := emptyTable
  heap _ := none
  tasks := []
  ntasks := 0
  taskRes _ := none
  tpool := P
  world := World.initial.setPool P (.create numThreads)

/-- What a call gets from outside: the memory for a resource, whether the array can grow, and the
memory for a work item. -/
structure Mem where
  res : Option Word
  grow : Bool
  item : Option ItemPtr
  deriving DecidableEq, Repr

/-! ## Memory -/

/-- A pointer is dereferenced. -/
def State.deref (s : State) (p : Word) : Option Resource := if p = 0 then none else s.heap p

/-- Writes fields of the resource behind a pointer. -/
def State.update (s : State) (p : Word) (f : Resource → Resource) : Option State :=
  (s.deref p).map fun r => { s with heap := Function.update s.heap p (some (f r)) }

/-- A new resource from `malloc`, at an address that is not null and not in use. -/
def mallocResource (s : State) (p : Word) (r : Resource) : Option State :=
  if p ≠ 0 ∧ s.heap p = none then some { s with heap := Function.update s.heap p (some r) }
    else none

/-! ## The functions -/

/-- The loop of `find_resource`, with so many slots left from index `i` on. -/
def findFrom (s : State) (fname : String) : Nat → Nat → Option Int
  | 0, _ => some (-1)
  | n + 1, i => do
    let r ← s.deref (← readWord s.res.buf i)
    if r.name = fname then return i else findFrom s fname n (i + 1)

def findResource (s : State) (fname : String) : Option Int := findFrom s fname s.res.nelem.toNat 0

/-- The loop of `add_resource`, with so many slots left from index `i` on: the first empty slot. -/
def emptyFrom (buf : List (Option Byte)) : Nat → Nat → Option (Option Nat)
  | 0, _ => some none
  | n + 1, i => do
    if (← readWord buf i) = 0 then return some i else emptyFrom buf n (i + 1)

/-- A resource that is filled with zeros, and then gets its name, its data and its id. -/
def newResource (fname : String) (data idx : Nat) : Resource :=
  ⟨idx, fname, data, 0, false, false, false, 0, 0, 0⟩

/-- `add_resource` up to the call of `resman_reload`: the index of the slot and the pointer in it,
or none for a return of `-1`. -/
def storeResource (s : State) (fname : String) (data : Nat) (mem : Mem) :
    Option (State × Option (Nat × Word)) :=
  match mem.res with
  | none => some (s, none)
  | some p => do
    let s ← mallocResource s p (newResource fname data 0)
    match ← emptyFrom s.res.buf s.res.nelem.toNat 0 with
    | none =>
      let idx := s.res.nelem.toNat
      -- `dynarr_push` never returns null, so the test of `tmparr` does not fail
      let res ← dynarrPush s.res (some (wordBytes p)) mem.grow
      let s ← { s with res }.update p fun r => { r with id := idx }
      return (s, some (idx, ← readWord s.res.buf idx))
    | some idx =>
      -- `res = rman->res[idx]`, and the new resource is lost
      let q ← readWord s.res.buf idx
      let s ← s.update q fun r => { r with id := idx }
      return (s, some (idx, ← readWord s.res.buf idx))

def allocTask (s : State) : State × TaskPtr :=
  match s.tasks with
  | t :: tasks => ({ s with tasks }, t)
  | [] => ({ s with ntasks := s.ntasks + 1 }, s.ntasks)

/-- `resman_reload`. The return value of `resman_tpool_enqueue` is ignored. -/
def reload (s : State) (p : Word) (mem : Option ItemPtr) : Option State := do
  let (s, t) := allocTask s
  let s ← { s with taskRes := Function.update s.taskRes t (some p) }.update p
    fun r => { r with pending := true }
  let (world, _) ← tpoolEnqueue s.world s.tpool ⟨t, workFunc, none⟩ mem
  return { s with world }

def addResource (s : State) (fname : String) (data : Nat) (mem : Mem) : Option (State × Int) := do
  match ← storeResource s fname data mem with
  | (s, none) => return (s, -1)
  | (s, some (idx, p)) => return (← reload s p mem.item, idx)

def resmanAdd (s : State) (fname : String) (data : Nat) (mem : Mem) : Option (State × Int) := do
  let ridx ← findResource s fname
  if ridx ≠ -1 then return (s, ridx) else addResource s fname data mem

/-- `remove_resource` on the table. -/
def removeResource (s : State) (idx : Nat) : Option State := do
  let p ← readWord s.res.buf idx
  let _ ← s.deref p
  let buf ← writeWord s.res.buf idx 0
  return { s with res := { s.res with buf }, heap := Function.update s.heap p none }

/-! ## The system -/

/-- The slots of the table. -/
def State.slots (s : State) : Option (List Word) := readWords s.res.buf s.res.nelem.toNat 0

/-- The jobs in the queue of the pool. -/
def State.jobs (s : State) : Option (List Job) := s.world.jobs s.tpool

/-- The thread `t` is in no function of a pool, and no worker holds the mutex. -/
def State.ready (s : State) (t : CallerId) : Bool :=
  (s.world.callers t).isNone ∧ (s.world.pools s.tpool).any (·.mutex.isNone)

inductive Action where
  | add (t : CallerId) (fname : String) (data : Nat) (mem : Mem)
  | reload (t : CallerId) (idx : Nat) (mem : Option ItemPtr)
  | remove (idx : Nat)
  | write (p : Word) (r : Resource)
  | freeTask (t : TaskPtr)
  | pool (a : TPool.Action)

/-- A slot that the loops of `resman_poll` look at. -/
def State.slot (s : State) (idx : Nat) : Option Word :=
  if idx < s.res.nelem.toNat then readWord s.res.buf idx else none

def step (capacity : Nat) (s : State) : Action → Option State
  | .add t fname data mem => if s.ready t then (resmanAdd s fname data mem).map Prod.fst else none
  | .reload t idx mem => if s.ready t then do reload s (← s.slot idx) mem else none
  | .remove idx => do
    let _ ← s.slot idx
    removeResource s idx
  | .write p r => do
    let r₀ ← s.deref p
    if r.id = r₀.id ∧ r.name = r₀.name then s.update p fun _ => r else none
  | .freeTask t => some { s with tasks := t :: s.tasks }
  | .pool a => do
    let world ← TPool.step capacity s.world a
    -- the manager holds a reference to its pool
    if (world.pools s.tpool).isSome then some { s with world } else none

end Resman.Adding
