import Mathlib.Logic.Function.Basic
import Resman.FileWatch.Buffer
import Resman.RbTree.Basic

/-!
# A resource manager

The state of one `struct resman` and the functions of `resman.c` and `filewatch_linux.c` on it that
run without a scheduling point inside. `none` as a result stands for undefined behaviour: a null
slot or a freed resource is dereferenced, an assertion fails, or a tree operation of `rbtree.c` is
undefined.

* `ResPtr` is the identity of an allocated resource; the address of a freed one is not used again.
* `findResource`, `addResource`, `allocTask`, `freeTask` are the functions of these names;
  `workDone` is the second locked section of `work_func`.
* `startWatch`, `stopWatch`, `handleEvent` are the file monitor: `handleEvent` is the body of the
  loop over inotify events. What `inotify_add_watch` returns is an argument (`none` for `-1`).
* `log` records what a client of the manager can observe of the life of its resources.
-/

namespace Resman.Manager

open Rb FileWatch

abbrev ResPtr := Nat

abbrev TaskPtr := Nat

/-- `struct resource`, without its lock. -/
structure Resource where
  id : Nat
  name : String
  data : Nat
  result : Int
  pending : Bool
  donePending : Bool
  deletePending : Bool
  numLoads : Nat
  reloadTimeout : Nat
  nfd : BitVec 32
  deriving DecidableEq, Repr

/-- A resource is created for a slot, `destroy_func` is called with a slot id, a
resource is freed. -/
inductive Event where
  | created (res : ResPtr) (id : Nat)
  | destroyFunc (id : Nat)
  | freed (res : ResPtr)
  deriving DecidableEq, Repr

/-- `struct resman`. The array `res` holds pointers into `heap`; `nalloc` resources and `ntasks`
tasks have been allocated so far; `tasks` is the free list of tasks; `timeslice` is the option of
that name as `resman_poll` converts it to `unsigned long`. `doneFunc` and `destroyFunc` say whether
these callbacks are set, and `log` is the history, newest event first. -/
structure Rman where
  res : List (Option ResPtr)
  heap : ResPtr → Option Resource
  nalloc : Nat
  doneFunc : Bool
  destroyFunc : Bool
  nresmap : RbTree (BitVec 64) ResPtr
  modset : RbTree (BitVec 64) Unit
  tasks : List TaskPtr
  ntasks : Nat
  timeslice : Nat
  log : List Event

/-- What `resman_init` leaves, with the callbacks set. -/
def Rman.init (doneFunc destroyFunc : Bool) : Rman where
  res := []
  heap _ := none
  nalloc := 0
  doneFunc
  destroyFunc
  nresmap := rbCreate cmpint
  modset := rbCreate cmpint
  tasks := []
  ntasks := 0
  timeslice := 16
  log := []

/-- Writes fields of the resource behind a pointer. -/
def Rman.update (rman : Rman) (p : ResPtr) (f : Resource → Resource) : Option Rman :=
  (rman.heap p).map fun r => { rman with heap := Function.update rman.heap p (some (f r)) }

/-! ## The table -/

/-- The loop of `find_resource` from index `i` on. -/
def findFrom (rman : Rman) (fname : String) : Nat → List (Option ResPtr) → Option Int
  | _, [] => some (-1)
  | i, slot :: slots => do
    -- `rman->res[i]->name`, without a test for an empty slot
    let p ← slot
    let r ← rman.heap p
    if r.name = fname then some i else findFrom rman fname (i + 1) slots

def findResource (rman : Rman) (fname : String) : Option Int := findFrom rman fname 0 rman.res

/-- Whether the allocation of the resource succeeds, and that of a larger array if it is needed. -/
structure AddMem where
  res : Bool := true
  grow : Bool := true
  deriving DecidableEq, Repr

/-- `add_resource` up to the call of `resman_reload`: the new resource, or none
for a return of `-1`. -/
def addResource (rman : Rman) (fname : String) (data : Nat) (mem : AddMem) :
    Option (Rman × Option ResPtr) :=
  if mem.res then
    match rman.res.findIdx? Option.isNone with
    | none =>
      if mem.grow then
        let p := rman.nalloc
        let idx := rman.res.length
        let r : Resource := ⟨idx, fname, data, 0, false, false, false, 0, 0, 0⟩
        some ({ rman with
          res := rman.res ++ [some p]
          heap := Function.update rman.heap p (some r)
          nalloc := rman.nalloc + 1
          log := .created p idx :: rman.log }, some p)
      else
        -- `dynarr_push` returns the old array, and `rman->res[idx]` is past its end
        none
    | some _ =>
      -- `res = rman->res[idx]` is null, and `res->id` is written
      none
  else some (rman, none)

/-- The last lines of `remove_resource`. -/
def freeResource (rman : Rman) (idx : Nat) (p : ResPtr) : Option Rman := do
  let _ ← rman.heap p
  return { rman with
    res := rman.res.set idx none
    heap := Function.update rman.heap p none
    log := .freed p :: rman.log }

/-- A call of `destroy_func`, if it is set. -/
def callDestroy (rman : Rman) (idx : Nat) : Rman :=
  if rman.destroyFunc then { rman with log := .destroyFunc idx :: rman.log } else rman

/-! ## Tasks -/

def allocTask (rman : Rman) : Rman × TaskPtr :=
  match rman.tasks with
  | t :: tasks => ({ rman with tasks }, t)
  | [] => ({ rman with ntasks := rman.ntasks + 1 }, rman.ntasks)

def freeTask (rman : Rman) (t : TaskPtr) : Rman := { rman with tasks := t :: rman.tasks }

/-! ## Watches -/

/-- What the outside world answers to a step: whether `malloc` succeeds, what `inotify_add_watch`
returns, the address of a new tree node, what a callback returns, the next inotify event if there is
one, and the clock. -/
structure Oracle where
  mem : Bool := true
  watch : Option (BitVec 32) := none
  node : Rb.Addr := 0
  ret : Int := 0
  event : Option InotifyEvent := none
  now : Nat := 0

/-- `resman_start_watch`, and whether it returns `0`. -/
def startWatch (rman : Rman) (p : ResPtr) (o : Oracle) : Option (Rman × Bool) := do
  let r ← rman.heap p
  if 0 < r.nfd.toInt then return (rman, true)
  match o.watch with
  | none => return (rman, false)
  | some fd =>
    let nresmap ← rbInserti rman.nresmap (some o.node) fd (some p)
    let rman ← { rman with nresmap }.update p fun r => { r with nfd := fd }
    return (rman, true)

def stopWatch (rman : Rman) (p : ResPtr) : Option Rman := do
  let r ← rman.heap p
  if 0 < r.nfd.toInt then
    let (nresmap, _) ← rbDeletei rman.nresmap r.nfd
    return { rman with nresmap }
  else return rman

/-- `IN_MODIFY`: a delayed reload is set up. -/
def onModify (rman : Rman) (msec : Nat) (wd : BitVec 32) : Option Rman :=
  match rbFindi rman.nresmap wd with
  | none => some rman
  | some p => rman.update p fun r => { r with reloadTimeout := msec + 128 }

/-- `IN_CLOSE_WRITE`: the descriptor goes to the modified set, a delayed reload is cancelled. -/
def onCloseWrite (rman : Rman) (wd : BitVec 32) (o : Oracle) : Option Rman :=
  match rbFindi rman.nresmap wd with
  | none => some rman
  | some p => do
    let modset ← rbInserti rman.modset (some o.node) wd none
    { rman with modset }.update p fun r => { r with reloadTimeout := 0 }

/-- `IN_IGNORED`: the watch of a resource that is still tracked is started again. -/
def onIgnored (rman : Rman) (wd : BitVec 32) (o : Oracle) : Option Rman :=
  match rbFindi rman.nresmap wd with
  | none => some rman
  | some p => do
    let r ← rman.heap p
    let rman ← rman.update p fun r => { r with nfd := 0 }
    let (rman, ok) ← startWatch rman p o
    if ok then
      let r ← rman.heap p
      let modset ← rbInserti rman.modset (some o.node) r.nfd none
      return { rman with modset }
    else
      let rman ← rman.update p fun r' => { r' with nfd := r.nfd }
      stopWatch rman p

/-- `if(ev->mask & flag)` -/
def ifFlag (ev : InotifyEvent) (flag : BitVec 32) (f : Rman → Option Rman) (rman : Rman) :
    Option Rman :=
  if ev.has flag then f rman else some rman

/-- The three tests that the loop of `resman_check_watch` makes on an event. -/
def handleEvent (rman : Rman) (msec : Nat) (ev : InotifyEvent) (o : Oracle) : Option Rman := do
  let rman ← ifFlag ev inModify (onModify · msec ev.wd) rman
  let rman ← ifFlag ev inCloseWrite (onCloseWrite · ev.wd o) rman
  ifFlag ev inIgnored (onIgnored · ev.wd o) rman

/-! ## The end of a job -/

/-- The section of `work_func` after `load_func` has returned. -/
def workDone (rman : Rman) (p : ResPtr) (o : Oracle) : Option Rman := do
  let rman ← rman.update p fun r => { r with pending := false }
  let r ← rman.heap p
  if rman.doneFunc then rman.update p fun r => { r with donePending := true }
  else if r.result = -1 then
    if r.numLoads = 0 then rman.update p fun r => { r with deletePending := true } else return rman
  else
    let (rman, _) ← startWatch rman p o
    return rman

end Resman.Manager
