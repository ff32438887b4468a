import Resman.Manager.View
import Resman.TaskList.System

/-!
# Threads at the watch map

A manager without a `done_func`: its workers register watches in `nresmap` themselves, with the lock
of the resource, while its main thread searches and deletes in `resman_poll`. The system of
`Resman.Manager` takes whole sections of code in one step; here the steps of one manager that use
`nresmap` are split into their tree operations, each of which a thread enters in one step and leaves
in another.

* `Access` lists the tree operations of the main thread, and `EventPc` the positions between those
  of one inotify event; `nextAccess` says which one the next step enters.
* A worker enters `rb_inserti` at the end of its job (`nextInsert`).
* When a thread leaves an operation, this takes effect. Once two threads have been inside operations
  of which one changes the tree, the tree is any: `torn` is what an operation finds then.
* `edits` are the changes of the map that have been made, newest first.
-/

namespace Resman.WatchMap

open Lib Rb FileWatch Manager
open TaskList (Thread)

abbrev WatchTree := RbTree (BitVec 64) ResPtr

/-- An operation of the main thread on `nresmap`:
* `stop`: `rb_deletei` in `resman_stop_watch`, called by `remove_resource`;
* `modify`, `closeWrite`, `ignored`: `rb_findi` for an event with the flag of this name;
* `restart`: `rb_inserti` in `resman_start_watch`, for an `IN_IGNORED` event;
* `drop`: `rb_deletei` in `resman_stop_watch`, for an `IN_IGNORED` event;
* `reload`: `rb_findi` in `reload_modified`. -/
inductive Access where
  | stop (fd : BitVec 32)
  | modify (ev : InotifyEvent)
  | closeWrite (ev : InotifyEvent)
  | ignored (ev : InotifyEvent)
  | restart (p : ResPtr) (fd : BitVec 32)
  | drop (fd : BitVec 32)
  | reload
  deriving DecidableEq, Repr

/-- An operation searches the tree or changes it. -/
inductive Kind where
  | find
  | edit
  deriving DecidableEq, Repr

def Access.kind : Access → Kind
  | stop _ | restart .. | drop _ => .edit
  | modify _ | closeWrite _ | ignored _ | reload => .find

/-- A position between the tree operations for an event: before the test of `IN_CLOSE_WRITE` and
that of `IN_IGNORED`, before `resman_start_watch` with the descriptor that the resource had, and
before `resman_stop_watch`. -/
inductive EventPc where
  | closeWrite
  | ignored
  | start (p : ResPtr) (prev : BitVec 32)
  | stop (p : ResPtr)
  deriving DecidableEq, Repr

/-- Where the main thread is: at a position of `Resman.Manager`, in the loop over events, or inside
of a tree operation. -/
inductive MainAt where
  | free
  | event (ev : InotifyEvent) (e : EventPc)
  | inside (a : Access)
  deriving DecidableEq, Repr

/-- A completed change of the map. -/
inductive Edit where
  | insert (fd : BitVec 32) (p : ResPtr)
  | delete (fd : BitVec 32)
  deriving DecidableEq, Repr

/-- `inserting` holds the workers that are inside `rb_inserti`, with the entries that they are about
to make, and `locks` says which worker holds the lock of a resource there. -/
structure State where
  sys : Sys
  main : MainAt
  inserting : List (Nat × ResPtr × BitVec 32)
  locks : ResPtr → Option Nat
  raced : Bool
  edits : List Edit

def State.initial (numThreads : Nat) : State where
  sys := .initial numThreads
  main := .free
  inserting := []
  locks _ := none
  raced := false
  edits := []

/-- The entry that the worker is about to make. -/
def State.insertion (x : State) (w : Nat) : Option (ResPtr × BitVec 32) := x.inserting.lookup w

def State.setClient (x : State) (m : MgrPtr) (c : Client) : State :=
  { x with sys := { x.sys with clients := Function.update x.sys.clients m (some c) } }

/-! ## The main thread -/

/-- The tree operation that the next step of the main thread enters, if it does. -/
def nextAccess (c : Client) (pos : MainAt) (o : Oracle) : Option Access :=
  match pos with
  | .free =>
    match c.pc with
    | .rmStop _ p _ => do
      let r ← c.rman.heap p
      if 0 < r.nfd.toInt then return .stop r.nfd else none
    | .watch _ => do
      let ev ← o.event
      if ev.has inModify then return .modify ev else none
    | .modset (_ :: _) => some .reload
    | _ => none
  | .event ev .closeWrite => if ev.has inCloseWrite then some (.closeWrite ev) else none
  | .event ev .ignored => if ev.has inIgnored then some (.ignored ev) else none
  | .event _ (.start p _) => do
    let r ← c.rman.heap p
    if 0 < r.nfd.toInt then none else return .restart p (← o.watch)
  | .event _ (.stop p) => do
    let r ← c.rman.heap p
    if 0 < r.nfd.toInt then return .drop r.nfd else none
  | .inside _ => none

/-- A step of the main thread that enters no tree operation. -/
def pass (m : MgrPtr) (x : State) (c : Client) (o : Oracle) : Option State :=
  match x.main with
  | .free =>
    match c.pc, o.event with
    | .watch _, some ev => some { x with main := .event ev .closeWrite }
    | _, _ => (step x.sys (.client m o)).map fun sys => { x with sys }
  | .event ev .closeWrite => some { x with main := .event ev .ignored }
  | .event _ .ignored => some { x with main := .free }
  | .event ev (.start p prev) => do
    let r ← c.rman.heap p
    if 0 < r.nfd.toInt then
      -- somebody else has started the watch
      let modset ← rbInserti c.rman.modset (some o.node) r.nfd none
      return { x.setClient m { c with rman := { c.rman with modset } } with main := .free }
    else
      -- `inotify_add_watch` has failed
      let rman ← c.rman.update p fun r => { r with nfd := prev }
      return { x.setClient m { c with rman } with main := .event ev (.stop p) }
  | .event _ (.stop p) => do
    let _ ← c.rman.heap p
    return { x with main := .free }
  | .inside _ => none

/-- The manager as an operation finds it. -/
def State.found (x : State) (c : Client) (torn : WatchTree) : Rman :=
  { c.rman with nresmap := if x.raced then torn else c.rman.nresmap }

/-- The main thread leaves a tree operation, up to the next position. -/
def leave (m : MgrPtr) (x : State) (c : Client) (o : Oracle) (torn : WatchTree) :
    Access → Option State
  | .stop fd =>
    match c.pc with
    | .rmStop i p k => do
      let (nresmap, _) ← rbDeletei (x.found c torn).nresmap fd
      return { x.setClient m ⟨{ c.rman with nresmap }, .rmCall i p k⟩ with
        main := .free
        edits := .delete fd :: x.edits }
    | _ => none
  | .modify ev =>
    match c.pc with
    | .watch msec => do
      let rman ← onModify (x.found c torn) msec ev.wd
      return { x.setClient m { c with rman } with main := .event ev .closeWrite }
    | _ => none
  | .closeWrite ev => do
    let rman ← onCloseWrite (x.found c torn) ev.wd o
    return { x.setClient m { c with rman } with main := .event ev .ignored }
  | .ignored ev =>
    match rbFindi (x.found c torn).nresmap ev.wd with
    | none => some { x.setClient m { c with rman := x.found c torn } with main := .free }
    | some p => do
      let r ← c.rman.heap p
      let rman ← (x.found c torn).update p fun r => { r with nfd := 0 }
      return { x.setClient m { c with rman } with main := .event ev (.start p r.nfd) }
  | .restart p fd => do
    let nresmap ← rbInserti (x.found c torn).nresmap (some o.node) fd (some p)
    let rman ← { c.rman with nresmap }.update p fun r => { r with nfd := fd }
    let modset ← rbInserti rman.modset (some o.node) fd none
    return { x.setClient m { c with rman := { rman with modset } } with
      main := .free
      edits := .insert fd p :: x.edits }
  | .drop fd => do
    let (nresmap, _) ← rbDeletei (x.found c torn).nresmap fd
    return { x.setClient m { c with rman := { c.rman with nresmap } } with
      main := .free
      edits := .delete fd :: x.edits }
  | .reload =>
    match c.pc with
    | .modset (wd :: wds) => do
      let pc ← reloadModified (x.found c torn) wd wds
      return { x.setClient m ⟨x.found c torn, pc⟩ with main := .free }
    | _ => none

def mainStep (m : MgrPtr) (x : State) (o : Oracle) (torn : WatchTree) : Option State := do
  let c ← x.sys.clients m
  match x.main with
  | .inside a => leave m x c o torn a
  | pos =>
    match nextAccess c pos o with
    | some a => return { x with main := .inside a, raced := x.raced || !x.inserting.isEmpty }
    | none => pass m x c o

/-! ## The workers -/

/-- The entry that the worker enters `rb_inserti` for with its next step, if it does: it is at the
end of a job of the manager, which has no `done_func`, the load has succeeded, and
`resman_start_watch` gets a descriptor. -/
def nextInsert (m : MgrPtr) (x : State) (w : Nat) (o : Oracle) : Option (ResPtr × BitVec 32) := do
  let wk ← x.sys.pool.workers[w]?
  match wk with
  | .loaded j =>
    if j.rman = m ∧ x.insertion w = none then
      let c ← x.sys.clients m
      let r ← c.rman.heap j.res
      if c.rman.doneFunc = false ∧ r.result ≠ -1 ∧ ¬ 0 < r.nfd.toInt then return (j.res, ← o.watch)
      else none
    else none
  | _ => none

/-- The resource of the manager whose mutex the worker locks with its next step. -/
def lockedBy (m : MgrPtr) : Worker → Option ResPtr
  | .taken j | .loaded j => if j.rman = m then some j.res else none
  | .idle | .loading _ | .finishing | .exited => none

/-- The main thread is inside of a tree operation. -/
def MainAt.access : MainAt → Option Access
  | inside a => some a
  | free | event .. => none

/-- The worker leaves `rb_inserti`, and `work_func` returns. -/
def leaveInsert (m : MgrPtr) (x : State) (w : Nat) (o : Oracle) (torn : WatchTree) (p : ResPtr)
    (fd : BitVec 32) : Option State := do
  let c ← x.sys.clients m
  let nresmap ← rbInserti (x.found c torn).nresmap (some o.node) fd (some p)
  let rman ← { c.rman with nresmap }.update p fun r => { r with nfd := fd }
  return { x with
    sys := ⟨Function.update x.sys.clients m (some { c with rman }),
      x.sys.pool.setWorker w .finishing⟩
    inserting := x.inserting.filter (·.1 ≠ w)
    locks := Function.update x.locks p none
    edits := .insert fd p :: x.edits }

/-- The worker locks the resource, clears `pending` and enters `rb_inserti`. -/
def enterInsert (m : MgrPtr) (x : State) (w : Nat) (p : ResPtr) (fd : BitVec 32) :
    Option State := do
  let c ← x.sys.clients m
  let c ← lockedSection c p fun rman => rman.update p fun r => { r with pending := false }
  return { x.setClient m c with
    inserting := (w, p, fd) :: x.inserting
    locks := Function.update x.locks p (some w)
    raced := x.raced || x.main.access.isSome || !x.inserting.isEmpty }

def workerStep (m : MgrPtr) (x : State) (w : Nat) (o : Oracle) (torn : WatchTree) : Option State :=
  match x.insertion w with
  | some (p, fd) => leaveInsert m x w o torn p fd
  | none => do
    let wk ← x.sys.pool.workers[w]?
    if (lockedBy m wk).any fun p => (x.locks p).isSome then none
    else
      match nextInsert m x w o with
      | some (p, fd) => enterInsert m x w p fd
      | none => (step x.sys (.worker w o)).map fun sys => { x with sys }

/-! ## The system -/

/-- `other` is a step of the client of another manager. -/
inductive Action where
  | create (destroyFunc : Bool)
  | call (f : Call)
  | main (o : Oracle) (torn : WatchTree)
  | worker (w : Nat) (o : Oracle) (torn : WatchTree)
  | other (a : Manager.Action)

def mapStep (m : MgrPtr) (x : State) : Action → Option State
  | .create destroyFunc => (step x.sys (.create m false destroyFunc)).map fun sys => { x with sys }
  | .call f =>
    if f = .destroy then none else (step x.sys (.call m f)).map fun sys => { x with sys }
  | .main o torn => mainStep m x o torn
  | .worker w o torn => workerStep m x w o torn
  | .other a =>
    if a.client? = none ∨ a.client? = some m then none
    else (step x.sys a).map fun sys => { x with sys }

/-! ## Who is where -/

def State.inside (x : State) : Thread → Option Kind
  | .main => x.main.access.map Access.kind
  | .worker w => (x.insertion w).map fun _ => .edit

/-- Two operations may not overlap when one of them changes the tree. -/
def Kind.clash (a b : Kind) : Prop := a = edit ∨ b = edit

/-- No thread is inside an operation that changes the tree while another thread is inside any. -/
def State.Apart (x : State) : Prop := Exclusive Kind.clash x.inside

/-- What the map holds after the changes. -/
def registered : List Edit → BitVec 32 → Option ResPtr
  | [] => fun _ => none
  | .insert fd p :: es => Function.update (registered es) fd (some p)
  | .delete fd :: es => Function.update (registered es) fd none

/-- The map holds what has been registered. -/
def State.Intact (x : State) (m : MgrPtr) : Prop :=
  ∀ c ∈ x.sys.clients m, rbFindi c.rman.nresmap = registered x.edits

/-- The main thread enters a tree operation only when no worker is inside `rb_inserti`, and a worker
enters `rb_inserti` only when the main thread is not inside a tree operation and no worker is inside
`rb_inserti` with the lock of another resource. -/
def EntersApart (m : MgrPtr) (x : State) : Action → Prop
  | .main o _ => ∀ c ∈ x.sys.clients m, nextAccess c x.main o ≠ none → x.inserting = []
  | .worker w o _ => ∀ e ∈ nextInsert m x w o,
      x.main.access = none ∧ ∀ i ∈ x.inserting, i.2.1 = e.1
  | .create _ | .call _ | .other _ => True

/-- Watch descriptors are numbered from 1. -/
def PositiveWatch (_ : State) : Action → Prop
  | .main o _ | .worker _ o _ => ∀ fd ∈ o.watch, 0 < fd.toInt
  | .create _ | .call _ | .other _ => True

instance (m : MgrPtr) (x : State) : ∀ a, Decidable (EntersApart m x a)
  | .main o _ => Option.decidableForallMem
      (p := fun c : Client => nextAccess c x.main o ≠ none → x.inserting = []) (x.sys.clients m)
  | .worker w o _ => Option.decidableForallMem
      (p := fun e : ResPtr × BitVec 32 => x.main.access = none ∧ ∀ i ∈ x.inserting, i.2.1 = e.1)
      (nextInsert m x w o)
  | .create _ | .call _ | .other _ => isTrue trivial

instance (x : State) : ∀ a, Decidable (PositiveWatch x a)
  | .main o _ | .worker _ o _ =>
    Option.decidableForallMem (p := fun fd : BitVec 32 => 0 < fd.toInt) o.watch
  | .create _ | .call _ | .other _ => isTrue trivial

end Resman.WatchMap
