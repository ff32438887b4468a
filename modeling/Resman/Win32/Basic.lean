import Mathlib.Logic.Function.Basic
import Resman.DynArr.Words
import Resman.RbTree.Basic
import Resman.Win32.Path

/-!
# The file monitor on Windows

The state that `resman_start_watch` and `resman_stop_watch` of `filewatch_win32.c` work on, and
these two functions. `none` as a result stands for undefined behaviour.

* Pointers are addresses, with a heap for each kind of object; a directory path that has been freed
  is not in `paths`. The items of a directory are the list of their resources.
* A key of `watchdirs` is the text of the `watch_path` of its directory, and only this pointer is
  ever passed to `rb_delete`.
* A `HANDLE` is a word, and `wait_handles` an array of words.
* `StartEnv` and `StopEnv` are what the system calls and allocations of one call give.
-/

namespace Resman.Win32

open Rb Dynarr

abbrev ResPtr := Nat

abbrev DirPtr := Nat

abbrev PathPtr := Nat

abbrev BufPtr := Nat

abbrev Handle := Word

/-- `INVALID_HANDLE_VALUE` -/
def invalidHandle : Handle := BitVec.allOnes 64

/-- The fields of `struct resource` that the monitor uses. -/
structure Resource where
  name : Text
  watchPath : Option PathPtr
  deriving DecidableEq, Repr

/-- `struct watch_dir`, with `hEvent` of its `over`. -/
structure WatchDir where
  handle : Handle
  hEvent : Handle
  bufUnaligned : Option BufPtr
  nref : Int
  watchPath : Option PathPtr
  items : List ResPtr
  deriving DecidableEq, Repr

/-- The heaps, the open handles, and the fields of `struct resman`; `waitHandles` is none when the
pointer of this name does not point to an array any more. -/
structure State where
  resources : ResPtr → Option Resource
  wdirs : DirPtr → Option WatchDir
  paths : PathPtr → Option Text
  bufs : BufPtr → Bool
  opened : Handle → Bool
  watchdirs : RbTree Text DirPtr
  wdirbyev : RbTree Handle DirPtr
  tpoolWaitHandle : Handle
  waitHandles : Option DynArr

/-! ## The array of handles -/

/-- What `resman_init` leaves of the array of handles. -/
def initHandles (pool : Handle) : Option DynArr := do
  dynarrPush (← (← dynarrAlloc 0 wordSize true)) (some (wordBytes pool)) true

/-- What `resman_init` leaves. -/
def State.initial (pool : Handle) : State where
  resources _ := none
  wdirs _ := none
  paths _ := none
  bufs _ := false
  opened h := h = pool
  watchdirs := rbCreate strcmp
  wdirbyev := rbCreate cmpaddr
  tpoolWaitHandle := pool
  waitHandles := initHandles pool

/-! ## Memory -/

def State.setDir (s : State) (d : DirPtr) (w : Option WatchDir) : State :=
  { s with wdirs := Function.update s.wdirs d w }

def State.setPath (s : State) (q : PathPtr) (path : Option Text) : State :=
  { s with paths := Function.update s.paths q path }

def State.setBuf (s : State) (b : BufPtr) (used : Bool) : State :=
  { s with bufs := Function.update s.bufs b used }

def State.setOpened (s : State) (h : Handle) (o : Bool) : State :=
  { s with opened := Function.update s.opened h o }

def State.setResource (s : State) (p : ResPtr) (r : Option Resource) : State :=
  { s with resources := Function.update s.resources p r }

/-- `free` of a buffer or of null. -/
def State.freeBuf (s : State) : Option BufPtr → Option State
  | none => some s
  | some b => if s.bufs b then some (s.setBuf b false) else none

/-- `if(h && h != INVALID_HANDLE_VALUE) CloseHandle(h);` -/
def State.closeValid (s : State) (h : Handle) : State :=
  if h ≠ 0 ∧ h ≠ invalidHandle then s.setOpened h false else s

/-! ## Starting a watch -/

/-- What a call of `resman_start_watch` is given: the current directory, the memory for the path,
for a directory, for its buffer and for an item, the handles that `CreateFile` and `CreateEvent`
return, whether `ReadDirectoryChangesW` succeeds, the nodes of the two trees, and whether the array
of handles can grow. -/
structure StartEnv where
  cwd : Text
  path : Option PathPtr
  wdir : Option DirPtr
  handle : Handle
  buf : Option BufPtr
  hEvent : Handle
  notify : Bool
  dirNode : Option Addr
  evNode : Option Addr
  grow : Bool
  item : Bool
  deriving DecidableEq, Repr

/-- The code after `err`, with the path freed. -/
def startErr (s : State) (path : PathPtr) (wdir : Option DirPtr) : Option (State × Int) := do
  let s := s.setPath path none
  match wdir with
  | none => return (s, -1)
  | some d =>
    let w ← s.wdirs d
    let s ← (s.closeValid w.handle).freeBuf w.bufUnaligned
    return (s.closeValid w.hEvent, -1)

/-- The new item of a directory, and the path of the resource. -/
def addItem (s : State) (res : ResPtr) (path : PathPtr) (d : DirPtr) (env : StartEnv) :
    Option (State × Int) := do
  if env.item then
    let w ← s.wdirs d
    let s := s.setDir d (some { w with items := res :: w.items })
    let r ← s.resources res
    return (s.setResource res (some { r with watchPath := some path }), 0)
  else startErr s path (some d)

/-- A directory that is watched already is used again. -/
def shareDir (s : State) (res : ResPtr) (path : PathPtr) (d : DirPtr) (env : StartEnv) :
    Option (State × Int) := do
  let w ← s.wdirs d
  if w.nref < 2 ^ 31 - 1 then
    addItem (s.setDir d (some { w with nref := w.nref + 1 })) res path d env
  else none

/-- The new directory is registered. -/
def registerDir (s : State) (d : DirPtr) (w : WatchDir) (dir : Text) (env : StartEnv) :
    Option State := do
  let watchdirs ← rbInsert s.watchdirs env.dirNode dir (some d)
  let wdirbyev ← rbInsert s.wdirbyev env.evNode w.hEvent (some d)
  let waitHandles ← dynarrPush (← s.waitHandles) (some (wordBytes w.hEvent)) env.grow
  return { s.setDir d (some w) with watchdirs, wdirbyev, waitHandles := some waitHandles }

/-- A new watch of a directory. -/
def openDir (s : State) (res : ResPtr) (path : PathPtr) (dir : Text) (env : StartEnv) :
    Option (State × Int) :=
  match env.wdir with
  | none => startErr s path none
  | some d =>
    let w : WatchDir := ⟨env.handle, 0, none, 1, none, []⟩
    if env.handle = invalidHandle then startErr (s.setDir d (some w)) path (some d)
    else
      let s := s.setOpened env.handle true
      match env.buf with
      | none => startErr (s.setDir d (some w)) path (some d)
      | some b =>
        let w := { w with bufUnaligned := some b, hEvent := env.hEvent }
        let s := (s.setBuf b true).setOpened env.hEvent (env.hEvent ≠ 0)
        if env.notify then do
          let s ← registerDir s d { w with watchPath := some path } dir env
          addItem s res path d env
        else startErr (s.setDir d (some w)) path (some d)

/-- `resman_start_watch` -/
def startWatch (s : State) (res : ResPtr) (env : StartEnv) : Option (State × Int) := do
  let r ← s.resources res
  let full ← absPath env.cwd r.name
  match env.path with
  | none => return (s, -1)
  | some path =>
    match cutLastSlash (← cleanPath full) with
    | none => startErr s path none
    | some dir =>
      let s := s.setPath path (some dir)
      match rbFind s.watchdirs dir with
      | some d => shareDir s res path d env
      | none => openDir s res path dir env

/-! ## Stopping a watch -/

/-- Whether the array of handles can be reallocated to fewer elements, and
whether it is moved then. -/
structure StopEnv where
  shrink : Bool
  moves : Bool
  deriving DecidableEq, Repr

/-- The first of so many handles from index `i` on that is `h`. -/
def findHandle (buf : List (Option Byte)) (h : Handle) : Nat → Nat → Option (Option Nat)
  | 0, _ => some none
  | n + 1, i => do
    if (← readWord buf i) = h then return some i else findHandle buf h n (i + 1)

/-- The search in `wait_handles`: the last element takes the place of the one found. What
`dynarr_pop` returns is not stored, and the old array is gone when it has been moved. -/
def dropHandle (da : DynArr) (h : Handle) (env : StopEnv) : Option (Option DynArr) := do
  let sz := da.nelem.toNat
  match ← findHandle da.buf h sz 0 with
  | none => return some da
  | some i =>
    let buf ← writeWord da.buf i (← readWord da.buf (sz - 1))
    let buf ← writeWord buf (sz - 1) 0
    let (popped, resized) ← dynarrPop { da with buf } env.shrink
    return if resized && env.moves then none else some popped

/-- The last reference to a directory is gone. -/
def releaseDir (s : State) (res : ResPtr) (d : DirPtr) (w : WatchDir) (env : StopEnv) :
    Option State := do
  -- the array holds the event, and the handle of the directory is looked for
  let waitHandles ← dropHandle (← s.waitHandles) w.handle env
  let (wdirbyev, _) ← rbDelete s.wdirbyev w.hEvent
  let q ← w.watchPath
  let (watchdirs, _) ← rbDelete s.watchdirs (← s.paths q)
  let s := ((s.setOpened w.handle false).setOpened w.hEvent false).setPath q none
  let r ← s.resources res
  return { (s.setDir d none).setResource res (some { r with watchPath := none }) with
    watchdirs, wdirbyev, waitHandles }

/-- The items after the first one of the resource. -/
def itemsAfter (res : ResPtr) : List ResPtr → Option (List ResPtr)
  | [] => none
  | witem :: next => if witem = res then some next else itemsAfter res next

/-- An item is removed. `wprev` stays at the first one, and without items it is null. -/
def removeItem (res : ResPtr) : List ResPtr → Option (List ResPtr)
  | [] => none
  | wprev :: next =>
    if wprev = res then some next else some (wprev :: (itemsAfter res next).getD next)

/-- `resman_stop_watch` -/
def stopWatch (s : State) (res : ResPtr) (env : StopEnv) : Option State := do
  let r ← s.resources res
  match r.watchPath with
  | none => return s
  | some q =>
    match rbFind s.watchdirs (← s.paths q) with
    | none => return s
    | some d =>
      let w ← s.wdirs d
      let w := { w with nref := w.nref - 1 }
      if w.nref ≤ 0 then releaseDir (s.setDir d (some w)) res d w env
      else return s.setDir d (some { w with items := ← removeItem res w.items })

end Resman.Win32
