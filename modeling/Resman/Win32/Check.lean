import Resman.DynArr.Stack
import Resman.Lib.History
import Resman.Win32.Handles
import Resman.Win32.Notify

/-!
# Checking for changes on Windows

`resman_check_watch` asks `WaitForMultipleObjectsEx` for the first handle of `wait_handles` that is
signalled, and when it is the event of a directory, it handles what was notified there and asks for
the next changes. `Sys` is the monitor with the events as the system has them: a directory whose
changes are requested may be changed, which sets its event until the next request, and a worker sets
the event of the pool, which one wait resets.

The `ReadDirectoryChangesW` that `resman_check_watch` calls again for a directory it has handled is
taken to succeed; its result is not tested there. A `change` is one that the system reports: there
is none for a directory whose changes are not requested.
-/

namespace Resman.Win32

open Rb Dynarr Lib

/-- `WAIT_FAILED` -/
def waitFailed : BitVec 32 := 0xFFFFFFFF

/-- `WAIT_TIMEOUT` -/
def waitTimeout : BitVec 32 := 0x00000102

/-- `MAXIMUM_WAIT_OBJECTS` -/
def maximumWaitObjects : Nat := 64

/-- What a call of `resman_check_watch` is given: the answer of `WaitForMultipleObjectsEx`, and for
the directory that it handles whether `GetOverlappedResult` succeeds and what is in the buffer. -/
structure CheckEnv where
  idx : BitVec 32
  completed : Bool
  buf : List FileWatch.Byte
  deriving DecidableEq, Repr

/-- `resman_check_watch`: the directory that is handled, with what is done about it. -/
def checkWatch (wcstombs : List WChar → Option Text) (s : State) (env : CheckEnv) :
    Option (Option (DirPtr × List Notice)) := do
  let da ← s.waitHandles
  let numHandles := da.nelem.toNat
  if numHandles = 0 then return none
  else if env.idx = waitFailed then return none
  else if env.idx.toNat < numHandles then
    match rbFind s.wdirbyev (← readWord da.buf env.idx.toNat) with
    | none => return none
    | some d => return some (d, ← handleEvent wcstombs s d env.buf env.completed)
  else return none

/-! ## The system -/

/-- There are not too many handles, and they are open. -/
def Waitable (opened : Handle → Bool) (hs : List Handle) : Prop :=
  hs.length ≤ maximumWaitObjects ∧ ∀ h ∈ hs, opened h = true

instance (opened : Handle → Bool) (hs : List Handle) : Decidable (Waitable opened hs) :=
  haveI : Decidable (∀ h ∈ hs, opened h = true) := List.decidableBAll (fun h => opened h = true) hs
  inferInstanceAs (Decidable (hs.length ≤ maximumWaitObjects ∧ ∀ h ∈ hs, opened h = true))

/-- What `WaitForMultipleObjectsEx` may answer without waiting. No handle may be given twice, but in
any case an index is that of a handle that is signalled. -/
structure Answers (opened signalled : Handle → Bool) (hs : List Handle) (idx : BitVec 32) :
    Prop where
  failed : ¬ Waitable opened hs → idx = waitFailed
  object : idx ≠ waitFailed → ∀ h ∈ hs[idx.toNat]?, signalled h = true
  first : Waitable opened hs → hs.Nodup →
    idx = ((hs.findIdx? signalled).map (BitVec.ofNat 32)).getD waitTimeout

instance (opened signalled : Handle → Bool) (hs : List Handle) (idx : BitVec 32) :
    Decidable (Answers opened signalled hs idx) :=
  haveI := Option.decidableForallMem (p := fun h : Handle => signalled h = true) hs[idx.toNat]?
  decidable_of_iff
    ((¬ Waitable opened hs → idx = waitFailed) ∧
      (idx ≠ waitFailed → ∀ h ∈ hs[idx.toNat]?, signalled h = true) ∧
      (Waitable opened hs → hs.Nodup →
        idx = ((hs.findIdx? signalled).map (BitVec.ofNat 32)).getD waitTimeout))
    ⟨fun h => ⟨h.1, h.2.1, h.2.2⟩, fun h => ⟨h.failed, h.object, h.first⟩⟩

/-- The monitor, the events that are set, and the directories whose next change
has been asked for. -/
structure Sys where
  monitor : State
  signalled : Handle → Bool
  requested : DirPtr → Bool

def Sys.initial (pool : Handle) : Sys := ⟨.initial pool, fun _ => false, fun _ => false⟩

inductive Event where
  | call (a : Action)
  | change (d : DirPtr)
  | jobDone
  | check (env : CheckEnv)
  deriving DecidableEq, Repr

/-- The directory that a call has opened, and its event. -/
def Action.opens (s s' : State) : Action → Option (DirPtr × Handle)
  | startWatch _ env => env.wdir.bind fun d =>
    if (s.wdirs d).isNone ∧ (s'.wdirs d).isSome then some (d, env.hEvent) else none
  | _ => none

/-- The event of a new directory is not set, and its changes have been asked for. -/
def Sys.afterCall (x : Sys) (a : Action) (s' : State) : Sys :=
  match a.opens x.monitor s' with
  | none => { x with monitor := s' }
  | some (d, h) => ⟨s', Function.update x.signalled h false, Function.update x.requested d true⟩

/-- The wait has reset the event of the pool, if it was answered with it. -/
def Sys.afterWait (x : Sys) (hs : List Handle) (idx : BitVec 32) : Sys :=
  if hs[idx.toNat]? = some x.monitor.tpoolWaitHandle then
    { x with signalled := Function.update x.signalled x.monitor.tpoolWaitHandle false }
  else x

/-- `ReadDirectoryChangesW` resets the event. -/
def Sys.request (x : Sys) (d : DirPtr) : Option Sys := do
  let w ← x.monitor.wdirs d
  return { x with
    signalled := Function.update x.signalled w.hEvent false
    requested := Function.update x.requested d true }

section Step

variable (wcstombs : List WChar → Option Text)

def Sys.step (x : Sys) : Event → Option Sys
  | .call a => (Win32.step x.monitor a).map (x.afterCall a)
  | .change d => do
    let w ← x.monitor.wdirs d
    if x.requested d then
      some { x with
        signalled := Function.update x.signalled w.hEvent true
        requested := Function.update x.requested d false }
    else none
  | .jobDone =>
    some { x with signalled := Function.update x.signalled x.monitor.tpoolWaitHandle true }
  | .check env => do
    let hs ← x.monitor.handles
    if Answers x.monitor.opened x.signalled hs env.idx then
      match ← checkWatch wcstombs x.monitor env with
      | none => return x.afterWait hs env.idx
      | some (d, _) => (x.afterWait hs env.idx).request d
    else none

/-- What happens to a directory. -/
inductive Note where
  | opened (d : DirPtr)
  | changed (d : DirPtr)
  | handled (d : DirPtr) (notices : List Notice)
  deriving DecidableEq, Repr

def Sys.notes (x : Sys) (a : Event) (x' : Sys) : List Note :=
  match a with
  | .call a =>
    match a.opens x.monitor x'.monitor with
    | some (d, _) => [.opened d]
    | none => []
  | .change d => [.changed d]
  | .jobDone => []
  | .check env =>
    match checkWatch wcstombs x.monitor env with
    | some (some (d, notices)) => [.handled d notices]
    | _ => []

/-- The system with its history. -/
def trace : Sys × List Note → Event → Option (Sys × List Note) :=
  record (Sys.step wcstombs) (Sys.notes wcstombs)

end Step

/-! ## Reading a history -/

/-- The notes since a directory was opened. -/
def since (d : DirPtr) (es : List Note) : List Note := es.takeWhile fun n => n ≠ .opened d

def Note.handles (d : DirPtr) : Note → Bool
  | handled d' _ => d' = d
  | opened _ | changed _ => false

end Resman.Win32
