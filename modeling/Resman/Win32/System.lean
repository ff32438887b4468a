import Resman.Win32.Basic

/-!
# Runs of the file monitor on Windows

A resource is created by `add_resource` and goes away in `remove_resource`; in between
`resman_start_watch` is called each time it has been loaded.
-/

namespace Resman.Win32

open Rb Dynarr

inductive Action where
  | create (p : ResPtr) (name : Text)
  | startWatch (p : ResPtr) (env : StartEnv)
  | stopWatch (p : ResPtr) (env : StopEnv)
  | remove (p : ResPtr) (env : StopEnv)
  deriving DecidableEq, Repr

/-- What is allocated or opened was not in use: the addresses, and the handles
when the calls succeed. -/
structure StartEnv.Fresh (s : State) (env : StartEnv) : Prop where
  path : ∀ q ∈ env.path, s.paths q = none
  wdir : ∀ d ∈ env.wdir, s.wdirs d = none
  buf : ∀ b ∈ env.buf, s.bufs b = false
  handle : env.handle ≠ invalidHandle → env.handle ≠ 0 ∧ s.opened env.handle = false
  hEvent : env.hEvent ≠ 0 →
    env.hEvent ≠ invalidHandle ∧ env.hEvent ≠ env.handle ∧ s.opened env.hEvent = false

/-- All system calls and allocations succeed. -/
structure StartEnv.Succeeds (env : StartEnv) : Prop where
  path : env.path.isSome
  wdir : env.wdir.isSome
  handle : env.handle ≠ invalidHandle
  buf : env.buf.isSome
  hEvent : env.hEvent ≠ 0
  notify : env.notify
  dirNode : env.dirNode.isSome
  evNode : env.evNode.isSome
  grow : env.grow
  item : env.item

instance (s : State) (env : StartEnv) : Decidable (env.Fresh s) :=
  haveI := Option.decidableForallMem (p := fun q : PathPtr => s.paths q = none) env.path
  haveI := Option.decidableForallMem (p := fun d : DirPtr => s.wdirs d = none) env.wdir
  haveI := Option.decidableForallMem (p := fun b : BufPtr => s.bufs b = false) env.buf
  decidable_of_iff
    ((∀ q ∈ env.path, s.paths q = none) ∧ (∀ d ∈ env.wdir, s.wdirs d = none) ∧
      (∀ b ∈ env.buf, s.bufs b = false) ∧
      (env.handle ≠ invalidHandle → env.handle ≠ 0 ∧ s.opened env.handle = false) ∧
      (env.hEvent ≠ 0 → env.hEvent ≠ invalidHandle ∧ env.hEvent ≠ env.handle ∧
        s.opened env.hEvent = false))
    ⟨fun h => ⟨h.1, h.2.1, h.2.2.1, h.2.2.2.1, h.2.2.2.2⟩,
      fun h => ⟨h.path, h.wdir, h.buf, h.handle, h.hEvent⟩⟩

instance (env : StartEnv) : Decidable env.Succeeds :=
  decidable_of_iff
    (env.path.isSome ∧ env.wdir.isSome ∧ env.handle ≠ invalidHandle ∧
      env.buf.isSome ∧ env.hEvent ≠ 0 ∧
      env.notify ∧ env.dirNode.isSome ∧ env.evNode.isSome ∧ env.grow ∧ env.item)
    ⟨fun ⟨h₁, h₂, h₃, h₄, h₅, h₆, h₇, h₈, h₉, h⟩ => ⟨h₁, h₂, h₃, h₄, h₅, h₆, h₇, h₈, h₉, h⟩,
      fun h => ⟨h.path, h.wdir, h.handle, h.buf, h.hEvent, h.notify, h.dirNode,
        h.evNode, h.grow, h.item⟩⟩

def step (s : State) : Action → Option State
  | .create p name =>
    if s.resources p = none then some (s.setResource p (some ⟨name, none⟩)) else none
  | .startWatch p env => if env.Fresh s then (startWatch s p env).map Prod.fst else none
  | .stopWatch p env => stopWatch s p env
  | .remove p env => do
    let s ← stopWatch s p env
    return s.setResource p none

/-- The directory that `resman_stop_watch` finds for a resource. -/
def State.dirOf (s : State) (p : ResPtr) : Option DirPtr := do
  let r ← s.resources p
  let q ← r.watchPath
  rbFind s.watchdirs (← s.paths q)

/-- All that the action asks for succeeds. -/
def Action.Succeeds : Action → Prop
  | startWatch _ env => env.Succeeds
  | stopWatch _ env | remove _ env => env.shrink
  | create .. => True

instance : DecidablePred Action.Succeeds
  | .startWatch _ env => inferInstanceAs (Decidable env.Succeeds)
  | .stopWatch _ env | .remove _ env => inferInstanceAs (Decidable (env.shrink = true))
  | .create .. => isTrue trivial

/-- What the system gives in the `n`th call of a run: everything succeeds. -/
def StartEnv.nth (n : Nat) : StartEnv where
  cwd := "C:\\w".toList
  path := some n
  wdir := some n
  handle := BitVec.ofNat 64 (8 * n)
  buf := some n
  hEvent := BitVec.ofNat 64 (8 * n + 4)
  notify := true
  dirNode := some n
  evNode := some n
  grow := true
  item := true

end Resman.Win32
