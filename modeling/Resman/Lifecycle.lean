import Resman.Lib.Run

/-!
# Managers and the static thread pool

`resman_init` creates the pool that `thread_pool` points to when there is none, and takes a
reference to it; `resman_destroy` gives the reference back, and the last one destroys the pool.
`thread_pool` is not reset when that happens.

* `resmanCreate`, `resmanFree` are the exported calls; `InitResult` says at which step of
  `resman_init` a failure happens.
* A destroyed pool is not deallocated, but its array of threads is: destroying it again joins freed
  threads, which is undefined (`none`).
* `livePools_iff` says when every manager that exists refers to a pool that still works.
-/

namespace Resman.Lifecycle

open Lib (exec Along forall_prefix_iff_along)

abbrev Addr := Nat

abbrev PoolPtr := Nat

/-- The fields of `struct resman_thread_pool` that decide whether it works: the reference count,
`should_quit`, and whether `threads` points to threads that have not been joined. -/
structure Pool where
  nref : Int
  shouldQuit : Bool
  threads : Bool
  deriving DecidableEq, Repr

/-- A manager, with its `tpool`. -/
structure Manager where
  addr : Addr
  tpool : PoolPtr
  deriving DecidableEq, Repr

/-- All pools ever created, the static `thread_pool`, and the managers that exist. -/
structure State where
  pools : List Pool
  threadPool : Option PoolPtr
  managers : List Manager
  deriving DecidableEq, Repr

def State.initial : State := ⟨[], none, []⟩

/-! ## The pool -/

def tpoolCreate (s : State) : State × PoolPtr :=
  ({ s with pools := s.pools ++ [⟨0, false, true⟩] }, s.pools.length)

def tpoolDestroy (tpool : Pool) : Option Pool :=
  if tpool.threads then some { tpool with shouldQuit := true, threads := false } else none

def tpoolAddref (tpool : Pool) : Pool := { tpool with nref := tpool.nref + 1 }

def tpoolRelease (tpool : Pool) : Option Pool :=
  if tpool.nref - 1 ≤ 0 then tpoolDestroy { tpool with nref := tpool.nref - 1 }
  else some { tpool with nref := tpool.nref - 1 }

/-- Runs a function of the pool on the pool behind a pointer. -/
def onPool (f : Pool → Option Pool) (s : State) (p : PoolPtr) : Option State := do
  let tpool ← s.pools[p]?
  return { s with pools := s.pools.set p (← f tpool) }

/-! ## Managers -/

/-- Where `resman_init` returns: at its end, or at a failure of `resman_tpool_create`, of the
allocation of `wait_fds`, of the push of the pool's descriptor, of `resman_init_file_monitor`, or of
the allocation of the resource array. -/
inductive InitResult where
  | ok
  | noPool
  | noWaitFds
  | noPush
  | noMonitor
  | noRes
  deriving DecidableEq, Repr

/-- `resman_init`: the state, and the pool of the manager when it succeeds. -/
def resmanInit (s : State) (result : InitResult) : Option (State × Option PoolPtr) :=
  match s.threadPool, result with
  | none, .noPool => some (s, none)
  | some _, .noPool => none
  | threadPool, result =>
    let (s, p) :=
      match threadPool with
      | some p => (s, p)
      | none =>
        let (s, p) := tpoolCreate s
        ({ s with threadPool := some p }, p)
    (onPool (fun tpool => some (tpoolAddref tpool)) s p).map fun s =>
      (s, if result = .ok then some p else none)

/-- `resman_create`, with the address that `malloc` returns. -/
def resmanCreate (s : State) (addr : Addr) (result : InitResult) : Option State :=
  if s.managers.any (·.addr == addr) then none
  else
    (resmanInit s result).map fun
      | (s, some p) => { s with managers := ⟨addr, p⟩ :: s.managers }
      | (s, none) => s

/-- `resman_free`: `resman_destroy` releases the pool. -/
def resmanFree (s : State) (addr : Addr) : Option State := do
  let rman ← s.managers.find? (·.addr == addr)
  let s ← onPool tpoolRelease s rman.tpool
  return { s with managers := s.managers.erase rman }

inductive Op where
  | create (addr : Addr) (result : InitResult)
  | free (addr : Addr)
  deriving DecidableEq, Repr

def step (s : State) : Op → Option State
  | .create addr result => resmanCreate s addr result
  | .free addr => resmanFree s addr

/-! ## Live pools -/

/-- The pool has not been through `resman_tpool_destroy`. -/
def Pool.Live (tpool : Pool) : Prop := tpool.shouldQuit = false ∧ tpool.threads = true

instance (tpool : Pool) : Decidable tpool.Live := inferInstanceAs (Decidable (_ ∧ _))

/-- Every manager that exists refers to a live pool. -/
def LivePools (s : State) : Prop := ∀ rman ∈ s.managers, ∃ tpool ∈ s.pools[rman.tpool]?, tpool.Live

/-- A creation that succeeds; a deletion always does. -/
def Succeeds (_ : State) : Op → Prop
  | .create _ result => result = .ok
  | .free _ => True

/-- A manager is created when there has never been a pool, or while some manager exists. -/
def CreateInTime (s : State) : Op → Prop
  | .create _ _ => s.threadPool = none ∨ s.managers ≠ []
  | .free _ => True

instance (s : State) : ∀ op, Decidable (Succeeds s op)
  | .create _ _ => inferInstanceAs (Decidable (_ = _))
  | .free _ => isTrue trivial

instance (s : State) : ∀ op, Decidable (CreateInTime s op)
  | .create _ _ => inferInstanceAs (Decidable (_ ∨ _))
  | .free _ => isTrue trivial

/-- There is at most one pool, it is the pool of every manager, its count is the number of managers,
and it is live as long as there are any. -/
inductive Counted : State → Prop where
  | initial : Counted State.initial
  | pool {tpool : Pool} {managers : List Manager} (hptr : ∀ rman ∈ managers, rman.tpool = 0)
      (hnref : tpool.nref = managers.length) (hlive : tpool.Live ↔ managers ≠ []) :
      Counted ⟨[tpool], some 0, managers⟩

theorem Counted.livePools {s : State} (h : Counted s) : LivePools s := by
  intro rman hrman
  cases h with
  | initial => cases hrman
  | @pool tpool managers hptr hnref hlive =>
    rw [hptr rman hrman]
    exact ⟨tpool, rfl, hlive.2 (List.ne_nil_of_mem hrman)⟩

theorem Counted.create {s s' : State} (h : Counted s) {addr : Addr}
    (hc : CreateInTime s (.create addr .ok)) (hs : resmanCreate s addr .ok = some s') :
    Counted s' := by
  cases h with
  | initial =>
    obtain rfl : ⟨[⟨1, false, true⟩], some 0, [⟨addr, 0⟩]⟩ = s' := Option.some.inj hs
    exact .pool (by simp) rfl (by simp [Pool.Live])
  | @pool tpool managers hptr hnref hlive =>
    unfold resmanCreate at hs
    split at hs
    · cases hs
    · obtain rfl : ⟨[tpoolAddref tpool], some 0, ⟨addr, 0⟩ :: managers⟩ = s' := Option.some.inj hs
      have hne : managers ≠ [] := hc.resolve_left (by simp)
      refine .pool (by simpa using hptr) ?_ ?_
      · simp [tpoolAddref, hnref]
      · simpa [tpoolAddref, Pool.Live] using hlive.2 hne

theorem Counted.free {s s' : State} (h : Counted s) {addr : Addr}
    (hs : resmanFree s addr = some s') : Counted s' := by
  cases h with
  | initial => cases hs
  | @pool tpool managers hptr hnref hlive =>
    simp only [resmanFree, Option.bind_eq_bind, Option.bind_eq_some_iff] at hs
    obtain ⟨rman, hfind, s₁, hrel, hs⟩ := hs
    have hmem : rman ∈ managers := List.mem_of_find?_eq_some hfind
    have hlen := List.length_erase_of_mem hmem
    have hpos := List.length_pos_of_mem hmem
    obtain ⟨hquit, hthreads⟩ := hlive.2 (List.ne_nil_of_mem hmem)
    have hptr' : ∀ rman' ∈ managers.erase rman, rman'.tpool = 0 :=
      fun rman' h' => hptr rman' (List.mem_of_mem_erase h')
    rw [hptr rman hmem, onPool] at hrel
    simp only [List.getElem?_cons_zero, Option.bind_eq_bind, Option.bind_some, tpoolRelease,
      tpoolDestroy, hthreads, if_true, hnref] at hrel
    split at hrel
    · -- the last manager: the pool is destroyed
      obtain rfl := Option.some.inj hrel
      obtain rfl := Option.some.inj hs
      refine .pool hptr' ?_ ?_
      · simp only
        omega
      · have hnil : managers.erase rman = [] := List.length_eq_zero_iff.1 (by omega)
        simp [Pool.Live, hnil]
    · obtain rfl := Option.some.inj hrel
      obtain rfl := Option.some.inj hs
      refine .pool hptr' ?_ ?_
      · simp only
        omega
      · have hne : managers.erase rman ≠ [] := List.ne_nil_of_length_pos (by omega)
        simp [Pool.Live, hne, hquit]

/-- A manager created after the last one was freed gets the destroyed pool. -/
theorem Counted.create_late {s s' : State} (h : Counted s) {addr : Addr}
    (hc : ¬ CreateInTime s (.create addr .ok)) (hs : resmanCreate s addr .ok = some s') :
    ¬ LivePools s' := by
  cases h with
  | initial => exact absurd (.inl rfl) hc
  | @pool tpool managers hptr hnref hlive =>
    obtain rfl : managers = [] := by
      by_contra hne
      exact hc (.inr hne)
    obtain rfl : ⟨[tpoolAddref tpool], some 0, [⟨addr, 0⟩]⟩ = s' := Option.some.inj hs
    intro hall
    obtain ⟨tpool', hget, hlive'⟩ := hall ⟨addr, 0⟩ List.mem_cons_self
    obtain rfl : tpoolAddref tpool = tpool' := Option.some.inj hget
    exact hlive.1 hlive' rfl

/-- **A live manager has a live pool exactly while creations come in time**: in every run of
creations that succeed and of deletions, every state has only live pools behind its managers if and
only if no manager is created after the last one has been freed. -/
theorem livePools_iff {ops : List Op} {s : State} (hok : Along step Succeeds .initial ops)
    (h : exec step .initial ops = some s) :
    (∀ pre m, pre <+: ops → exec step .initial pre = some m → LivePools m) ↔
      Along step CreateInTime .initial ops := by
  refine forall_prefix_iff_along (fun m => Counted.livePools) ?_ ?_ .initial hok h
  · intro m op m' hm hsucc hc hs
    cases op with
    | create addr result => exact hm.create (hsucc ▸ hc) (hsucc ▸ hs)
    | free addr => exact hm.free hs
  · intro m op m' hm hsucc hc hs
    cases op with
    | create addr result =>
      obtain rfl : result = .ok := hsucc
      exact hm.create_late hc hs
    | free addr => exact absurd trivial hc

/-- Three managers with overlapping lifetimes, and nothing after the last. -/
theorem livePools_iff_overlapping :
    let ops : List Op := [.create 1 .ok, .create 2 .ok, .free 1, .create 3 .ok, .free 2, .free 3]
    (∀ pre m, pre <+: ops → exec step .initial pre = some m → LivePools m) ↔
      Along step CreateInTime .initial ops :=
  livePools_iff (s := ⟨[⟨0, true, false⟩], some 0, []⟩) (by decide) (by decide)

/-- A manager created after the only other one was freed refers to the destroyed pool. -/
theorem not_livePools_create_free_create :
    ¬ ∀ ops s, Along step Succeeds .initial ops → exec step .initial ops = some s →
      LivePools s := by
  intro hall
  have hlive := hall [.create 1 .ok, .free 1, .create 1 .ok]
    ⟨[⟨1, true, false⟩], some 0, [⟨1, 0⟩]⟩ (by decide) (by decide)
  simp [LivePools, Pool.Live] at hlive

end Resman.Lifecycle
