import Resman.DynArr.Stack
import Resman.FileWatch.Buffer
import Resman.Lifecycle

/-!
# Initialisations that fail

`resman_init` takes its reference to the pool before it allocates anything for the manager, and none
of its failure exits gives it back. `initResult` follows it through these allocations to the exit
that it takes, and `balanced_iff` says when the count of the pool is the number of managers: when no
initialisation fails behind the reference.
-/

namespace Resman.Lifecycle

open Lib (exec Along forall_prefix_iff_along)
open Dynarr (DynArr dynarrAlloc dynarrPushRet)
open FileWatch (writeWord)

/-! ## The exits of `resman_init` -/

/-- What `resman_init` is given: whether a pool can be created, the memory for `wait_fds` and for
its first and second element, the descriptors of the pool and of inotify (none when `inotify_init`
fails), and the memory for the array of resources. -/
structure InitEnv where
  pool : Bool
  waitFds : Bool
  growPool : Bool
  poolFd : BitVec 32
  inotify : Option (BitVec 32)
  growMonitor : Bool
  res : Bool
  deriving DecidableEq, Repr

/-- `sizeof *rman->wait_fds` -/
def fdSize : Int := 4

/-- `sizeof *rman->res` -/
def ptrSize : Int := 8

/-- `resman_init_file_monitor`: the array of descriptors, or none when it returns -1. The trees are
not looked at after `rb_create`. -/
def initFileMonitor (waitFds : DynArr) (env : InitEnv) : Option (Option DynArr) :=
  match env.inotify with
  | none => some none
  | some fd => dynarrPushRet waitFds (some (writeWord fd)) env.growMonitor

/-- The exit that `resman_init` takes. -/
def initResult (s : State) (env : InitEnv) : Option InitResult := do
  if s.threadPool = none ∧ ¬ env.pool then return .noPool
  match ← dynarrAlloc 0 fdSize env.waitFds with
  | none => return .noWaitFds
  | some waitFds =>
    match ← dynarrPushRet waitFds (some (writeWord env.poolFd)) env.growPool with
    | none => return .noPush
    | some waitFds =>
      match ← initFileMonitor waitFds env with
      | none => return .noMonitor
      | some _ =>
        match ← dynarrAlloc 0 ptrSize env.res with
        | none => return .noRes
        | some _ => return .ok

/-- A call of `resman_create`, with the address that `malloc` returns, or of `resman_free`. -/
inductive Attempt where
  | create (addr : Addr) (env : InitEnv)
  | free (addr : Addr)
  deriving DecidableEq, Repr

def attempt (s : State) : Attempt → Option State
  | .create addr env => do resmanCreate s addr (← initResult s env)
  | .free addr => resmanFree s addr

/-! ## The count of the pool -/

/-- The count of the pool is the number of managers, and when there is none left
the pool has been destroyed. -/
def Balanced (s : State) : Prop :=
  ∀ p ∈ s.threadPool, ∃ tpool ∈ s.pools[p]?, tpool.nref = s.managers.length ∧
    (s.managers = [] → tpool.shouldQuit = true)

/-- The initialisation gets all that it asks for, or not even a pool. A push that
finds no memory is not noticed. -/
def NoLateFailure (s : State) : Attempt → Prop
  | .create _ env =>
    s.threadPool = none ∧ env.pool = false ∨ env.waitFds = true ∧
    env.inotify.isSome ∧ env.res = true
  | .free _ => True

instance (s : State) : DecidablePred (NoLateFailure s)
  | .create _ env => inferInstanceAs (Decidable (s.threadPool = none ∧ env.pool = false ∨
      env.waitFds = true ∧ env.inotify.isSome ∧ env.res = true))
  | .free _ => isTrue trivial

/-- There is at most one pool, and it has a reference for each manager. -/
inductive Referenced : State → Prop where
  | initial : Referenced State.initial
  | pool {tpool : Pool} {managers : List Manager} (hptr : ∀ rman ∈ managers, rman.tpool = 0)
      (hnref : tpool.nref = managers.length) (hquit : managers = [] → tpool.shouldQuit = true) :
      Referenced ⟨[tpool], some 0, managers⟩

variable {s s' : State} {addr : Addr} {env : InitEnv} {r : InitResult}

theorem Referenced.balanced (h : Referenced s) : Balanced s := by
  intro p hp
  cases h with
  | initial => cases hp
  | @pool tpool managers hptr hnref hquit =>
    obtain rfl := Option.some.inj hp
    exact ⟨tpool, rfl, hnref, hquit⟩

theorem dynarrPushRet_ne_null {da : DynArr} {item : Option (List Dynarr.Byte)} {mem : Bool} :
    dynarrPushRet da item mem ≠ some none := by
  simp [dynarrPushRet]

theorem dynarrAlloc_null {size : Int} {mem : Bool} {ret : Option DynArr}
    (h : dynarrAlloc 0 size mem = some ret) :
    ret = none ↔ mem = false := by
  cases mem with
  | false =>
    obtain rfl := Option.some.inj h
    simp
  | true =>
    refine iff_of_false ?_ (by simp)
    rintro rfl
    simp only [dynarrAlloc, Option.bind_eq_bind, Option.bind_eq_some_iff] at h
    obtain ⟨block, hnew, h⟩ := h
    cases block with
    | none => exact Dynarr.newBuf_ne_none hnew
    | some => cases h

/-- The exit is the last one when nothing is refused on the way, and one of those behind the
reference otherwise. -/
theorem initResult_late (h : initResult s env = some r)
    (hpool : ¬ (s.threadPool = none ∧ env.pool = false)) :
    r ≠ .noPool ∧ (r = .ok ↔ env.waitFds = true ∧ env.inotify.isSome ∧ env.res = true) := by
  have hpool' : ¬ (s.threadPool = none ∧ ¬ env.pool = true) := by simpa using hpool
  simp only [initResult, if_neg hpool', Option.bind_eq_bind, Option.bind_eq_some_iff] at h
  obtain ⟨waitFds, halloc, h⟩ := h
  have hfds := dynarrAlloc_null halloc
  cases waitFds with
  | none =>
    obtain rfl := Option.some.inj h
    simp [hfds.1 rfl]
  | some waitFds =>
    have hfds : env.waitFds = true := by simpa using hfds
    obtain ⟨pushed, hpush, h⟩ := Option.bind_eq_some_iff.1 h
    cases pushed with
    | none => exact absurd hpush dynarrPushRet_ne_null
    | some waitFds =>
      obtain ⟨monitor, hmon, h⟩ := Option.bind_eq_some_iff.1 h
      unfold initFileMonitor at hmon
      split at hmon
      · next hfd =>
        obtain rfl := Option.some.inj hmon
        obtain rfl := Option.some.inj h
        simp [hfd]
      · next fd hfd =>
        cases monitor with
        | none => exact absurd hmon dynarrPushRet_ne_null
        | some waitFds =>
          obtain ⟨res, hres, h⟩ := Option.bind_eq_some_iff.1 h
          have hiff := dynarrAlloc_null hres
          cases res with
          | none =>
            obtain rfl := Option.some.inj h
            simp [hiff.1 rfl]
          | some res =>
            obtain rfl := Option.some.inj h
            simpa [hfds, hfd] using hiff

theorem initResult_noPool (h : initResult s env = some r)
    (hpool : s.threadPool = none ∧ env.pool = false) :
    r = .noPool := by
  have hpool' : s.threadPool = none ∧ ¬ env.pool = true := by simpa using hpool
  simp only [initResult, if_pos hpool', Option.pure_def] at h
  exact (Option.some.inj h).symm

/-- A creation takes a reference unless there is no pool. -/
theorem Referenced.create (h : Referenced s) (hr : r ≠ .noPool)
    (hs : resmanCreate s addr r = some s') :
    ∃ tpool managers, s' = ⟨[tpool], some 0, if r = .ok then ⟨addr, 0⟩ :: managers else managers⟩ ∧
      s.managers = managers ∧ (∀ rman ∈ managers, rman.tpool = 0) ∧
      tpool.nref = managers.length + 1 := by
  unfold resmanCreate at hs
  split at hs
  · cases hs
  · cases h with
    | initial =>
      refine ⟨⟨1, false, true⟩, [], ?_, rfl, by simp, rfl⟩
      cases r with
      | noPool => exact absurd rfl hr
      | _ => exact (Option.some.inj hs).symm
    | @pool tpool managers hptr hnref hquit =>
      refine ⟨tpoolAddref tpool, managers, ?_, rfl, hptr, by rw [tpoolAddref, hnref]⟩
      cases r with
      | noPool => exact absurd rfl hr
      | _ => exact (Option.some.inj hs).symm

theorem Referenced.free (h : Referenced s) (hs : resmanFree s addr = some s') : Referenced s' := by
  cases h with
  | initial => cases hs
  | @pool tpool managers hptr hnref hquit =>
    simp only [resmanFree, Option.bind_eq_bind, Option.bind_eq_some_iff] at hs
    obtain ⟨rman, hfind, s₁, hrel, hs⟩ := hs
    have hmem : rman ∈ managers := List.mem_of_find?_eq_some hfind
    have hlen := List.length_erase_of_mem hmem
    have hpos := List.length_pos_of_mem hmem
    have hptr' : ∀ rman' ∈ managers.erase rman, rman'.tpool = 0 :=
      fun rman' h' => hptr rman' (List.mem_of_mem_erase h')
    rw [hptr rman hmem, onPool] at hrel
    simp only [List.getElem?_cons_zero, Option.bind_eq_bind, Option.bind_some,
      tpoolRelease, tpoolDestroy, hnref] at hrel
    split at hrel
    · -- the last manager: the pool is destroyed
      split at hrel
      · obtain rfl := Option.some.inj hrel
        obtain rfl := Option.some.inj hs
        refine .pool hptr' ?_ fun _ => rfl
        simp only
        omega
      · cases hrel
    · obtain rfl := Option.some.inj hrel
      obtain rfl := Option.some.inj hs
      refine .pool hptr' ?_ fun hnil => ?_
      · simp only
        omega
      · have hzero : (managers.erase rman).length = 0 := by rw [hnil]; rfl
        omega

/-- **The pool is balanced exactly while no initialisation fails behind the reference**: in every
run of creations, failing anywhere, and of deletions, the count of the pool is the number of
managers in every state, and the pool is destroyed when there are none left, if and only if no call
of `resman_init` fails once there is a pool. -/
theorem balanced_iff {as : List Attempt} (h : exec attempt .initial as = some s) :
    (∀ pre m, pre <+: as → exec attempt .initial pre = some m → Balanced m) ↔
      Along attempt NoLateFailure .initial as := by
  refine forall_prefix_iff_along (D := fun _ _ => True) (I := Referenced)
    (fun _ => Referenced.balanced) ?_ ?_ .initial (Lib.along_true _ _) h
  · intro m a m' hm _ hC hs
    cases a with
    | free addr => exact hm.free hs
    | create addr env =>
      obtain ⟨r, hr, hs⟩ := Option.bind_eq_some_iff.1 hs
      by_cases hpool : m.threadPool = none ∧ env.pool = false
      · obtain rfl := initResult_noPool hr hpool
        cases hm with
        | initial => exact Option.some.inj hs ▸ .initial
        | pool => cases hpool.1
      · obtain ⟨hne, hiff⟩ := initResult_late hr hpool
        obtain rfl := hiff.2 (hC.resolve_left hpool)
        obtain ⟨tpool, managers, rfl, -, hptr, hnref⟩ := hm.create hne hs
        exact .pool (by simpa using hptr) (by rw [hnref]; simp) (by simp)
  · intro m a m' hm _ hC hs
    cases a with
    | free addr => exact absurd trivial hC
    | create addr env =>
      obtain ⟨r, hr, hs⟩ := Option.bind_eq_some_iff.1 hs
      obtain ⟨hpool, hlate⟩ := not_or.1 hC
      obtain ⟨hne, hiff⟩ := initResult_late hr hpool
      obtain ⟨tpool, managers, rfl, -, hptr, hnref⟩ := hm.create hne hs
      rw [if_neg fun hok => hlate (hiff.1 hok)]
      intro hbal
      obtain ⟨tpool', hget, hcount, -⟩ := hbal 0 rfl
      obtain rfl : tpool = tpool' := Option.some.inj hget
      simp only at hcount
      omega

/-- Everything that is asked for is there. -/
def InitEnv.full : InitEnv := ⟨true, true, true, 3, some 4, true, true⟩

/-- Two managers, the second one with an array that could not grow. -/
def createsTwo : List Attempt :=
  [.create 1 .full, .create 2 { InitEnv.full with growPool := false }, .free 1, .free 2]

theorem balanced_iff_createsTwo :
    (∀ pre m, pre <+: createsTwo → exec attempt .initial pre = some m → Balanced m) ↔
      Along attempt NoLateFailure .initial createsTwo :=
  balanced_iff (s := ⟨[⟨0, true, false⟩], some 0, []⟩) (by decide +kernel)

/-- A manager cannot be created for want of an inotify descriptor, and the pool
keeps its reference. -/
theorem not_balanced_noMonitor :
    ¬ ∀ as s, exec attempt .initial as = some s → Balanced s := by
  intro hall
  obtain ⟨tpool, hget, hcount, -⟩ := hall [.create 1 { InitEnv.full with inotify := none }]
    ⟨[⟨1, false, true⟩], some 0, []⟩ (by decide +kernel) 0 rfl
  obtain rfl : (⟨1, false, true⟩ : Pool) = tpool := Option.some.inj hget
  exact absurd hcount (by decide)

end Resman.Lifecycle
