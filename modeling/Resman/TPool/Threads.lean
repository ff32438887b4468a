import Mathlib.Data.List.ReduceOption
import Resman.TPool.Basic

/-!
# The threads of a pool

`resman_tpool_create` starts the threads one by one and compares what `pthread_create` returns with
-1, which it never is: it returns 0 or a positive error number. So a thread that was not created is
not noticed, the pool is returned all the same, and `resman_tpool_destroy` joins every entry of
`threads`, those that hold no thread included. `creationOk_iff` says when that does not happen.
-/

namespace Resman.TPool

/-- A thread that `pthread_create` made, by the entry of `threads` that it was made for. -/
abbrev Thread := Nat

/-- `threads` and `num_threads`; an entry is `none` from `calloc` until a thread
is created for it. -/
structure ThreadPool where
  numThreads : Int
  threads : List (Option Thread)
  deriving DecidableEq, Repr

/-- What the calls of `resman_tpool_create` answer: whether there is memory for the pool and for
`threads`, the number of processors, and what `pthread_create` returns for each entry, 0 or a
positive error number. -/
structure CreateEnv where
  pool : Bool
  threads : Bool
  numProcessors : Int
  created : Nat → Nat

/-- The pool that is returned, the threads that were created, and those that
were joined on the way out. -/
structure Created where
  pool : Option ThreadPool
  created : List Thread
  joined : List Thread
  deriving DecidableEq, Repr

/-- `pthread_join` for each entry in turn, undefined for one without a thread. -/
def joinThreads : List (Option Thread) → Option (List Thread)
  | [] => some []
  | none :: _ => none
  | some thread :: threads => do
    let joined ← joinThreads threads
    return thread :: joined

/-- The threads that `resman_tpool_destroy` joins. -/
def tpoolDestroy (tpool : ThreadPool) : Option (List Thread) :=
  joinThreads (tpool.threads.take tpool.numThreads.toNat)

/-- The loop of `resman_tpool_create` from entry `i` on, and whether it comes to its end. -/
def createThreads (created : Nat → Nat) : Nat → Nat → ThreadPool → ThreadPool × Bool
  | 0, _, tpool => (tpool, true)
  | n + 1, i, tpool =>
    let res : Int := created i
    let tpool := if res = 0 then { tpool with threads := tpool.threads.set i (some i) } else tpool
    if res = -1 then (tpool, false) else createThreads created n (i + 1) tpool

/-- The number of threads that `resman_tpool_create` plans. -/
def plannedThreads (numThreads : Int) (env : CreateEnv) : Int :=
  if numThreads ≤ 0 then env.numProcessors else numThreads

def tpoolCreate (numThreads : Int) (env : CreateEnv) : Option Created :=
  if !env.pool then some ⟨none, [], []⟩
  else
    let num := plannedThreads numThreads env
    if !env.threads then some ⟨none, [], []⟩
    else
      match createThreads env.created num.toNat 0 ⟨num, List.replicate num.toNat none⟩ with
      | (tpool, true) => some ⟨some tpool, tpool.threads.reduceOption, []⟩
      | (tpool, false) => do
        let joined ← tpoolDestroy tpool
        return ⟨none, tpool.threads.reduceOption, joined⟩

/-- The pool as its workers see it: a thread that was never created is as good
as one that has returned. -/
def ThreadPool.started (tpool : ThreadPool) : Pool :=
  { Pool.create 0 with
    workers := tpool.threads.map fun thread => if thread.isSome then .start else .exited }

/-! ## Joining -/

/-- The joins are those of threads that were created, and all of them, exactly if
every entry holds a thread. -/
theorem joinThreads_eq_reduceOption {threads : List (Option Thread)} :
    joinThreads threads = some threads.reduceOption ↔ none ∉ threads := by
  induction threads with
  | nil => simp [joinThreads]
  | cons entry threads ih =>
    cases entry with
    | none => simp [joinThreads]
    | some thread =>
      rw [List.reduceOption_cons_of_some, List.mem_cons, not_or, ← ih]
      cases hjoined : joinThreads threads with
      | none => simp [joinThreads, hjoined]
      | some joined => simp [joinThreads, hjoined]

/-! ## Creating -/

section Creating

variable {created : Nat → Nat}

/-- The entries that `pthread_create` fills. -/
def filled (created : Nat → Nat) (i : Nat) : Option Thread := if created i = 0 then some i else none

@[simp] theorem filled_eq_none {i : Nat} : filled created i = none ↔ created i ≠ 0 := by
  simp [filled]

/-- A list with an entry set, by what is before it and after it. -/
theorem set_filled (before : List (Option Thread)) (n : Nat) (entry : Option Thread) :
    (before ++ List.replicate (n + 1) none).set before.length entry =
      (before ++ [entry]) ++ List.replicate n none := by
  rw [List.set_append_right _ _ (Nat.le_refl _), Nat.sub_self, List.replicate_succ,
    List.set_cons_zero, List.append_assoc, List.singleton_append]

/-- The loop comes to its end whatever the calls return, and fills the entries
of those that returned 0. -/
theorem createThreads_eq (num : Int) (n i : Nat) :
    createThreads created n i ⟨num, (List.range i).map (filled created) ++ List.replicate n none⟩ =
      (⟨num, (List.range (i + n)).map (filled created)⟩, true) := by
  induction n generalizing i with
  | zero => simp [createThreads]
  | succ n ih =>
    have hlength : ((List.range i).map (filled created)).length = i := by simp
    have hentry : (if (created i : Int) = 0 then
        (⟨num, ((List.range i).map (filled created) ++ List.replicate (n + 1) none).set i
          (some i)⟩ : ThreadPool)
        else ⟨num, (List.range i).map (filled created) ++ List.replicate (n + 1) none⟩) =
        ⟨num, (List.range (i + 1)).map (filled created) ++ List.replicate n none⟩ := by
      rw [List.range_succ, List.map_append, List.map_singleton]
      split
      · next h0 =>
        have hset := set_filled ((List.range i).map (filled created)) n (some i)
        rw [hlength] at hset
        rw [hset, filled, if_pos (by omega)]
      · next h0 =>
        rw [filled, if_neg (by omega), List.append_assoc, List.singleton_append,
          ← List.replicate_succ]
    -- No result is the -1 that the loop looks for.
    have hpos : (created i : Int) ≠ -1 := by omega
    unfold createThreads
    simp only [if_neg hpos, hentry]
    rw [ih (i + 1), show i + 1 + n = i + (n + 1) by omega]

theorem tpoolCreate_eq {numThreads : Int} {env : CreateEnv} (hpool : env.pool = true)
    (hthreads : env.threads = true) :
    tpoolCreate numThreads env =
      let threads := (List.range (plannedThreads numThreads env).toNat).map (filled env.created)
      some ⟨some ⟨plannedThreads numThreads env, threads⟩, threads.reduceOption, []⟩ := by
  have hloop := @createThreads_eq env.created (plannedThreads numThreads env)
    (plannedThreads numThreads env).toNat 0
  rw [List.range_zero, List.map_nil, List.nil_append, Nat.zero_add] at hloop
  simp only [tpoolCreate, hpool, hthreads, Bool.not_true, Bool.false_eq_true, if_false, hloop]

theorem allocated_of_pool {numThreads : Int} {env : CreateEnv} {r : Created} {tpool : ThreadPool}
    (hr : tpoolCreate numThreads env = some r) (htp : r.pool = some tpool) :
    env.pool = true ∧ env.threads = true := by
  refine ⟨?_, ?_⟩
  · by_contra hpool
    simp only [tpoolCreate, Bool.not_eq_true] at hr hpool
    simp only [hpool, Bool.not_false, if_true, Option.some.injEq] at hr
    exact absurd (hr ▸ htp) nofun
  · by_contra hthreads
    simp only [tpoolCreate, Bool.not_eq_true] at hr hthreads
    simp only [hthreads, Bool.not_false, if_true, ite_self, Option.some.injEq] at hr
    exact absurd (hr ▸ htp) nofun

end Creating

/-! ## The pool that is returned -/

/-- A call that returns a pool has created every thread, and the pool's end joins the threads that
were created; a call that returns none has joined those that it created. -/
def CreationOk (numThreads : Int) (env : CreateEnv) : Prop :=
  ∃ r, tpoolCreate numThreads env = some r ∧
    (∀ tpool, r.pool = some tpool → r.created.length = (plannedThreads numThreads env).toNat ∧
      r.joined = [] ∧ tpoolDestroy tpool = some r.created) ∧
    (r.pool = none → r.joined = r.created)

/-- With memory for the pool, the threads are right when they are all created. -/
theorem creationOk_of_allocated {numThreads : Int} {env : CreateEnv} (hpool : env.pool = true)
    (hthreads : env.threads = true) :
    CreationOk numThreads env ↔ ∀ i : Nat, i < plannedThreads numThreads env →
      env.created i = 0 := by
  have hnone : none ∉ (List.range (plannedThreads numThreads env).toNat).map (filled env.created) ↔
      ∀ i : Nat, i < plannedThreads numThreads env → env.created i = 0 := by
    simp only [List.mem_map, List.mem_range, filled_eq_none, not_exists, not_and,
      not_not, Int.lt_toNat]
  have hlength : ((List.range (plannedThreads numThreads env).toNat).map
      (filled env.created)).length = (plannedThreads numThreads env).toNat := by simp
  simp only [CreationOk, tpoolCreate_eq hpool hthreads, Option.some.injEq,
    exists_eq_left', forall_eq', reduceCtorEq, false_imp_iff, and_true, true_and, tpoolDestroy]
  rw [← hnone, ← joinThreads_eq_reduceOption, List.take_of_length_le hlength.le]
  refine ⟨fun h => h.2, fun h => ⟨?_, h⟩⟩
  rw [joinThreads_eq_reduceOption] at h
  refine (List.reduceOption_length_eq_iff.mpr fun entry hentry => ?_).trans hlength
  cases entry with
  | none => exact absurd hentry h
  | some thread => rfl

/-- **The threads** are right exactly when there is no memory for the pool, or none fails. -/
theorem creationOk_iff (numThreads : Int) (env : CreateEnv) :
    CreationOk numThreads env ↔ env.pool = false ∨ env.threads = false ∨
      ∀ i : Nat, i < plannedThreads numThreads env → env.created i = 0 := by
  have hunallocated (h : tpoolCreate numThreads env = some ⟨none, [], []⟩) :
      CreationOk numThreads env :=
    ⟨_, h, nofun, fun _ => rfl⟩
  cases hpool : env.pool with
  | false =>
    refine iff_of_true (hunallocated ?_) (.inl rfl)
    simp [tpoolCreate, hpool]
  | true =>
    cases hthreads : env.threads with
    | false =>
      refine iff_of_true (hunallocated ?_) (.inr (.inl rfl))
      simp [tpoolCreate, hpool, hthreads]
    | true =>
      rw [creationOk_of_allocated hpool hthreads]
      simp

/-- Of two threads the second is not created, and `pthread_create` returns `EAGAIN`. -/
def secondFails : CreateEnv := ⟨true, true, 4, fun i => if i = 1 then 11 else 0⟩

/-- The pool is returned with one thread of two. -/
theorem not_creationOk_secondFails : ¬ ∀ numThreads env, CreationOk numThreads env := by
  intro hall
  obtain ⟨r, hr, hpool, -⟩ := hall 2 secondFails
  obtain rfl : (⟨some ⟨2, [some 0, none]⟩, [0], []⟩ : Created) = r := Option.some.inj hr
  exact absurd (hpool _ rfl).1 (by decide)

/-- Then the workers of the pool are those that the queue is served by. -/
theorem started_eq_create {numThreads : Int} {env : CreateEnv} {r : Created} {tpool : ThreadPool}
    (hok : CreationOk numThreads env) (hr : tpoolCreate numThreads env = some r)
    (htp : r.pool = some tpool) :
    tpool.started = Pool.create (plannedThreads numThreads env).toNat := by
  obtain ⟨hpool, hthreads⟩ := allocated_of_pool hr htp
  have hall := (creationOk_of_allocated hpool hthreads).1 hok
  rw [tpoolCreate_eq hpool hthreads] at hr
  obtain rfl := Option.some.inj hr
  obtain rfl := Option.some.inj htp
  have hstart : ∀ i ∈ List.range (plannedThreads numThreads env).toNat,
      (if (filled env.created i).isSome then Worker.start else .exited) = .start := by
    intro i hi
    rw [List.mem_range, Int.lt_toNat] at hi
    simp [filled, hall i hi]
  have hworkers := List.map_congr_left hstart
  rw [List.map_const', List.length_range] at hworkers
  simp only [ThreadPool.started, Pool.create, List.map_map, Function.comp_def, hworkers]

end Resman.TPool
