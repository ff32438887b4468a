import Resman.Lib.Potential
import Resman.TPool.EventPipe
import Resman.TPool.Waiters

/-!
# Workers do not spin

Every step of a worker that is not a spurious wakeup brings the pool closer to rest:
`Pool.potential` counts how far each worker is from sleeping, and what each queued job will cost
one. Threads that are created, jobs that are linked and broadcasts are what raises it.
`workerSteps_le` is the account of a whole run: the steps of the workers are paid for by the
threads, the jobs and the broadcasts, so a pool to which nothing happens comes to rest.
-/

namespace Resman.TPool

open Lib

variable {capacity : Nat} {s s' : World} {P : PoolPtr} {v v' : Scene} {pool pool' : Pool} {w : Nat}

/-- The number of steps to the end of the wait, or to the end of the thread, without another job. -/
def Worker.rank : Worker → Nat
  | waiting false | exited => 0
  | sleeping => 1
  | inner => 2
  | start | waiting true | writing _ _ => 3
  | finishing _ _ => 4
  | freeing _ => 5
  | doing _ => 6
  | working _ => 7

def Pool.potential (pool : Pool) : Nat := 6 * pool.qsize.toNat + (pool.workers.map Worker.rank).sum

def potential (P : PoolPtr) (s : World) : Nat := ((s.pools P).map Pool.potential).getD 0

/-- A step of a worker of the pool. -/
def workerSteps (P : PoolPtr) (_ : World) : Action → Nat
  | .worker P' _ => if P' = P then 1 else 0
  | _ => 0

/-- What the step of a caller brings to the pool: six steps for the job that it links, and three for
each thread that it signals. -/
def Position.credit (pool : Pool) : Position → Nat
  | enqLink _ => 6
  | enqBroadcast | endBroadcast | destroyBroadcast => 3 * pool.workers.length
  | _ => 0

def Scene.credit (v : Scene) (t : CallerId) : Nat :=
  ((v.callers t).map fun pos => pos.credit v.pool).getD 0

/-- What an action brings to the pool. A new thread brings three steps, and so does
one that wakes up unsignalled. -/
def credit (P : PoolPtr) (s : World) : Action → Nat
  | .create P' numThreads => if P' = P then 3 * numThreads else 0
  | .call _ _ _ => 0
  | .caller t _ => ((s.scene P).map fun v => v.credit t).getD 0
  | .worker P' w =>
    if P' = P ∧ (s.pools P).any (·.workers[w]? = some (.waiting false)) then 3 else 0

/-! ## Steps of workers -/

/-- What the step of a worker does to the counters that the potential reads: it
moves down, or takes a job. -/
inductive Advances (pool : Pool) (w : Nat) (pool' : Pool) : Prop
  | down {wk wk' : Worker} (hwk : pool.workers[w]? = some wk)
      (hwk' : pool'.workers = pool.workers.set w wk') (hq : pool'.qsize = pool.qsize)
      (hrank : wk'.rank + 1 ≤ wk.rank + if wk = .waiting false then 3 else 0)
  | take {a : ItemPtr} (hwk : pool.workers[w]? = some .inner)
      (hwk' : pool'.workers = pool.workers.set w (.working a)) (hq : pool'.qsize = pool.qsize - 1)

theorem outerTest_advances {wk : Worker} (hwk : pool.workers[w]? = some wk)
    (hidle : wk = .start ∨ wk = .inner ∧ (pool.shouldQuit ∨ pool.workq.isNone)) :
    Advances pool w (outerTest pool w) := by
  unfold outerTest
  split
  · refine .down hwk rfl rfl ?_
    rcases hidle with rfl | ⟨rfl, -⟩ <;> simp [Worker.rank]
  · next hquit =>
    split
    · refine .down hwk rfl rfl ?_
      rcases hidle with rfl | ⟨rfl, -⟩ <;> simp [Worker.rank]
    · next hnone =>
      refine .down hwk rfl rfl ?_
      rcases hidle with rfl | ⟨rfl, hquit' | hnone'⟩
      · simp [Worker.rank]
      · exact absurd hquit' hquit
      · exact absurd hnone' hnone

theorem wakeTest_advances {b : Bool} (hwk : pool.workers[w]? = some (.waiting b)) :
    Advances pool w (wakeTest pool w) := by
  unfold wakeTest
  split
  · refine .down hwk rfl rfl ?_
    cases b <;> simp [Worker.rank]
  · refine .down hwk rfl rfl ?_
    cases b <;> simp [Worker.rank]

theorem workerStep_advances (hP : s.pools P = some pool) (h : workerStep capacity s P w = some s') :
    ∃ pool', s'.pools P = some pool' ∧ Advances pool w pool' := by
  have hself : ∀ pool', Function.update s.pools P (some pool') P = some pool' := fun pool' =>
    Function.update_self _ _ _
  simp only [workerStep, hP, Option.bind_eq_bind, Option.bind_some, Option.bind_eq_some_iff] at h
  obtain ⟨wk, hwk, h⟩ := h
  cases wk with
  | start =>
    obtain ⟨-, hs⟩ := locked_eq_some h
    obtain rfl := Option.some.inj hs
    exact ⟨_, hself _, outerTest_advances hwk (.inl rfl)⟩
  | inner =>
    obtain ⟨pool', htest, rfl⟩ := Option.map_eq_some_iff.1 h
    refine ⟨pool', hself _, ?_⟩
    unfold innerTest at htest
    split at htest
    · next hidle =>
      obtain rfl := Option.some.inj htest
      exact outerTest_advances hwk (.inr ⟨rfl, hidle⟩)
    · simp only [takeItem, Option.bind_eq_bind, Option.bind_eq_some_iff] at htest
      obtain ⟨a, -, x, -, htake⟩ := htest
      obtain rfl := Option.some.inj htake
      exact .take hwk rfl rfl
  | sleeping =>
    obtain rfl := Option.some.inj h
    exact ⟨_, hself _, .down hwk rfl rfl (by simp [Worker.rank])⟩
  | waiting b =>
    obtain ⟨-, hs⟩ := locked_eq_some h
    obtain rfl := Option.some.inj hs
    exact ⟨_, hself _, wakeTest_advances hwk⟩
  | working a =>
    obtain ⟨x, -, h⟩ := Option.bind_eq_some_iff.1 h
    obtain rfl := Option.some.inj h
    refine ⟨_, hself _, .down hwk rfl rfl ?_⟩
    split <;> simp [Worker.rank]
  | doing a =>
    simp only [Option.bind_eq_some_iff] at h
    obtain ⟨x, -, done, -, h⟩ := h
    obtain rfl := Option.some.inj h
    exact ⟨_, hself _, .down hwk rfl rfl (by simp [Worker.rank])⟩
  | freeing a =>
    simp only [Option.bind_eq_some_iff] at h
    obtain ⟨x, -, items', -, h⟩ := h
    obtain rfl := Option.some.inj h
    exact ⟨_, hself _, .down hwk rfl rfl (by simp [Worker.rank])⟩
  | finishing id job =>
    obtain ⟨-, hs⟩ := locked_eq_some h
    obtain rfl := Option.some.inj hs
    exact ⟨_, hself _, .down hwk rfl rfl (by simp [Worker.rank])⟩
  | writing id job =>
    obtain ⟨pool', hfinish, rfl⟩ := Option.map_eq_some_iff.1 h
    unfold finishItem at hfinish
    split at hfinish
    · cases hfinish
    · obtain rfl := Option.some.inj hfinish
      exact ⟨_, hself _, .down hwk rfl rfl (by simp [Worker.rank])⟩
  | exited => cases h

/-- A worker pays for its step. The length of the queue is not negative afterwards,
so there was a job to take. -/
theorem Advances.paid (h : Advances pool w pool') (hq' : 0 ≤ pool'.qsize) :
    1 + pool'.potential ≤
      pool.potential + if pool.workers[w]? = some (.waiting false) then 3 else 0 := by
  cases h with
  | @down wk wk' hwk hwk' hq hrank =>
    have hsum := sum_map_set_add (g := Worker.rank) (b := wk') hwk
    rw [← hwk'] at hsum
    simp only [hwk, Option.some.injEq, Pool.potential, hq]
    omega
  | @take a hwk hwk' hq =>
    have hsum := sum_map_set_add (g := Worker.rank) (b := .working a) hwk
    rw [← hwk'] at hsum
    simp only [Worker.rank] at hsum
    simp only [hwk, Option.some.injEq, reduceCtorEq, if_false, Pool.potential]
    omega

/-! ## Other steps -/

theorem sum_rank_signal (workers : List Worker) :
    ((workers.map Worker.signal).map Worker.rank).sum ≤
      (workers.map Worker.rank).sum + 3 * workers.length := by
  induction workers with
  | nil => simp
  | cons wk workers ih =>
    have hwk : wk.signal.rank ≤ wk.rank + 3 := by
      cases wk with
      | waiting b => cases b <;> simp [Worker.signal, Worker.rank]
      | _ => simp [Worker.signal]
    simp only [List.map_cons, List.sum_cons, List.length_cons]
    omega

theorem Pool.potential_broadcast (pool : Pool) :
    pool.broadcast.potential ≤ pool.potential + 3 * pool.workers.length := by
  have hsum := sum_rank_signal pool.workers
  simp only [Pool.potential, Pool.broadcast]
  omega

/-- Callers raise the potential by what they bring. -/
theorem Move.potential_le {a : Action} (hmove : Move capacity P v a v')
    (ha : ∀ w, a ≠ .worker P w) :
    v'.pool.potential ≤ v.pool.potential ∨
      ∃ t o, a = .caller t o ∧ v'.pool.potential ≤ v.pool.potential + v.credit t := by
  cases hmove with
  | query | plain | beginBatch | endBatch | test | wait | pipe | quit | join => exact .inl le_rfl
  | clear | destroy =>
    refine .inl ?_
    simp only [Pool.potential, Pool.cleared]
    omega
  | link ht =>
    refine .inr ⟨_, _, rfl, ?_⟩
    simp only [Scene.credit, ht, Option.map_some, Option.getD_some, Position.credit, Pool.potential]
    omega
  | broadcast ht =>
    refine .inr ⟨_, _, rfl, ?_⟩
    rcases ht with ht | ht
    · rw [Scene.credit, ht]
      exact v.pool.potential_broadcast
    · rw [Scene.credit, ht]
      exact v.pool.potential_broadcast
  | quitBroadcast ht =>
    refine .inr ⟨_, _, rfl, ?_⟩
    rw [Scene.credit, ht]
    exact v.pool.potential_broadcast
  | outer | wake | sleep | take | run | lock | finish => exact absurd rfl (ha _)

theorem potential_of_scene (hv : s.scene P = some v) : potential P s = v.pool.potential := by
  rw [potential, (scene_eq_some.1 hv).1]
  rfl

theorem potential_of_none (hnone : s.scene P = none) : potential P s = 0 := by
  rw [World.scene, Option.map_eq_none_iff] at hnone
  rw [potential, hnone]
  rfl

theorem potential_create (numThreads : Nat) :
    (Pool.create numThreads).potential = 3 * numThreads := by
  simp [Pool.potential, Pool.create, Worker.rank, Nat.mul_comm]

/-- **Every action is paid for.** -/
theorem step_paid {a : Action} {own : ItemPtr → Option Owner} (howned : Owned own s')
    (h : step capacity s a = some s') :
    workerSteps P s a + potential P s' ≤ potential P s + credit P s a := by
  by_cases ha : ∃ w, a = .worker P w
  · obtain ⟨w, rfl⟩ := ha
    cases hP : s.pools P with
    | none =>
      rw [step, workerStep, hP] at h
      cases h
    | some pool =>
      obtain ⟨pool', hP', hadv⟩ := workerStep_advances hP h
      have hpaid := hadv.paid (howned.counts hP').1
      simpa [workerSteps, potential, credit, hP, hP'] using hpaid
  · have hworker : ∀ w, a ≠ .worker P w := fun w hw => ha ⟨w, hw⟩
    have hcost : workerSteps P s a = 0 := by
      cases a with
      | worker P' w =>
        have hP : P' ≠ P := by
          rintro rfl
          exact hworker w rfl
        simp [workerSteps, hP]
      | _ => rfl
    rw [hcost, Nat.zero_add]
    cases seen_of_step (P := P) h with
    | apart hapart =>
      rw [potential, hapart.pools]
      exact Nat.le_add_right _ _
    | created ha' hnone hnew =>
      subst ha'
      rw [potential_of_scene hnew, potential_create]
      simp [credit]
    | moved hv hv' hmove =>
      rw [potential_of_scene hv, potential_of_scene hv']
      rcases hmove.potential_le hworker with hle | ⟨t, o, rfl, hle⟩
      · exact hle.trans (Nat.le_add_right _ _)
      · rw [credit, hv]
        exact hle
    | gone hv ht hnone =>
      rw [potential_of_none hnone]
      exact Nat.zero_le _

/-! ## Whole runs -/

/-- The account of a run from any state in which the items are in order. -/
theorem run_paid {as : List Action} {own : ItemPtr → Option Owner} (howned : Owned own s)
    (h : exec (step capacity) s as = some s') :
    total (step capacity) (workerSteps P) s as + potential P s' ≤
      potential P s + total (step capacity) (credit P) s as := by
  have hstep : ∀ s a s', (∃ own, Owned own s) → True → step capacity s a = some s' →
      (∃ own, Owned own s') ∧ workerSteps P s a + potential P s' ≤
        potential P s + credit P s a := by
    rintro s a s' ⟨own, howned⟩ - hs
    obtain ⟨own', howned'⟩ := howned.effect (step_cases hs)
    exact ⟨⟨own', howned'⟩, step_paid howned' hs⟩
  exact total_add_le hstep ⟨own, howned⟩ (along_true _ _) h

/-- **Workers do not spin**: over any run, the workers of a pool take no more steps
than are paid for by the threads that were started, the jobs that were linked, the
broadcasts and the spurious wakeups. -/
theorem workerSteps_le {as : List Action} (h : exec (step capacity) .initial as = some s) :
    total (step capacity) (workerSteps P) .initial as + potential P s ≤
      total (step capacity) (credit P) .initial as := by
  obtain ⟨own, howned⟩ := owned_initial
  simpa [potential, World.initial] using run_paid (P := P) howned h

/-- Two jobs and two workers, one of which finishes the first job. -/
theorem workerSteps_le_firstFinished :
    ∃ s, exec (step 65536) .initial firstFinished = some s ∧
      total (step 65536) (workerSteps 0) .initial firstFinished + potential 0 s ≤
        total (step 65536) (credit 0) .initial firstFinished := by
  obtain ⟨s, h⟩ : ∃ s, exec (step 65536) .initial firstFinished = some s :=
    Option.isSome_iff_exists.1 (by decide +kernel)
  exact ⟨s, h, workerSteps_le h⟩

/-- A step of a worker that is not blocked unsignalled. -/
def Proper (P : PoolPtr) (s : World) : Action → Prop
  | .worker P' w => P' = P ∧ ∀ pool ∈ s.pools P, pool.workers[w]? ≠ some (.waiting false)
  | _ => False

instance (P : PoolPtr) (s : World) : ∀ a, Decidable (Proper P s a)
  | .worker P' w =>
    inferInstanceAs (Decidable
      (P' = P ∧ ∀ pool ∈ s.pools P, pool.workers[w]? ≠ some (.waiting false)))
  | .create _ _ | .call _ _ _ | .caller _ _ => isFalse id

theorem Worker.rank_le (wk : Worker) : wk.rank ≤ 7 := by
  cases wk with
  | waiting b => cases b <;> simp [rank]
  | _ => simp [rank]

theorem Pool.potential_le (pool : Pool) :
    pool.potential ≤ 6 * pool.qsize.toNat + 7 * pool.workers.length :=
  Nat.add_le_add_left (sum_map_le Worker.rank_le pool.workers) _

end Resman.TPool
