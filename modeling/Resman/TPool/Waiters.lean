import Resman.TPool.ExactlyOnce
import Resman.TPool.Guard

/-!
# Waiting for the jobs of a pool

`wait_barrier`: a thread leaves the loop of `resman_tpool_wait` when the two counters are zero, and
then no job is left over. That the thread gets there is another matter: every step that lowers
`qsize + nactive` has to wake the threads that wait for it. A worker does so, in the same critical
section (`Heard`); `resman_tpool_clear` does not, and `heard_iff` says when that matters.
-/

namespace Resman.TPool

open Lib

variable {capacity : Nat} {s s' : World} {P : PoolPtr} {v v' : Scene} {pool : Pool}
  {as : List Action} {heap : ItemPtr → Option WorkItem} {q : List ItemPtr} {K : Wait → Prop}

/-! ## The barrier -/

theorem Worker.running_of_idle {wk : Worker} (h : wk.active = false) : wk.running heap = none := by
  cases wk <;> first | rfl | cases h

/-- When both counters are zero, no job is queued or executed. -/
theorem JobsOk.idle (h : JobsOk heap pool q) (hq : pool.qsize = 0) (ha : pool.nactive = 0) :
    (view heap pool q).queue = [] ∧ ∀ w, (view heap pool q).running w = none := by
  have hnil : q = [] := by
    have hlen := h.queued
    rw [queuedJobs, hq] at hlen
    exact List.length_eq_zero_iff.1 (by omega)
  refine ⟨by rw [hnil]; rfl, fun w => ?_⟩
  have hcount : pool.workers.countP Worker.active = 0 := by
    have hact := h.active
    rw [activeJobs, ha] at hact
    omega
  show pool.workers[w]?.bind (Worker.running heap) = none
  rw [Option.bind_eq_none_iff]
  intro wk hwk
  apply Worker.running_of_idle
  simpa using List.countP_eq_zero.1 hcount wk (List.mem_of_getElem? hwk)

/-- A thread leaves its loop when its condition is met. -/
theorem blocks_of_left {t : CallerId} {k : Wait} (h : waitStep s t P pool k = some s')
    (hleft : s'.callers t = none) : k.blocks pool = false := by
  obtain ⟨-, hs⟩ := locked_eq_some h
  obtain rfl := Option.some.inj hs
  cases hb : k.blocks pool with
  | false => rfl
  | true => simp [World.setCaller, hb] at hleft

/-- **`resman_tpool_wait` is a barrier**: when it leaves its loop, every job that has been linked
was discarded, or its work callback and its done callback have returned. -/
theorem wait_barrier {t : CallerId} {o : Oracle} {id : JobId} {job : List (Callback × Nat)}
    (h : exec (step capacity) .initial as = some s) (hP : s.pools P = some pool)
    (ht : s.callers t = some (P, .waitTest .all) ∨ ∃ b, s.callers t = some (P, .waiting .all b))
    (hstep : step capacity s (.caller t o) = some s') (hleft : s'.callers t = none)
    (hlinked : .linked id job ∈ pool.log) :
    .discarded id ∈ pool.log ∨ ∃ w, ∀ c ∈ job, .called id w c ∈ pool.log := by
  have hwait : waitStep s t P pool .all = some s' := by
    rcases ht with ht | ⟨b, ht⟩ <;> simpa [step, callerStep, ht, hP] using hstep
  have hblocks := blocks_of_left hwait hleft
  simp only [Wait.blocks, ne_eq, decide_eq_false_iff_not, not_or, not_not] at hblocks
  obtain ⟨q, hjobs⟩ := jobsOk_of_run h hP
  obtain ⟨hqueue, hrunning⟩ := hjobs.idle hblocks.2 hblocks.1
  obtain ⟨st, hst, -⟩ := hjobs.states id job hlinked
  exact hst.settled hqueue hrunning hlinked

/-- The second of two jobs is discarded while the first one is executed, and a
thread waits for both. -/
def executedAndDiscarded : List Action :=
  firstFinished.take 15 ++ [.call 0 0 .clear] ++ List.replicate 7 (.worker 0 0) ++
  [.call 1 0 (.wait .all)]

theorem wait_barrier_executedAndDiscarded :
    let s := (exec (step 65536) .initial executedAndDiscarded).get (by decide +kernel)
    let pool := (s.pools 0).get (by decide +kernel)
    .discarded 0 ∈ pool.log ∨ ∃ w, ∀ c ∈ [(1, 7), (2, 7)], .called 0 w c ∈ pool.log :=
  wait_barrier (Option.some_get _).symm (Option.some_get _).symm (.inl (by decide +kernel))
    (Option.some_get (by decide +kernel :
      (step 65536 ((exec (step 65536) .initial executedAndDiscarded).get _)
        (.caller 1 {})).isSome)).symm
    (by decide +kernel) (by decide +kernel)

/-! ## Sleeping on a condition that is met -/

/-- `resman_tpool_wait`, or `resman_tpool_wait_pending` with a target that is not negative. -/
def Wait.lasts : Wait → Prop
  | all => True
  | pending target => 0 ≤ target
  | timed => False

/-- While the mutex is free, no thread is blocked unsignalled whose condition is met. -/
def NoneMissed (P : PoolPtr) (s : World) : Prop :=
  ∀ pool, s.pools P = some pool → pool.mutex = none →
    ∀ t k, s.callers t = some (P, .waiting k false) → k.lasts → k.blocks pool = true

/-- `resman_tpool_clear` is called while every thread that is blocked unsignalled in one of the
waits `K` also waits for jobs that are not in the queue. -/
def ClearsForNone (K : Wait → Prop) (P : PoolPtr) (s : World) : Action → Prop
  | .call _ P' .clear => P' = P → ∀ pool, s.pools P = some pool →
      ∀ t k, s.callers t = some (P, .waiting k false) → K k →
        k.blocks { pool with qsize := 0 } = true
  | _ => True

/-- `resman_tpool_clear` is called while every thread that is blocked unsignalled also waits for
jobs that are not in the queue. -/
def ClearsForNobody (P : PoolPtr) (s : World) (a : Action) : Prop := ClearsForNone Wait.lasts P s a

/-- The threads that are blocked unsignalled in one of the waits `K` have reason to, and there are
none when a worker is about to decrement `nactive`. -/
structure Heard (K : Wait → Prop) (v : Scene) : Prop where
  guarded : Guarded v
  waiting : ∀ t k, v.callers t = some (.waiting k false) → K k → k.blocks v.pool = true
  writing : ∀ (w : Nat) id job, v.pool.workers[w]? = some (.writing id job) →
    ∀ t k, v.callers t ≠ some (.waiting k false)

/-- The condition of a waiting thread reads the counters only. -/
theorem Wait.blocks_congr {pool pool' : Pool} (k : Wait) (hq : pool'.qsize = pool.qsize)
    (ha : pool'.nactive = pool.nactive) : k.blocks pool' = k.blocks pool := by
  cases k <;> simp [blocks, hq, ha]

/-- A thread goes on waiting while the jobs that are queued or taken do not get fewer. -/
theorem Wait.blocks_mono {pool pool' : Pool} {k : Wait}
    (hcounts : 0 ≤ pool.qsize ∧ 0 ≤ pool.nactive)
    (hle : pool.qsize + pool.nactive ≤ pool'.qsize + pool'.nactive) (h : k.blocks pool = true) :
    k.blocks pool' = true := by
  cases k with
  | all | timed =>
    simp only [blocks, decide_eq_true_eq] at h ⊢
    omega
  | pending target =>
    simp only [blocks, decide_eq_true_eq] at h ⊢
    omega

/-- A thread that is blocked unsignalled after another one has moved was so before. -/
theorem waiting_of_update {callers : CallerId → Option Position} {t t' : CallerId}
    {c : Option Position} {k : Wait} (hc : c ≠ some (.waiting k false))
    (h : Function.update callers t c t' = some (.waiting k false)) :
    callers t' = some (.waiting k false) := by
  rcases update_eq_some.1 h with ⟨-, heq⟩ | ⟨-, hold⟩
  · exact absurd heq hc
  · exact hold

theorem not_waiting_signal {callers : CallerId → Option Position} {t : CallerId} {k : Wait} :
    (callers t).map Position.signal ≠ some (.waiting k false) := by
  intro h
  obtain ⟨pos, -, hpos⟩ := Option.map_eq_some_iff.1 h
  cases pos <;> simp [Position.signal] at hpos

theorem writing_of_set {workers : List Worker} {w i : Nat} {wk' : Worker} {id : JobId} {job : Job}
    (h : wk' ≠ .writing id job) (hi : (workers.set w wk')[i]? = some (.writing id job)) :
    workers[i]? = some (.writing id job) := by
  rcases slot_of_set hi with ⟨-, heq⟩ | ⟨-, hold⟩
  · exact absurd heq.symm h
  · exact hold

/-- A worker moves on, and the counters stay as they are. -/
theorem Heard.worker {w : Nat} {wk' : Worker} (h : Heard K v) (hguarded : Guarded v')
    (hcallers : v'.callers = v.callers) (hset : v'.pool.workers = v.pool.workers.set w wk')
    (hne : ∀ id job, wk' ≠ .writing id job) (hq : v'.pool.qsize = v.pool.qsize)
    (ha : v'.pool.nactive = v.pool.nactive) : Heard K v' := by
  refine ⟨hguarded, fun t k ht hk => ?_, fun i id job hi => ?_⟩
  · rw [hcallers] at ht
    exact (k.blocks_congr hq ha).trans (h.waiting t k ht hk)
  · rw [hset] at hi
    rw [hcallers]
    exact h.writing i id job (writing_of_set (hne id job) hi)

theorem Heard.move {a : Action} (h : Heard K v) (hmove : Move capacity P v a v')
    (hcalm : ∀ t pos, v.callers t = some pos → pos.destroys = false)
    (ha : ∀ t, a ≠ .call t P .destroy) (hcounts : 0 ≤ v.pool.qsize ∧ 0 ≤ v.pool.nactive)
    (hclear : ∀ t, a = .call t P .clear → ∀ t k, v.callers t = some (.waiting k false) → K k →
      k.blocks { v.pool with qsize := 0 } = true) : Heard K v' := by
  have hguarded := h.guarded.move hmove
  cases hmove with
  | query => exact h
  | @plain _ t c hold hnew =>
    have hne : ∀ k, c ≠ some (.waiting k false) := by
      rintro k rfl
      cases hnew _ rfl
    exact ⟨hguarded, fun t k ht => h.waiting t k (waiting_of_update (hne k) ht),
      fun w id job hw t k ht => h.writing w id job hw t k (waiting_of_update (hne k) ht)⟩
  | beginBatch | pipe => exact ⟨hguarded, h.waiting, h.writing⟩
  | endBatch =>
    exact ⟨hguarded, fun t k ht => h.waiting t k (waiting_of_update (by simp) ht),
      fun w id job hw t k ht => h.writing w id job hw t k (waiting_of_update (by simp) ht)⟩
  | clear hm =>
    refine ⟨hguarded, fun t k ht hk => ?_, h.writing⟩
    exact (k.blocks_congr rfl rfl).trans (hclear _ rfl t k ht hk)
  | destroy => exact absurd rfl (ha _)
  | link ht hm =>
    refine ⟨hguarded, fun t k ht' hk => ?_,
      fun w id job hw t k ht' => h.writing w id job hw t k (waiting_of_update (by simp) ht')⟩
    refine Wait.blocks_mono hcounts ?_ (h.waiting t k (waiting_of_update (by simp) ht') hk)
    simp only
    omega
  | test =>
    have hne : ∀ k, (if v.pool.inBatch then none else some Position.enqBroadcast) ≠
        some (.waiting k false) := by
      intro k
      split <;> simp
    exact ⟨hguarded, fun t k ht => h.waiting t k (waiting_of_update (hne k) ht),
      fun w id job hw t k ht => h.writing w id job hw t k (waiting_of_update (hne k) ht)⟩
  | broadcast =>
    refine ⟨hguarded, fun t k ht => h.waiting t k (waiting_of_update (by simp) ht),
      fun w id job hw t k ht => ?_⟩
    simp only [Pool.broadcast, List.getElem?_map, Option.map_eq_some_iff] at hw
    obtain ⟨wk, hwk, heq⟩ := hw
    cases wk <;> cases heq
    exact h.writing w id job hwk t k (waiting_of_update (by simp) ht)
  | wait _ hm hc =>
    refine ⟨hguarded, fun t' k' ht' hk' => ?_, fun w id job hw => ?_⟩
    · rcases update_eq_some.1 ht' with ⟨-, heq⟩ | ⟨-, hold⟩
      · rcases hc with rfl | ⟨hblocks, rfl⟩
        · cases heq
        · obtain ⟨rfl, -⟩ := Position.waiting.inj (Option.some.inj heq)
          exact hblocks
      · exact h.waiting t' k' hold hk'
    · -- the mutex is free, so no worker is in its critical section
      have hheld := h.guarded.mutex_eq hw rfl
      rw [hm] at hheld
      cases hheld
  | quit ht | quitBroadcast ht | join ht => cases hcalm _ _ ht
  | @outer w =>
    obtain ⟨mutex, wk', hwk', heq⟩ := outerTest_eq v.pool w
    rw [heq] at hguarded ⊢
    refine h.worker hguarded rfl rfl ?_ rfl rfl
    rcases hwk' with rfl | rfl | rfl <;> simp
  | @wake w =>
    obtain ⟨mutex, wk', hwk', heq⟩ := wakeTest_eq v.pool w
    rw [heq] at hguarded ⊢
    refine h.worker hguarded rfl rfl ?_ rfl rfl
    rcases hwk' with rfl | rfl <;> simp
  | sleep => exact h.worker hguarded rfl rfl (by simp) rfl rfl
  | take hwk =>
    refine ⟨hguarded, fun t k ht hk => ?_,
      fun w id job hw => h.writing w id job (writing_of_set (by simp) hw)⟩
    refine Wait.blocks_mono hcounts ?_ (h.waiting t k ht hk)
    simp only
    omega
  | run hwk hbusy hbusy' =>
    refine h.worker hguarded rfl rfl ?_ rfl rfl
    rintro id job rfl
    cases hbusy'
  | lock hwk hm =>
    exact ⟨hguarded, fun t k ht => absurd ht not_waiting_signal,
      fun w id job hw t k => not_waiting_signal⟩
  | finish hwk =>
    refine ⟨hguarded, fun t k ht => absurd ht (h.writing _ _ _ hwk t k),
      fun w id job hw => h.writing w id job (writing_of_set (by simp) hw)⟩

theorem Heard.create {n : Nat} : Heard K ⟨.create n, fun _ => none⟩ := by
  refine ⟨.create, fun _ _ ht => (by cases ht), fun w id job hw => ?_⟩
  have heq : Worker.writing id job = .start := List.eq_of_mem_replicate (List.mem_of_getElem? hw)
  cases heq

theorem Owned.counts {own : ItemPtr → Option Owner} (h : Owned own s) (hP : s.pools P = some pool) :
    0 ≤ pool.qsize ∧ 0 ≤ pool.nactive := by
  obtain ⟨q, hl, -⟩ := h.pools P pool hP
  rw [hl.qsize, hl.nactive]
  omega

/-- What is known of a pool that nobody destroys, as long as
`resman_tpool_clear` leaves nobody behind. -/
structure Awaited (K : Wait → Prop) (P : PoolPtr) (s : World) : Prop where
  owned : ∃ own, Owned own s
  intact : Intact P s
  heard : Holds P (Heard K) s

theorem Awaited.initial : Awaited K P .initial :=
  ⟨owned_initial, .initial, fun _ hv => (by cases hv)⟩

theorem Awaited.step {a : Action} (hI : Awaited K P s) (ha : ∀ t, a ≠ .call t P .destroy)
    (hclear : ClearsForNone K P s a) (h : step capacity s a = some s') : Awaited K P s' := by
  obtain ⟨own, howned⟩ := hI.owned
  refine ⟨howned.effect (step_cases h), hI.intact.step ha h, hI.heard.step (fun n _ hnone => ?_)
    (fun v v' hv hheard hmove => ?_) h⟩
  · rw [hI.intact.inside_eq_none hnone]
    exact .create
  · obtain ⟨hP, hc⟩ := scene_eq_some.1 hv
    refine hheard.move hmove (hc ▸ hI.intact.calm) ha (howned.counts hP) ?_
    rintro t rfl t' k ht' hk
    exact hclear rfl v.pool hP t' k (inside_eq_some.1 ((congrFun hc t').trans ht')) hk

theorem Awaited.noneMissed (hI : Awaited Wait.lasts P s) : NoneMissed P s := fun _ hP _ t k ht hk =>
  (hI.heard _ (scene_of hP rfl)).waiting t k (inside_eq_some.2 ht) hk

/-- A waiting thread whose condition `resman_tpool_clear` has met sleeps on. -/
theorem not_noneMissed_of_clear {a : Action} (ha : ¬ ClearsForNobody P s a)
    (h : step capacity s a = some s') : ¬ NoneMissed P s' := by
  cases a with
  | call t P' f =>
    cases f with
    | clear =>
      simp only [ClearsForNobody, ClearsForNone, Classical.not_forall, Bool.not_eq_true] at ha
      obtain ⟨rfl, pool, hP, t', k, ht', hk, hblocks⟩ := ha
      simp only [step] at h
      split at h
      · cases h
      · simp only [callStep, hP, Option.bind_eq_bind, Option.bind_some] at h
        obtain ⟨⟨items', pool'⟩, hlocked, rfl⟩ := Option.map_eq_some_iff.1 h
        obtain ⟨hm, hclear⟩ := locked_eq_some hlocked
        obtain ⟨log, rfl⟩ := cleared_of_clearQueue hclear
        intro hnone
        have hawake := hnone _ (Function.update_self _ _ _) hm t' k ht' hk
        have hmet : k.blocks (pool.cleared log) = false := (k.blocks_congr rfl rfl).trans hblocks
        exact absurd (hawake.symm.trans hmet) (by decide)
    | enqueue | beginBatch | endBatch | query | wait | getWaitFd | drain | destroy =>
      exact absurd trivial ha
  | create | caller | worker => exact absurd trivial ha

/-- **No waiter sleeps with its condition met**, in a pool that nobody destroys, if and only if
every `resman_tpool_clear` of the run leaves each blocked thread a reason to wait. -/
theorem noneMissed_iff (hno : ∀ t, Action.call t P .destroy ∉ as)
    (h : exec (step capacity) .initial as = some s) :
    (∀ pre m, pre <+: as → exec (step capacity) .initial pre = some m → NoneMissed P m) ↔
      Along (step capacity) (ClearsForNobody P) .initial as :=
  forall_prefix_iff_along (I := Awaited Wait.lasts P) (fun _ hm => hm.noneMissed)
    (fun _ _ _ hm ha hclear hstep => hm.step ha hclear hstep)
    (fun _ _ _ _ _ hclear hstep => not_noneMissed_of_clear hclear hstep) .initial
    (along_undestroyed hno) h

/-- A thread waits for a job; then the queue is cleared. -/
def clearedWhileWaiting : List Action :=
  [.create 0 1, .call 0 0 (.enqueue ⟨7, 1, none⟩), .caller 0 {}, .caller 0 { mem := some 100 }] ++
  List.replicate 3 (.caller 0 {}) ++ [.call 1 0 (.wait .all), .caller 1 {}, .call 0 0 .clear]

theorem noneMissed_iff_clearedWhileWaiting :
    (∀ pre m, pre <+: clearedWhileWaiting → exec (step 65536) .initial pre = some m →
      NoneMissed 0 m) ↔ Along (step 65536) (ClearsForNobody 0) .initial clearedWhileWaiting :=
  noneMissed_iff (by simp [clearedWhileWaiting]) (Option.some_get (by decide +kernel :
    (exec (step 65536) .initial clearedWhileWaiting).isSome)).symm

/-- The mutex is free and nothing is pending, and the thread is blocked unsignalled. -/
theorem not_noneMissed_clearedWhileWaiting :
    ¬ ∀ as s P, (∀ t, Action.call t P .destroy ∉ as) → exec (step 65536) .initial as = some s →
      NoneMissed P s := by
  intro hall
  have hrun : ((exec (step 65536) .initial clearedWhileWaiting).any fun s =>
      s.callers 1 = some (0, .waiting .all false) ∧
        (s.pools 0).any fun pool => pool.mutex = none ∧ Wait.all.blocks pool = false) = true := by
    decide +kernel
  obtain ⟨s, hs, hrun⟩ := (Option.any_eq_true _ _).1 hrun
  obtain ⟨ht, hany⟩ := of_decide_eq_true hrun
  obtain ⟨pool, hP, hrun⟩ := (Option.any_eq_true _ _).1 hany
  obtain ⟨hm, hmet⟩ := of_decide_eq_true hrun
  have hblocks := hall _ s 0 (by simp [clearedWhileWaiting]) hs pool hP hm 1 .all ht trivial
  exact absurd (hblocks.symm.trans hmet) (by decide)

end Resman.TPool
