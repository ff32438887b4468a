import Resman.TPool.ExactlyOnce
import Resman.TPool.Guard

/-!
# Completion events and the mutex

A worker writes its completion event into the pipe with `workq_mutex` locked, and the write blocks
when the pipe is full. Only `resman_poll` empties the pipe, and the thread that polls may be the one
that waits for the mutex or for the jobs. `deadlockFree_iff`: a thread that adds jobs and then waits
for all of them is safe from a deadlock exactly when every worker finds room in the pipe when it
comes to report a completion (`Roomy`).
-/

namespace Resman.TPool

open Lib

variable {capacity : Nat} {s s' : World} {P : PoolPtr} {main : CallerId}
  {v v' : Scene} {pool : Pool} {as : List Action}

def Pool.full (capacity : Nat) (pool : Pool) : Bool := pool.pipe.any (capacity ≤ ·)

/-- A worker holds the mutex and is blocked in `send_done_event`. -/
def Pool.Stuck (capacity : Nat) (pool : Pool) : Prop :=
  ∃ (w : Nat) (id : JobId) (job : Job), pool.workers[w]? = some (.writing id job) ∧
    pool.mutex = some w ∧ pool.full capacity = true

/-- The caller can go on only with the mutex, which it waits for right away or after
`done_condvar`. -/
def Position.needsMutex : Position → Bool
  | enqLink _ | waitTest _ | waiting _ _ => true
  | _ => false

/-- A worker is blocked in `send_done_event` with the mutex, and the main thread on the mutex or on
`done_condvar`. -/
def Deadlocked (capacity : Nat) (P : PoolPtr) (main : CallerId) (s : World) : Prop :=
  ∃ pool, s.pools P = some pool ∧ pool.Stuck capacity ∧
    ∃ pos, s.callers main = some (P, pos) ∧ pos.needsMutex = true

/-- What the main thread does: it goes on with the call that it is in, and calls
`resman_wait_all`. -/
def Action.ofMain (P : PoolPtr) (main : CallerId) (a : Action) : Prop :=
  (∃ o, a = .caller main o) ∨ a = .call main P (.wait .all)

/-- The main thread does not run into a deadlock by going on. -/
def DeadlockFree (capacity : Nat) (P : PoolPtr) (main : CallerId) (s : World) : Prop :=
  ∀ bs s', (∀ b ∈ bs, Action.ofMain P main b) → exec (step capacity) s bs = some s' →
    ¬ Deadlocked capacity P main s'

/-- The main thread is in functions of this pool only, and does not destroy it. -/
def UsesOnly (P : PoolPtr) (main : CallerId) (s : World) : Prop :=
  ∀ c ∈ s.callers main, c.1 = P ∧ c.2.destroys = false

instance (P : PoolPtr) (main : CallerId) (s : World) : Decidable (UsesOnly P main s) :=
  inferInstanceAs (Decidable (∀ c ∈ s.callers main, c.1 = P ∧ c.2.destroys = false))

/-- The worker is about to lock the mutex and report a completion. -/
def Worker.reports : Worker → Bool
  | finishing _ _ => true
  | _ => false

/-- When a worker locks the mutex to report a completion, the pipe has room. -/
def ReportsWithRoom (capacity : Nat) (P : PoolPtr) (s : World) : Action → Prop
  | .worker P' w => P' = P → ∀ pool ∈ s.pools P, ∀ wk ∈ pool.workers[w]?, wk.reports = true →
      pool.full capacity = false
  | _ => True

instance (capacity : Nat) (P : PoolPtr) (s : World) :
    ∀ a, Decidable (ReportsWithRoom capacity P s a)
  | .worker P' w => inferInstanceAs (Decidable (P' = P → ∀ pool ∈ s.pools P,
      ∀ wk ∈ pool.workers[w]?, wk.reports = true → pool.full capacity = false))
  | .create _ _ | .call _ _ _ | .caller _ _ => isTrue trivial

/-! ## As long as there is room -/

/-- A worker that is about to write finds room. -/
structure Roomy (capacity : Nat) (v : Scene) : Prop where
  guarded : Guarded v
  room : ∀ (w : Nat) id job, v.pool.workers[w]? = some (.writing id job) →
    v.pool.full capacity = false

theorem Roomy.not_stuck (h : Roomy capacity v) : ¬ v.pool.Stuck capacity := by
  rintro ⟨w, id, job, hwk, -, hfull⟩
  exact absurd ((h.room w id job hwk).symm.trans hfull) (by decide)

theorem written_of_set {workers : List Worker} {w i : Nat} {wk' : Worker} {id : JobId} {job : Job}
    (h : wk'.holds = true → wk' = .inner ∨ wk' = .sleeping)
    (hi : (workers.set w wk')[i]? = some (.writing id job)) :
    i ≠ w ∧ workers[i]? = some (.writing id job) := by
  rcases slot_of_set hi with ⟨-, rfl⟩ | ⟨hne, hold⟩
  · rcases h rfl with h | h <;> cases h
  · exact ⟨hne, hold⟩

theorem Roomy.move {a : Action} (hcap : 0 < capacity) (h : Roomy capacity v)
    (hmove : Move capacity P v a v')
    (ha : ∀ w, a = .worker P w → ∀ wk ∈ v.pool.workers[w]?, wk.reports = true →
      v.pool.full capacity = false) : Roomy capacity v' := by
  refine ⟨h.guarded.move hmove, fun i id job hi => ?_⟩
  cases hmove with
  | query | plain | beginBatch | endBatch | clear | destroy | link | test | wait | quit | join =>
    exact h.room i id job hi
  | pipe hpipe =>
    have hold := h.room i id job hi
    rcases hpipe with rfl | rfl
    · simpa [Pool.full] using Nat.pos_iff_ne_zero.1 hcap
    · exact hold
  | broadcast | quitBroadcast =>
    simp only [Pool.broadcast, List.getElem?_map, Option.map_eq_some_iff] at hi
    obtain ⟨wk, hwk, heq⟩ := hi
    cases wk <;> cases heq
    exact h.room i id job hwk
  | @outer w =>
    obtain ⟨mutex, wk', hwk', heq⟩ := outerTest_eq v.pool w
    rw [heq] at hi ⊢
    refine h.room i id job (written_of_set ?_ hi).2
    rcases hwk' with rfl | rfl | rfl <;> simp [Worker.holds]
  | @wake w =>
    obtain ⟨mutex, wk', hwk', heq⟩ := wakeTest_eq v.pool w
    rw [heq] at hi ⊢
    refine h.room i id job (written_of_set ?_ hi).2
    rcases hwk' with rfl | rfl <;> simp [Worker.holds]
  | sleep | take => exact h.room i id job (written_of_set (by simp [Worker.holds]) hi).2
  | run hwk hbusy hbusy' =>
    refine h.room i id job (written_of_set ?_ hi).2
    rw [Worker.holds_of_busy hbusy']
    simp
  | lock hwk => exact ha _ rfl _ hwk rfl
  | finish hwk =>
    -- there is one critical section at a time
    obtain ⟨hne, hi'⟩ := written_of_set (by simp) hi
    have heq := (h.guarded.mutex_eq hwk rfl).symm.trans (h.guarded.mutex_eq hi' rfl)
    exact absurd (Option.some.inj heq).symm hne

theorem Roomy.create {n : Nat} {callers' : CallerId → Option Position} :
    Roomy capacity ⟨.create n, callers'⟩ :=
  ⟨.create, fun _ _ _ _ => rfl⟩

theorem Roomy.step {a : Action} (hcap : 0 < capacity) (hI : Holds P (Roomy capacity) s)
    (ha : ReportsWithRoom capacity P s a) (h : step capacity s a = some s') :
    Holds P (Roomy capacity) s' := by
  refine hI.step (fun _ _ _ => .create) (fun v v' hv hroomy hmove => ?_) h
  refine hroomy.move hcap hmove ?_
  rintro w rfl wk hwk hreports
  exact ha rfl v.pool (scene_eq_some.1 hv).1 wk hwk hreports

theorem Roomy.deadlockFree (hcap : 0 < capacity) (hI : Holds P (Roomy capacity) s) :
    DeadlockFree capacity P main s := by
  intro bs s' hbs h
  have hcond : Along (TPool.step capacity) (ReportsWithRoom capacity P) s bs := by
    apply along_of_forall_mem
    intro b hb m
    rcases hbs b hb with ⟨o, rfl⟩ | rfl <;> exact trivial
  have hI' := exec_invariant (I := Holds P (Roomy capacity)) hI
    (fun _ _ _ hm ha hs => Roomy.step hcap hm ha hs) hcond h
  rintro ⟨pool, hP, hstuck, -⟩
  exact (hI' _ (scene_of hP rfl)).not_stuck hstuck

/-! ## A worker that finds no room -/

theorem DeadlockFree.step {b : Action} (h : DeadlockFree capacity P main s) (hb : b.ofMain P main)
    (hs : TPool.step capacity s b = some s') : DeadlockFree capacity P main s' := by
  intro bs m hbs hm
  refine h (b :: bs) m ?_ (exec_cons_eq_some.2 ⟨s', hs, hm⟩)
  rw [List.forall_mem_cons]
  exact ⟨hb, hbs⟩

theorem Pool.Stuck.broadcast (h : pool.Stuck capacity) : pool.broadcast.Stuck capacity := by
  obtain ⟨w, id, job, hwk, hm, hfull⟩ := h
  refine ⟨w, id, job, ?_, hm, hfull⟩
  simp [Pool.broadcast, hwk, Worker.signal]

/-- A main thread at the mutex is in the deadlock. -/
theorem not_deadlockFree_of_needsMutex {pos : Position} (hP : s.pools P = some pool)
    (hstuck : pool.Stuck capacity) (ht : s.callers main = some (P, pos))
    (hpos : pos.needsMutex = true) : ¬ DeadlockFree capacity P main s := fun hfree =>
  hfree [] s (fun b hb => by cases hb) rfl ⟨pool, hP, hstuck, pos, ht, hpos⟩

/-- A main thread outside of the pool calls `resman_wait_all`. -/
theorem not_deadlockFree_of_idle (hP : s.pools P = some pool) (hstuck : pool.Stuck capacity)
    (ht : s.callers main = none) : ¬ DeadlockFree capacity P main s := by
  intro hfree
  have hcall : step capacity s (.call main P (.wait .all)) =
      some (s.setCaller main (some (P, .waitTest .all))) := by
    simp [step, ht, callStep, hP]
  have hnext := hfree.step (.inr rfl) hcall
  exact not_deadlockFree_of_needsMutex (s := s.setCaller main _) hP hstuck
    (Function.update_self _ _ _) rfl hnext

/-- A main thread that is about to broadcast does so and leaves. -/
theorem not_deadlockFree_of_broadcast (hP : s.pools P = some pool) (hstuck : pool.Stuck capacity)
    (ht : s.callers main = some (P, .enqBroadcast) ∨ s.callers main = some (P, .endBroadcast)) :
    ¬ DeadlockFree capacity P main s := by
  intro hfree
  have hstep : step capacity s (.caller main {}) =
      some ((s.setPool P pool.broadcast).setCaller main none) := by
    rcases ht with ht | ht <;> simp [step, callerStep, ht, hP]
  have hnext := hfree.step (.inl ⟨_, rfl⟩) hstep
  exact not_deadlockFree_of_idle (s := (s.setPool P pool.broadcast).setCaller main none)
    (Function.update_self _ _ _) hstuck.broadcast (Function.update_self _ _ _) hnext

/-- A main thread that needs memory for its job gets none, and leaves. -/
theorem not_deadlockFree_of_malloc {job : Job} (hP : s.pools P = some pool)
    (hstuck : pool.Stuck capacity) (ht : s.callers main = some (P, .enqMalloc job)) :
    ¬ DeadlockFree capacity P main s := by
  intro hfree
  have hstep : step capacity s (.caller main {}) = some (s.setCaller main none) := by
    simp [step, callerStep, ht, hP]
  have hnext := hfree.step (.inl ⟨_, rfl⟩) hstep
  exact not_deadlockFree_of_idle (s := s.setCaller main none) hP hstuck
    (Function.update_self _ _ _) hnext

/-- The head of the free list can be taken. -/
theorem Owned.popWorkItem {own : ItemPtr → Option Owner} {w : ItemPtr} (h : Owned own s)
    (hw : s.items.wpool = some w) (job : Job) :
    ∃ items, TPool.popWorkItem s.items job w = some items := by
  obtain ⟨l, hchain, -⟩ := h.free
  obtain ⟨next, l', -, hnext, -⟩ := (hw ▸ hchain).pop
  obtain ⟨x, hx, -⟩ := Option.map_eq_some_iff.1 hnext
  simp [TPool.popWorkItem, hx]

/-- **Behind a worker that is stuck** the main thread runs into the deadlock, wherever it is. -/
theorem not_deadlockFree_of_stuck {own : ItemPtr → Option Owner} (howned : Owned own s)
    (huses : UsesOnly P main s) (hP : s.pools P = some pool) (hstuck : pool.Stuck capacity) :
    ¬ DeadlockFree capacity P main s := by
  cases ht : s.callers main with
  | none => exact not_deadlockFree_of_idle hP hstuck ht
  | some c =>
    obtain ⟨P', pos⟩ := c
    obtain ⟨hP', hpos⟩ := huses _ ht
    obtain rfl : P' = P := hP'
    cases pos with
    | enqLink | waitTest | waiting => exact not_deadlockFree_of_needsMutex hP hstuck ht rfl
    | enqBroadcast => exact not_deadlockFree_of_broadcast hP hstuck (.inl ht)
    | endBroadcast => exact not_deadlockFree_of_broadcast hP hstuck (.inr ht)
    | enqMalloc job => exact not_deadlockFree_of_malloc hP hstuck ht
    | enqAlloc job =>
      intro hfree
      cases hw : s.items.wpool with
      | none =>
        have hstep : step capacity s (.caller main {}) =
            some (s.setCaller main (some (P', .enqMalloc job))) := by
          simp [step, callerStep, ht, hP, hw]
        exact not_deadlockFree_of_malloc (s := s.setCaller main _) hP hstuck
          (Function.update_self _ _ _) (hfree.step (.inl ⟨_, rfl⟩) hstep)
      | some w =>
        obtain ⟨items, hpop⟩ := howned.popWorkItem hw job
        have hstep : step capacity s (.caller main {}) =
            some ((s.setItems items).setCaller main (some (P', .enqLink w))) := by
          simp [step, callerStep, ht, hP, hw, hpop]
        exact not_deadlockFree_of_needsMutex (s := (s.setItems items).setCaller main _) hP hstuck
          (Function.update_self _ _ _) rfl (hfree.step (.inl ⟨_, rfl⟩) hstep)
    | enqTest =>
      intro hfree
      have hstep : step capacity s (.caller main {}) = some (s.setCaller main
          (if pool.inBatch then none else some (P', .enqBroadcast))) := by
        simp [step, callerStep, ht, hP]
      have hnext := hfree.step (.inl ⟨_, rfl⟩) hstep
      cases hb : pool.inBatch with
      | true =>
        rw [hb] at hnext
        exact not_deadlockFree_of_idle (s := s.setCaller main none) hP hstuck
          (Function.update_self _ _ _) hnext
      | false =>
        rw [hb] at hnext
        exact not_deadlockFree_of_broadcast
          (s := s.setCaller main (some (P', .enqBroadcast))) hP hstuck
          (.inl (Function.update_self _ _ _)) hnext
    | destroyQuit | destroyBroadcast | destroyJoin | destroyEvent => cases hpos

/-- A worker that locks the mutex to report a completion, with no room in the pipe, is stuck, and
the main thread is where it was. -/
theorem stuck_of_report (main : CallerId) {a : Action} (ha : ¬ ReportsWithRoom capacity P s a)
    (h : step capacity s a = some s') : (∃ pool, s'.pools P = some pool ∧ pool.Stuck capacity) ∧
      (UsesOnly P main s → UsesOnly P main s') := by
  cases a with
  | worker P' w =>
    simp only [ReportsWithRoom, Classical.not_forall, Bool.not_eq_false] at ha
    obtain ⟨rfl, pool, hP, wk, hwk, hreports, hfull⟩ := ha
    have hP : s.pools P' = some pool := hP
    have hwk : pool.workers[w]? = some wk := hwk
    cases wk with
    | finishing id job =>
      simp only [step, workerStep, hP, hwk, Option.bind_eq_bind, Option.bind_some] at h
      obtain rfl := Option.some.inj (locked_eq_some h).2
      refine ⟨⟨_, Function.update_self _ _ _, w, id, job, ?_, rfl, hfull⟩, fun huses c' hc' => ?_⟩
      · exact List.getElem?_set_self (List.getElem?_eq_some_iff.1 hwk).1
      · obtain ⟨c, hc, rfl⟩ := Option.map_eq_some_iff.1 hc'
        obtain ⟨hP', hpos⟩ := huses c hc
        rw [if_pos hP']
        exact ⟨rfl, (Position.destroys_signal _).trans hpos⟩
    | _ => cases hreports
  | create | call | caller => exact absurd trivial ha

/-- **Completion events and the mutex**: a thread that uses one pool never runs into a deadlock by
going on and calling `resman_wait_all`, at any point of a run, if and only if every worker of the
run finds room in the pipe when it comes to report a completion. -/
theorem deadlockFree_iff (hcap : 0 < capacity)
    (huses : Along (step capacity) (fun s _ => UsesOnly P main s) .initial as)
    (h : exec (step capacity) .initial as = some s) :
    (∀ pre m, pre <+: as → exec (step capacity) .initial pre = some m →
      DeadlockFree capacity P main m) ↔
    Along (step capacity) (ReportsWithRoom capacity P) .initial as := by
  refine forall_prefix_iff_along (D := fun s _ => UsesOnly P main s)
    (I := fun s => Holds P (Roomy capacity) s ∧ ∃ own, Owned own s)
    (fun m hm => Roomy.deadlockFree hcap hm.1) (fun m a m' hm _ ha hs => ?_)
    (fun m a m' hm hm' ha hs => ?_) ?_ huses h
  · obtain ⟨own, howned⟩ := hm.2
    exact ⟨Roomy.step hcap hm.1 ha hs, howned.effect (step_cases hs)⟩
  · obtain ⟨own, howned⟩ := hm.2
    obtain ⟨own', howned'⟩ := howned.effect (step_cases hs)
    obtain ⟨⟨pool, hP, hstuck⟩, hkeep⟩ := stuck_of_report main ha hs
    exact not_deadlockFree_of_stuck howned' (hkeep hm') hP hstuck
  · have hrun : exec (step 0) .initial [] = some World.initial := rfl
    exact ⟨fun v hv => (by cases hv), owned_of_run hrun⟩

/-- The main thread enqueues `n` jobs and waits for all of them, and the worker executes all of them
but for its last `send_done_event`. -/
def enqueuedAndWaited (n : Nat) : List Action :=
  [.create 0 1, .call 0 0 (.getWaitFd true)] ++
  (List.range n).flatMap (fun i => [.call 0 0 (.enqueue ⟨i, 1, none⟩), .caller 0 {},
    .caller 0 { mem := some i }, .caller 0 {}, .caller 0 {}, .caller 0 {}]) ++
  [.call 0 0 (.wait .all), .caller 0 {}] ++ List.replicate (5 * n) (.worker 0 0)

theorem deadlockFree_iff_enqueuedAndWaited :
    Along (step 2) (ReportsWithRoom 2 0) .initial (enqueuedAndWaited 2) ∧
      ∀ pre m, pre <+: enqueuedAndWaited 2 → exec (step 2) .initial pre = some m →
        DeadlockFree 2 0 0 m := by
  have hC : Along (step 2) (ReportsWithRoom 2 0) .initial (enqueuedAndWaited 2) := by decide +kernel
  have h := (Option.some_get
    (by decide +kernel : (exec (step 2) .initial (enqueuedAndWaited 2)).isSome)).symm
  exact ⟨hC, (deadlockFree_iff (by decide) (by decide +kernel) h).2 hC⟩

/-- With one job more than the pipe has room for, both threads are blocked for good. -/
theorem not_deadlockFree_enqueuedAndWaited :
    ¬ ∀ capacity as s, 0 < capacity →
      Along (step capacity) (fun s _ => UsesOnly 0 0 s) .initial as →
      exec (step capacity) .initial as = some s → ¬ Deadlocked capacity 0 0 s := by
  intro hall
  have hrun : ((exec (step 2) .initial (enqueuedAndWaited 3)).any fun s =>
      (s.callers 0).any (fun c => c.1 = 0 ∧ c.2.needsMutex) ∧
        (s.pools 0).any fun pool => pool.workers[0]? = some (.writing 2 ⟨2, 1, none⟩) ∧
          pool.mutex = some 0 ∧ pool.full 2) = true := by
    decide +kernel
  obtain ⟨s, hs, hrun⟩ := (Option.any_eq_true _ _).1 hrun
  obtain ⟨hany, hany'⟩ := of_decide_eq_true hrun
  obtain ⟨⟨P, pos⟩, ht, hpos⟩ := (Option.any_eq_true _ _).1 hany
  obtain ⟨hP, hneeds⟩ := of_decide_eq_true hpos
  obtain rfl : P = 0 := hP
  obtain ⟨pool, hpool, hrun⟩ := (Option.any_eq_true _ _).1 hany'
  obtain ⟨hwk, hm, hfull⟩ := of_decide_eq_true hrun
  exact hall 2 _ s (by decide) (by decide +kernel) hs
    ⟨pool, hpool, ⟨0, 2, _, hwk, hm, hfull⟩, pos, ht, hneeds⟩

end Resman.TPool
