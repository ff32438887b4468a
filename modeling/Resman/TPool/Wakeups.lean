import Resman.TPool.Guard

/-!
# Waking the workers

The broadcasts on `workq_condvar` are made without the mutex, by `resman_tpool_enqueue`,
`resman_tpool_end_batch` and `resman_tpool_destroy`. `no_stranded_job`: as long as nobody destroys
the pool, none of them comes too early, since a worker keeps the mutex from its test of `workq` to
its wait, and a job is linked under the mutex (`Attended`). The flag `should_quit` is written
without the mutex, so the broadcast of `resman_tpool_destroy` can come too early: `shutdown_iff`
says exactly when.
-/

namespace Resman.TPool

open Lib

variable {capacity : Nat} {s s' : World} {P : PoolPtr} {v v' : Scene} {pool : Pool}
  {as : List Action}

/-! ## Jobs are not stranded -/

/-- The caller is going to broadcast, or finds out that it need not. -/
def Position.wakes : Position → Bool
  | enqTest | enqBroadcast | endBroadcast => true
  | _ => false

/-- A job in the queue that is not in a batch has a worker that is up, or a
caller that will wake one. -/
structure Attended (v : Scene) : Prop where
  guarded : Guarded v
  quit : v.pool.shouldQuit = false
  sleeping : ∀ w : Nat, v.pool.workers[w]? = some .sleeping → v.pool.workq = none
  awake : v.pool.workers ≠ [] → v.pool.workq ≠ none → v.pool.inBatch = false →
    (∃ t pos, v.callers t = some pos ∧ pos.wakes = true) ∨
    ∃ wk ∈ v.pool.workers, wk ≠ .waiting false

/-- The callers that wake somebody are still there when another one has moved. -/
theorem wakes_update {callers : CallerId → Option Position} {t : CallerId} {c : Option Position}
    (ht : ∀ pos ∈ callers t, pos.wakes = false)
    (h : ∃ t pos, callers t = some pos ∧ pos.wakes = true) :
    ∃ t' pos, Function.update callers t c t' = some pos ∧ pos.wakes = true := by
  obtain ⟨t', pos, hpos, hwakes⟩ := h
  refine ⟨t', pos, ?_, hwakes⟩
  rw [Function.update_of_ne, hpos]
  rintro rfl
  exact absurd hwakes (by simp [ht pos hpos])

theorem wakes_self {callers : CallerId → Option Position} {t : CallerId} {pos : Position}
    (h : pos.wakes = true) :
    ∃ t' pos', Function.update callers t (some pos) t' = some pos' ∧ pos'.wakes = true :=
  ⟨t, pos, Function.update_self _ _ _, h⟩

/-- Worker `w` is up after it has moved to another position than that of a blocked worker. -/
theorem up_of_set {workers : List Worker} {w : Nat} {wk wk' : Worker} (hwk : workers[w]? = some wk)
    (h : wk' ≠ .waiting false) : ∃ wk ∈ workers.set w wk', wk ≠ .waiting false :=
  ⟨wk', List.mem_set (List.getElem?_eq_some_iff.1 hwk).1 wk', h⟩

theorem sleeping_of_set {workers : List Worker} {w i : Nat} {wk' : Worker} (h : wk' ≠ .sleeping)
    (hi : (workers.set w wk')[i]? = some .sleeping) : workers[i]? = some .sleeping := by
  rcases slot_of_set hi with ⟨-, heq⟩ | ⟨-, hold⟩
  · exact absurd heq.symm h
  · exact hold

theorem Attended.move {a : Action} (h : Attended v) (hmove : Move capacity P v a v')
    (hcalm : ∀ t pos, v.callers t = some pos → pos.destroys = false)
    (ha : ∀ t, a ≠ .call t P .destroy) : Attended v' := by
  have hguarded := h.guarded.move hmove
  cases hmove with
  | query => exact h
  | @plain _ t c hold hnew =>
    refine ⟨hguarded, h.quit, h.sleeping,
      fun hn hq hb => (h.awake hn hq hb).imp_left (wakes_update ?_)⟩
    intro pos hpos
    have hplain := hold pos hpos
    cases pos <;> first | rfl | cases hplain
  | beginBatch => exact ⟨hguarded, h.quit, h.sleeping, fun _ _ hb => (by cases hb)⟩
  | endBatch => exact ⟨hguarded, h.quit, h.sleeping, fun _ _ _ => .inl (wakes_self rfl)⟩
  | clear => exact ⟨hguarded, h.quit, fun _ _ => rfl, fun _ hq => absurd rfl hq⟩
  | pipe => exact ⟨hguarded, h.quit, h.sleeping, h.awake⟩
  | destroy => exact absurd rfl (ha _)
  | link ht hm =>
    -- a worker before its wait would hold the mutex
    refine ⟨hguarded, h.quit, fun w hw => ?_, fun _ _ _ => .inl (wakes_self rfl)⟩
    have hheld := h.guarded.mutex_eq hw rfl
    rw [hm] at hheld
    cases hheld
  | test ht =>
    refine ⟨hguarded, h.quit, h.sleeping, fun hn hq hb => .inl ?_⟩
    have hb' : v.pool.inBatch = false := hb
    simp only [hb', Bool.false_eq_true, if_false]
    exact wakes_self rfl
  | broadcast ht =>
    refine ⟨hguarded, h.quit, fun w hw => h.sleeping w ?_, fun hn _ _ => .inr ?_⟩
    · simp only [Pool.broadcast, List.getElem?_map, Option.map_eq_some_iff] at hw
      obtain ⟨wk, hwk, heq⟩ := hw
      cases wk <;> cases heq
      exact hwk
    · have hne : v.pool.workers ≠ [] := by
        rintro heq
        exact hn (by simp [Pool.broadcast, heq])
      obtain ⟨wk, hwk⟩ := List.exists_mem_of_ne_nil _ hne
      refine ⟨wk.signal, List.mem_map_of_mem hwk, ?_⟩
      cases wk <;> simp [Worker.signal]
  | wait ht hm hc =>
    refine ⟨hguarded, h.quit, h.sleeping,
      fun hn hq hb => (h.awake hn hq hb).imp_left (wakes_update ?_)⟩
    intro pos hpos
    rcases ht with ht | ⟨b, ht⟩
    · obtain rfl := Option.some.inj (ht.symm.trans hpos)
      rfl
    · obtain rfl := Option.some.inj (ht.symm.trans hpos)
      rfl
  | quit ht | quitBroadcast ht | join ht => cases hcalm _ _ ht
  | outer hwk hidle =>
    revert hguarded
    unfold outerTest
    rw [if_neg (by simp [h.quit])]
    split
    · next hq =>
      rw [Option.isNone_iff_eq_none] at hq
      exact fun hguarded => ⟨hguarded, h.quit, fun _ _ => hq, fun _ hq' => absurd hq hq'⟩
    · exact fun hguarded => ⟨hguarded, h.quit,
        fun w hw => h.sleeping w (sleeping_of_set (by simp) hw),
        fun _ _ _ => .inr (up_of_set hwk (by simp))⟩
  | wake hwk hm =>
    revert hguarded
    unfold wakeTest
    rw [if_neg (by simp [h.quit])]
    exact fun hguarded => ⟨hguarded, h.quit,
      fun w hw => h.sleeping w (sleeping_of_set (by simp) hw),
      fun _ _ _ => .inr (up_of_set hwk (by simp))⟩
  | sleep hwk =>
    have hnone : v.pool.workq = none := h.sleeping _ hwk
    exact ⟨hguarded, h.quit, fun _ _ => hnone, fun _ hq => absurd hnone hq⟩
  | take hwk =>
    refine ⟨hguarded, h.quit, fun i hi => ?_, fun _ _ _ => .inr (up_of_set hwk (by simp))⟩
    -- only one worker holds the mutex
    have hi' := sleeping_of_set (by simp) hi
    have heq := (h.guarded.mutex_eq hwk rfl).symm.trans (h.guarded.mutex_eq hi' rfl)
    rw [Option.some.inj heq, hi'] at hwk
    cases hwk
  | @run w wk wk' log hwk hbusy hbusy' =>
    have hne : wk' ≠ .sleeping ∧ wk' ≠ .waiting false := by
      constructor <;> rintro rfl <;> cases hbusy'
    exact ⟨hguarded, h.quit, fun i hi => h.sleeping i (sleeping_of_set hne.1 hi),
      fun _ _ _ => .inr (up_of_set hwk hne.2)⟩
  | lock hwk hm =>
    exact ⟨hguarded, h.quit, fun i hi => h.sleeping i (sleeping_of_set (by simp) hi),
      fun _ _ _ => .inr (up_of_set hwk (by simp))⟩
  | finish hwk hroom =>
    exact ⟨hguarded, h.quit, fun i hi => h.sleeping i (sleeping_of_set (by simp) hi),
      fun _ _ _ => .inr (up_of_set hwk (by simp))⟩

theorem Attended.create {n : Nat} {callers' : CallerId → Option Position} :
    Attended ⟨.create n, callers'⟩ := by
  refine ⟨.create, rfl, fun _ _ => rfl, fun _ hq => absurd rfl hq⟩

theorem attended_of_run (hno : ∀ t, Action.call t P .destroy ∉ as)
    (h : exec (step capacity) .initial as = some s) : Holds P Attended s := by
  have hinv : Intact P s ∧ Holds P Attended s := by
    refine exec_invariant (I := fun s => Intact P s ∧ Holds P Attended s) ?_ ?_
      (along_undestroyed hno) h
    · exact ⟨.initial, fun v hv => (by cases hv)⟩
    · intro m a m' hm ha hstep
      refine ⟨hm.1.step ha hstep, hm.2.step (fun _ _ _ => .create) ?_ hstep⟩
      intro v v' hv hI hmove
      refine hI.move hmove ?_ ha
      rw [← (scene_eq_some.1 hv).2]
      exact hm.1.calm
  exact hinv.2

/-- Jobs that nobody executes have a batch that is open, or a caller on its way to a broadcast. -/
theorem Attended.stranded (h : Attended v) (hworkers : 1 ≤ v.pool.workers.length)
    (hq : v.pool.workq ≠ none) (hall : ∀ wk ∈ v.pool.workers, wk = .waiting false) :
    v.pool.inBatch = true ∨ ∃ t, v.callers t = some .enqTest ∨ v.callers t = some .enqBroadcast ∨
      v.callers t = some .endBroadcast := by
  cases hb : v.pool.inBatch with
  | true => exact .inl rfl
  | false =>
    have hne : v.pool.workers ≠ [] := List.length_pos_iff.1 hworkers
    rcases h.awake hne hq hb with ⟨t, pos, ht, hwakes⟩ | ⟨wk, hwk, hup⟩
    · refine .inr ⟨t, ?_⟩
      cases pos with
      | enqTest => exact .inl ht
      | enqBroadcast => exact .inr (.inl ht)
      | endBroadcast => exact .inr (.inr ht)
      | _ => cases hwakes
    · exact absurd (hall wk hwk) hup

/-- **No stranded job**: in a pool that nobody destroys, when jobs are queued and every worker is
blocked unsignalled, a batch is open, or a caller is on its way to a broadcast. -/
theorem no_stranded_job (hno : ∀ t, Action.call t P .destroy ∉ as)
    (h : exec (step capacity) .initial as = some s) (hP : s.pools P = some pool)
    (hworkers : 1 ≤ pool.workers.length) (hq : pool.workq ≠ none)
    (hall : ∀ wk ∈ pool.workers, wk = .waiting false) :
    pool.inBatch = true ∨ ∃ t, s.callers t = some (P, .enqTest) ∨
      s.callers t = some (P, .enqBroadcast) ∨ s.callers t = some (P, .endBroadcast) := by
  have hstranded := (attended_of_run hno h _ (scene_of hP rfl)).stranded hworkers hq hall
  simpa only [inside_eq_some] using hstranded

/-- Both workers go to sleep, and a job is enqueued in a batch. -/
def enqueuedInBatch : List Action :=
  [.create 0 2, .worker 0 0, .worker 0 0, .worker 0 1, .worker 0 1, .call 1 0 .beginBatch,
    .call 0 0 (.enqueue ⟨7, 1, some 2⟩), .caller 0 {}, .caller 0 { mem := some 100 }, .caller 0 {},
    .caller 0 {}]

theorem no_stranded_job_enqueuedInBatch :
    let s := (exec (step 65536) .initial enqueuedInBatch).get (by decide +kernel)
    let pool := (s.pools 0).get (by decide +kernel)
    pool.inBatch = true ∨ ∃ t, s.callers t = some (0, .enqTest) ∨
      s.callers t = some (0, .enqBroadcast) ∨ s.callers t = some (0, .endBroadcast) :=
  no_stranded_job (by simp [enqueuedInBatch]) (Option.some_get _).symm (Option.some_get _).symm
    (by decide +kernel) (by decide +kernel) (by decide +kernel)

/-! ## Shutting down -/

/-- `resman_tpool_destroy` is past its broadcast. -/
def Position.past : Position → Bool
  | destroyJoin | destroyEvent => true
  | _ => false

/-- `resman_tpool_destroy` has written `should_quit`. -/
def Position.announced : Position → Bool
  | destroyBroadcast | destroyJoin | destroyEvent => true
  | _ => false

/-- No worker sleeps on when `resman_tpool_destroy` is past its broadcast. -/
def Roused (P : PoolPtr) (s : World) : Prop :=
  ∀ pool, s.pools P = some pool → (∃ t pos, s.callers t = some (P, pos) ∧ pos.past = true) →
    ∀ wk ∈ pool.workers, wk ≠ .waiting false

/-- When `resman_tpool_destroy` broadcasts, no worker is between its test of `should_quit` and
`workq` and its wait. -/
def FindsNoneAsleep (P : PoolPtr) (s : World) : Action → Prop
  | .caller t _ => s.callers t = some (P, .destroyBroadcast) →
      ∀ pool ∈ s.pools P, .sleeping ∉ pool.workers
  | _ => True

instance (P : PoolPtr) (s : World) : ∀ a, Decidable (FindsNoneAsleep P s a)
  | .caller t _ => inferInstanceAs (Decidable (s.callers t = some (P, .destroyBroadcast) →
      ∀ pool ∈ s.pools P, .sleeping ∉ pool.workers))
  | .create _ _ | .call _ _ _ | .worker _ _ => isTrue trivial

/-- The structure of a pool is never freed, so its address is not used for a second one. -/
def Action.creates (P : PoolPtr) : Action → Bool
  | create P' _ => P' = P
  | _ => false

/-- The flag is set on the way through `resman_tpool_destroy`, and behind the broadcast no worker is
blocked unsignalled or about to block. -/
structure Quitting (v : Scene) : Prop where
  announced : ∀ t pos, v.callers t = some pos → pos.announced = true → v.pool.shouldQuit = true
  awake : ∀ t pos, v.callers t = some pos → pos.past = true →
    ∀ wk ∈ v.pool.workers, wk ≠ .waiting false ∧ wk ≠ .sleeping

theorem Position.announced_of_past {pos : Position} (h : pos.past = true) :
    pos.announced = true := by
  cases pos <;> first | rfl | cases h

theorem Position.past_signal (pos : Position) : pos.signal.past = pos.past := by cases pos <;> rfl

theorem Position.announced_signal (pos : Position) : pos.signal.announced = pos.announced := by
  cases pos <;> rfl

/-- A caller with a property that the moved one does not have was there before. -/
theorem held_of_update {f : Position → Bool} {callers : CallerId → Option Position}
    {t t' : CallerId} {c : Option Position} {pos : Position} (hc : ∀ pos ∈ c, f pos = false)
    (h : Function.update callers t c t' = some pos) (hf : f pos = true) :
    callers t' = some pos := by
  rcases update_eq_some.1 h with ⟨-, heq⟩ | ⟨-, hold⟩
  · rw [hc pos heq] at hf
    cases hf
  · exact hold

theorem Position.announced_of_plain {pos : Position} (h : pos.plain) : pos.announced = false := by
  cases pos <;> first | rfl | cases h

theorem Quitting.announced_move {a : Action} (h : Quitting v) (hmove : Move capacity P v a v') :
    ∀ t pos, v'.callers t = some pos → pos.announced = true → v'.pool.shouldQuit = true := by
  intro t' pos hpos ha
  cases hmove with
  | query | beginBatch | clear | pipe | sleep | take | run | finish =>
    exact h.announced t' pos hpos ha
  | outer | wake =>
    have hquit := h.announced t' pos hpos ha
    simp [outerTest, wakeTest, hquit, Pool.setWorker]
  | plain hold hnew =>
    exact h.announced t' pos (held_of_update
      (fun pos hp => Position.announced_of_plain (hnew pos hp)) hpos ha) ha
  | endBatch | destroy | link | broadcast =>
    exact h.announced t' pos (held_of_update (by simp [Position.announced]) hpos ha) ha
  | test =>
    refine h.announced t' pos (held_of_update (fun pos hp => ?_) hpos ha) ha
    split at hp
    · cases hp
    · obtain rfl := Option.some.inj hp
      rfl
  | wait _ _ hc =>
    refine h.announced t' pos (held_of_update (fun pos hp => ?_) hpos ha) ha
    rcases hc with rfl | ⟨-, rfl⟩
    · cases hp
    · obtain rfl := Option.some.inj hp
      rfl
  | quit => rfl
  | quitBroadcast ht | join ht => exact h.announced _ _ ht rfl
  | lock =>
    obtain ⟨pos₁, ht, rfl⟩ := Option.map_eq_some_iff.1 hpos
    rw [Position.announced_signal] at ha
    exact h.announced t' pos₁ ht ha

/-- A worker that stays up when another one moves to a position where it is not blocked. -/
theorem up_set {workers : List Worker} {w : Nat} {wk wk' : Worker}
    (h : ∀ wk ∈ workers, wk ≠ .waiting false ∧ wk ≠ .sleeping)
    (hwk' : wk' ≠ .waiting false ∧ wk' ≠ .sleeping) (hmem : wk ∈ workers.set w wk') :
    wk ≠ .waiting false ∧ wk ≠ .sleeping := by
  rcases List.mem_or_eq_of_mem_set hmem with hold | rfl
  · exact h wk hold
  · exact hwk'

/-- What the workers are after a move, when a caller is past the broadcast: none of them is blocked
unsignalled, and one that is about to block was so at the broadcast. -/
theorem Quitting.awake_move {a : Action} {t : CallerId} {pos : Position}
    {wk : Worker} (h : Quitting v) (hmove : Move capacity P v a v') (hpos : v'.callers t = some pos)
    (hpast : pos.past = true) (hwk : wk ∈ v'.pool.workers) :
    (wk ≠ .waiting false ∧ wk ≠ .sleeping) ∨
      wk = .sleeping ∧ ∃ t o, a = .caller t o ∧ v.callers t = some .destroyBroadcast ∧
        .sleeping ∈ v.pool.workers := by
  -- the caller that is past the broadcast was there before
  have hkept : ∀ {c : Option Position} {t' : CallerId},
      (∀ pos ∈ c, pos.past = false) → Function.update v.callers t' c t = some pos →
      ∀ wk ∈ v.pool.workers, wk ≠ .waiting false ∧ wk ≠ .sleeping := fun hc hu =>
    h.awake t pos (held_of_update hc hu hpast) hpast
  cases hmove with
  | query | beginBatch | clear | pipe => exact .inl (h.awake t pos hpos hpast wk hwk)
  | plain hold hnew =>
    refine .inl (hkept (fun pos hp => ?_) hpos wk hwk)
    have hplain := hnew pos hp
    cases pos <;> first | rfl | cases hplain
  | endBatch | destroy | link => exact .inl (hkept (by simp [Position.past]) hpos wk hwk)
  | test =>
    refine .inl (hkept (fun pos hp => ?_) hpos wk hwk)
    split at hp
    · cases hp
    · obtain rfl := Option.some.inj hp
      rfl
  | wait _ _ hc =>
    refine .inl (hkept (fun pos hp => ?_) hpos wk hwk)
    rcases hc with rfl | ⟨-, rfl⟩
    · cases hp
    · obtain rfl := Option.some.inj hp
      rfl
  | broadcast =>
    obtain ⟨wk₁, hwk₁, rfl⟩ := List.mem_map.1 hwk
    have hup := hkept (by simp) hpos wk₁ hwk₁
    refine .inl ?_
    cases wk₁ <;> simp_all [Worker.signal]
  | quit => exact .inl (hkept (by simp [Position.past]) hpos wk hwk)
  | @quitBroadcast t' o ht =>
    obtain ⟨wk₁, hwk₁, rfl⟩ := List.mem_map.1 hwk
    by_cases hs : wk₁ = .sleeping
    · subst hs
      exact .inr ⟨rfl, t', o, rfl, ht, hwk₁⟩
    · refine .inl ?_
      cases wk₁ <;> simp_all [Worker.signal]
  | join ht hall =>
    refine .inl ?_
    rw [hall wk hwk]
    simp
  | @outer w wk₁ hwk₁ hidle =>
    have hup := h.awake t pos hpos hpast
    have hquit := h.announced t pos hpos (Position.announced_of_past hpast)
    have hexited : wk ∈ v.pool.workers.set w .exited := by
      simpa [outerTest, hquit, Pool.setWorker] using hwk
    exact .inl (up_set hup (by simp) hexited)
  | @wake w b hwk₁ hm =>
    have hup := h.awake t pos hpos hpast
    have hquit := h.announced t pos hpos (Position.announced_of_past hpast)
    have hexited : wk ∈ v.pool.workers.set w .exited := by
      simpa [wakeTest, hquit, Pool.setWorker] using hwk
    exact .inl (up_set hup (by simp) hexited)
  | sleep hwk₁ =>
    have hup := h.awake t pos hpos hpast _ (List.mem_of_getElem? hwk₁)
    exact absurd rfl hup.2
  | take => exact .inl (up_set (h.awake t pos hpos hpast) (by simp) hwk)
  | @run w wk₁ wk' log hwk₁ hbusy hbusy' =>
    refine .inl (up_set (h.awake t pos hpos hpast) ?_ hwk)
    constructor <;> rintro rfl <;> cases hbusy'
  | lock hwk₁ hm =>
    obtain ⟨pos₁, ht, rfl⟩ := Option.map_eq_some_iff.1 hpos
    rw [Position.past_signal] at hpast
    exact .inl (up_set (h.awake t pos₁ ht hpast) (by simp) hwk)
  | finish => exact .inl (up_set (h.awake t pos hpos hpast) (by simp) hwk)

/-- The pool is created while no caller is inside it. -/
def CreatedFresh (P : PoolPtr) (s : World) (a : Action) : Prop :=
  ∀ n, a = .create P n → ∀ t, inside s.callers P t = none

/-- Before the pool is created there is nothing to be inside of. -/
theorem untouched_of_run (h : exec (step capacity) .initial as = some s)
    (hnone : as.countP (Action.creates P) = 0) :
    s.scene P = none ∧ ∀ t, inside s.callers P t = none := by
  have hcond : Along (step capacity) (fun _ a => a.creates P = false) .initial as := by
    apply along_of_forall_mem
    intro a ha _
    simpa using List.countP_eq_zero.1 hnone a ha
  refine exec_invariant (I := fun s => s.scene P = none ∧ ∀ t, inside s.callers P t = none)
    ⟨rfl, fun _ => rfl⟩ (fun m a m' hm ha hstep => ?_) hcond h
  cases seen_of_step (P := P) hstep with
  | apart hapart =>
    rw [hapart.scene, hapart.inside]
    exact hm
  | created heq =>
    rw [heq] at ha
    simp [Action.creates] at ha
  | moved hv | gone hv =>
    rw [hm.1] at hv
    cases hv

theorem createdFresh_of_run (h : exec (step capacity) .initial as = some s)
    (hone : as.countP (Action.creates P) ≤ 1) :
    Along (step capacity) (CreatedFresh P) .initial as := by
  rw [along_iff_forall]
  rintro pre a m ⟨post, rfl⟩ hm n rfl
  refine (untouched_of_run hm ?_).2
  have hself : Action.creates P (.create P n) = true := by simp [Action.creates]
  rw [List.countP_append, List.countP_append, List.countP_singleton, hself] at hone
  simp only [if_true] at hone
  omega

theorem Quitting.create {n : Nat} {callers' : CallerId → Option Position}
    (h : ∀ t, callers' t = none) : Quitting ⟨.create n, callers'⟩ := by
  constructor <;> intro t pos hpos <;> exact absurd (hpos.symm.trans (h t)) (by simp)

/-- An action that finds no worker asleep keeps the invariant. -/
theorem Quitting.step {a : Action} (hI : Holds P Quitting s) (hnew : CreatedFresh P s a)
    (ha : FindsNoneAsleep P s a) (h : step capacity s a = some s') : Holds P Quitting s' := by
  refine hI.step (fun n hn _ => .create (hnew n hn)) (fun v v' hv hq hmove => ?_) h
  refine ⟨hq.announced_move hmove, fun t pos hpos hpast wk hwk => ?_⟩
  rcases hq.awake_move hmove hpos hpast hwk with hup | ⟨-, t', o, rfl, ht', hsleeping⟩
  · exact hup
  · obtain ⟨hP, hc⟩ := scene_eq_some.1 hv
    exact absurd hsleeping (ha (inside_eq_some.1 ((congrFun hc t').trans ht')) v.pool hP)

theorem roused_of_scene (h : ∀ v, s.scene P = some v → (∃ t pos, v.callers t = some pos ∧
    pos.past = true) → ∀ wk ∈ v.pool.workers, wk ≠ .waiting false) : Roused P s := by
  rintro pool hP ⟨t, pos, ht, hpast⟩
  exact h _ (scene_of hP rfl) ⟨t, pos, inside_eq_some.2 ht, hpast⟩

theorem Quitting.roused (hI : Holds P Quitting s) : Roused P s := by
  apply roused_of_scene
  rintro v hv ⟨t, pos, hpos, hpast⟩ wk hwk
  exact ((hI v hv).awake t pos hpos hpast wk hwk).1

/-- After the next step, too, no worker is blocked, whatever that step is. -/
theorem Quitting.roused_step {a : Action} (hI : Holds P Quitting s)
    (h : TPool.step capacity s a = some s') : Roused P s' := by
  apply roused_of_scene
  rintro v' hv' ⟨t, pos, hpos, hpast⟩ wk hwk
  cases seen_of_step (P := P) h with
  | apart hapart => exact ((hI v' (hapart.scene ▸ hv')).awake t pos hpos hpast wk hwk).1
  | created ha hnone hnew =>
    obtain rfl := Option.some.inj (hnew.symm.trans hv')
    obtain rfl : wk = .start := List.eq_of_mem_replicate hwk
    simp
  | moved hv hv'' hm =>
    obtain rfl := Option.some.inj (hv''.symm.trans hv')
    rcases (hI _ hv).awake_move hm hpos hpast hwk with hup | ⟨rfl, -⟩
    · exact hup.1
    · simp
  | gone hv ht hnone =>
    rw [hnone] at hv'
    cases hv'

theorem sleep_step {w : Nat} (hP : s.pools P = some pool)
    (hwk : pool.workers[w]? = some .sleeping) :
    step capacity s (.worker P w) =
      some (s.setPool P ({ pool with mutex := none }.setWorker w (.waiting false))) := by
  simp [step, workerStep, hP, hwk]

/-- A worker that is asleep at the broadcast blocks in its next step. -/
theorem not_roused_of_asleep {a : Action} (ha : ¬ FindsNoneAsleep P s a)
    (h : step capacity s a = some s') :
    ∃ w m, step capacity s' (.worker P w) = some m ∧ ¬ Roused P m := by
  cases a with
  | caller t o =>
    simp only [FindsNoneAsleep, Classical.not_forall, not_not] at ha
    obtain ⟨ht, pool, hP, hsleeping⟩ := ha
    have hP : s.pools P = some pool := hP
    obtain ⟨w, hw, hwk⟩ := List.getElem_of_mem hsleeping
    have hw' : pool.workers[w]? = some .sleeping := List.getElem?_eq_some_iff.2 ⟨hw, hwk⟩
    simp only [step, callerStep, ht, hP, Option.bind_eq_bind, Option.bind_some] at h
    obtain rfl := Option.some.inj h
    have hw₁ : pool.broadcast.workers[w]? = some .sleeping := by
      simp [Pool.broadcast, hw', Worker.signal]
    have hP₁ : ((s.setPool P pool.broadcast).setCaller t (some (P, .destroyJoin))).pools P =
        some pool.broadcast := Function.update_self _ _ _
    refine ⟨w, _, sleep_step hP₁ hw₁, fun hroused => ?_⟩
    refine hroused _ (Function.update_self _ _ _) ⟨t, .destroyJoin, ?_, rfl⟩ (.waiting false) ?_ rfl
    · simp [World.setPool, World.setCaller]
    · apply List.mem_set
      simpa [Pool.broadcast] using hw
  | create | call | worker => exact absurd trivial ha

/-- **Shutting down**: at no point of a run, nor after any next step, is a worker blocked
unsignalled when `resman_tpool_destroy` is past its broadcast, if and only if every such broadcast
of the run finds no worker between its test and its wait. -/
theorem shutdown_iff (hone : as.countP (Action.creates P) ≤ 1)
    (h : exec (step capacity) .initial as = some s) :
    (∀ pre m, pre <+: as → exec (step capacity) .initial pre = some m →
      Roused P m ∧ ∀ a m', step capacity m a = some m' → Roused P m') ↔
    Along (step capacity) (FindsNoneAsleep P) .initial as := by
  refine forall_prefix_iff_along (D := CreatedFresh P) (I := Holds P Quitting)
    (fun m hm => ⟨Quitting.roused hm, fun a m' hstep => Quitting.roused_step hm hstep⟩)
    (fun m a m' hm hnew ha hstep => Quitting.step hm hnew ha hstep)
    (fun m a m' _ _ ha hstep hgood => ?_) (fun v hv => by cases hv) (createdFresh_of_run h hone) h
  obtain ⟨w, m'', hstep', hnot⟩ := not_roused_of_asleep ha hstep
  exact hnot (hgood.2 _ _ hstep')

/-- The pool is destroyed while its worker waits for a job, or, with `late`,
between its test and its wait. -/
def destroyed (late : Bool) : List Action :=
  [.create 0 1, .call 0 0 .destroy, .worker 0 0] ++
  (if late then [.caller 0 {}, .caller 0 {}, .worker 0 0]
    else [.worker 0 0, .caller 0 {}, .caller 0 {}])

theorem shutdown_iff_destroyed :
    Along (step 65536) (FindsNoneAsleep 0) .initial (destroyed false) ∧
      ∀ pre m, pre <+: destroyed false → exec (step 65536) .initial pre = some m →
        Roused 0 m ∧ ∀ a m', step 65536 m a = some m' → Roused 0 m' := by
  have hC : Along (step 65536) (FindsNoneAsleep 0) .initial (destroyed false) := by decide +kernel
  have h := (Option.some_get
    (by decide +kernel : (exec (step 65536) .initial (destroyed false)).isSome)).symm
  exact ⟨hC, (shutdown_iff (by decide +kernel) h).2 hC⟩

/-- The worker tests the flag, the flag is written and broadcast, and the worker goes to sleep. -/
theorem not_roused_destroyed :
    ¬ ∀ as s, as.countP (Action.creates 0) ≤ 1 → exec (step 65536) .initial as = some s →
      Roused 0 s := by
  intro hall
  have hrun : ((exec (step 65536) .initial (destroyed true)).any fun s =>
      s.callers 0 = some (0, .destroyJoin) ∧
        (s.pools 0).any fun pool => .waiting false ∈ pool.workers) = true := by
    decide +kernel
  obtain ⟨s, hs, hrun⟩ := (Option.any_eq_true _ _).1 hrun
  obtain ⟨ht, hany⟩ := of_decide_eq_true hrun
  obtain ⟨pool, hP, hmem⟩ := (Option.any_eq_true _ _).1 hany
  exact hall _ s (by decide +kernel) hs pool hP ⟨0, .destroyJoin, ht, rfl⟩ _
    (of_decide_eq_true hmem) rfl

end Resman.TPool
