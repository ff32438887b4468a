import Resman.TPool.Progress
import Resman.TPool.Wakeups

/-!
# Pools run dry

A worker can always go on unless it sleeps, waits for the mutex, or waits for room in the event pipe
(`rests`), so workers come to rest only when there is nothing left to do. `drains`: when nobody
destroys the pool, has a batch open or is on the way to a broadcast, its workers finish every job
that has been linked, in a bounded number of steps and in any order, if the event pipe does not fill
up. `waits_end`: then everybody who waits for them goes on.
-/

namespace Resman.TPool

open Lib

variable {capacity : Nat} {s s' : World} {P : PoolPtr} {v v' : Scene} {pool pool' : Pool}
  {w : Nat} {a : ItemPtr} {own : ItemPtr → Option Owner}

/-! ## The second callback -/

/-- A worker that is about to call `done` has a job in which it is set. -/
def DoneSet (s : World) : Prop :=
  ∀ P pool (w : Nat) a x, s.pools P = some pool → pool.workers[w]? = some (.doing a) →
    s.items.heap a = some x →
    x.done.isSome = true

/-- The item of a worker. -/
theorem Owned.held (h : Owned own s) (hP : s.pools P = some pool) {wk : Worker}
    (hwk : pool.workers[w]? = some wk) (ha : wk.item = some a) : own a = some (.worker P w) := by
  obtain ⟨q, hl, -⟩ := h.pools P pool hP
  exact hl.worker w wk hwk a ha

/-- An item with an owner is in memory. -/
theorem Owned.allocated {o : Owner} (h : Owned own s) (ha : own a = some o) :
    ∃ x, s.items.heap a = some x := by
  rw [← Option.ne_none_iff_exists']
  intro hnone
  rw [h.fresh a hnone] at ha
  cases ha

/-- Pool `P` is replaced, and an item of a worker that stays before its second
callback is left as it is. -/
theorem DoneSet.update {callers' : CallerId → Option (PoolPtr × Position)}
    {items' : Items} (h : DoneSet s) (hP : s.pools P = some pool)
    (hheap : ∀ P pool (w : Nat) a, s.pools P = some pool → pool.workers[w]? = some (.doing a) →
      items'.heap a = s.items.heap a)
    (hself : ∀ (w : Nat) a x, pool'.workers[w]? = some (.doing a) → items'.heap a = some x →
      x.done.isSome = true ∨ pool.workers[w]? = some (.doing a)) :
    DoneSet ⟨items', Function.update s.pools P (some pool'), callers'⟩ := by
  have hold : ∀ P pool (w : Nat) a x, s.pools P = some pool → pool.workers[w]? = some (.doing a) →
      items'.heap a = some x → x.done.isSome = true := by
    intro P pool w a x hP hwk hx
    exact h P pool w a x hP hwk (hheap P pool w a hP hwk ▸ hx)
  intro P₁ pool₁ w a x h₁ hwk hx
  rcases update_eq_some.1 h₁ with ⟨rfl, heq⟩ | ⟨-, hP₁⟩
  · obtain rfl := Option.some.inj heq
    rcases hself w a x hwk hx with hdone | hwk'
    · exact hdone
    · exact hold P₁ pool w a x hP hwk' hx
  · exact hold P₁ pool₁ w a x hP₁ hwk hx

/-- The pools stay, and so do the items of workers. -/
theorem DoneSet.congr {callers' : CallerId → Option (PoolPtr × Position)}
    {items' : Items} (h : DoneSet s)
    (hheap : ∀ P pool (w : Nat) a, s.pools P = some pool → pool.workers[w]? = some (.doing a) →
      items'.heap a = s.items.heap a) : DoneSet ⟨items', s.pools, callers'⟩ := by
  intro P pool w a x hP hwk hx
  exact h P pool w a x hP hwk (hheap P pool w a hP hwk ▸ hx)

/-- A worker moves to a position that is not before its second callback. -/
theorem doing_of_set {workers : List Worker} {w i : Nat} {wk : Worker} (hwk : ∀ a, wk ≠ .doing a)
    (h : (workers.set w wk)[i]? = some (.doing a)) : i ≠ w ∧ workers[i]? = some (.doing a) := by
  rcases slot_of_set h with ⟨-, heq⟩ | hold
  · exact absurd heq.symm (hwk a)
  · exact hold

theorem DoneSet.effect (h : DoneSet s) (howned : Owned own s) (he : Effect capacity s s') :
    DoneSet s' := by
  have hheld : ∀ P pool (w : Nat) a, s.pools P = some pool → pool.workers[w]? = some (.doing a) →
      own a = some (.worker P w) := fun P pool w a hP hwk => howned.held hP hwk rfl
  cases he with
  | @create P numThreads hP =>
    intro P₁ pool₁ w a x h₁ hwk hx
    rcases update_eq_some.1 h₁ with ⟨rfl, heq⟩ | ⟨-, hP₁⟩
    · obtain rfl := Option.some.inj heq
      have hstart : Worker.doing a = .start := List.eq_of_mem_replicate (List.mem_of_getElem? hwk)
      cases hstart
    · exact h P₁ pool₁ w a x hP₁ hwk hx
  | gone hc =>
    intro P₁ pool₁ w a x h₁ hwk hx
    exact h P₁ pool₁ w a x (update_none_eq_some.1 h₁).2 hwk hx
  | moved hc => exact h
  | quiet hP hs hc =>
    refine h.update hP (fun _ _ _ _ _ _ => rfl) fun w a x hwk hx => .inr ?_
    have hcore := congrArg (·[w]?) hs.workers
    simp only [List.getElem?_map, hwk, Option.map_some, Worker.core] at hcore
    obtain ⟨wk, hwk', heq⟩ := Option.map_eq_some_iff.1 hcore.symm
    cases wk <;> cases heq
    exact hwk'
  | joined hP hall hc => exact h.update hP (fun _ _ _ _ _ _ => rfl) fun w a x hwk hx => .inr hwk
  | @pop t P job b items' hb hpop =>
    obtain ⟨l, hchain, -, -, hfree⟩ := howned.free
    obtain ⟨next, rest, rfl, -, -⟩ := (hb ▸ hchain).pop
    obtain ⟨y, -, hpop⟩ := Option.bind_eq_some_iff.1 hpop
    obtain rfl := Option.some.inj hpop
    refine h.congr fun P₁ pool₁ w a hP₁ hwk => Function.update_of_ne ?_ _ _
    exact ne_of_own (hheld P₁ pool₁ w a hP₁ hwk) (hfree b List.mem_cons_self) (by simp)
  | @malloc t P job b items' hmalloc =>
    rw [mallocWorkItem] at hmalloc
    split at hmalloc
    · cases hmalloc
    · next hnone =>
      obtain rfl := Option.some.inj hmalloc
      refine h.congr fun P₁ pool₁ w a hP₁ hwk => Function.update_of_ne ?_ _ _
      rintro rfl
      have hown := hheld P₁ pool₁ w a hP₁ hwk
      rw [howned.fresh a hnone] at hown
      cases hown
  | @link t P pool pool' b items' ht hP hlink =>
    obtain ⟨hown, hnext⟩ := howned.caller t P b ht
    obtain ⟨q, hl, -⟩ := howned.pools P pool hP
    obtain ⟨x, -, -, hother, -, -, -, -, hpool⟩ := linkItem_spec hl hown hnext hlink
    refine h.update hP (fun P₁ pool₁ w a hP₁ hwk => ?_) fun w a x hwk hx => .inr ?_
    · have hown' := hheld P₁ pool₁ w a hP₁ hwk
      apply hother a (ne_of_own hown' hown (by simp))
      rw [hown']
      simp
    · rw [hpool] at hwk
      exact hwk
  | @clear P pool pool' items' _ hP hclear hc =>
    obtain ⟨q, hl, -⟩ := howned.pools P pool hP
    obtain ⟨rfl, rfl⟩ := Prod.mk.inj (Option.some.inj ((clearQueue_eq hl).symm.trans hclear))
    refine h.update hP (fun P₁ pool₁ w a hP₁ hwk => if_neg fun hq => ?_)
      fun w a x hwk hx => .inr hwk
    have hown := hheld P₁ pool₁ w a hP₁ hwk
    rw [hl.queue a hq] at hown
    cases hown
  | @take P pool pool' w₀ wk hP hwk₀ hidle htake =>
    simp only [takeItem, Option.bind_eq_bind, Option.bind_eq_some_iff] at htake
    obtain ⟨b, -, y, -, htake⟩ := htake
    obtain rfl := Option.some.inj htake
    refine h.update hP (fun _ _ _ _ _ _ => rfl) fun w a x hwk hx => .inr ?_
    exact (doing_of_set (by simp) hwk).2
  | @worked P pool w₀ b y hP hwk₀ hy =>
    refine h.update hP (fun _ _ _ _ _ _ => rfl) fun w a x hwk hx => ?_
    rcases slot_of_set hwk with ⟨-, heq⟩ | ⟨-, hold⟩
    · split at heq
      · next hdone =>
        obtain rfl : a = b := by simpa using heq
        obtain rfl := Option.some.inj (hy.symm.trans hx)
        exact .inl hdone
      · cases heq
    · exact .inr hold
  | done hP hwk₀ hx₀ hdone =>
    refine h.update hP (fun _ _ _ _ _ _ => rfl) fun w a x hwk hx => .inr ?_
    exact (doing_of_set (by simp) hwk).2
  | @free P pool w₀ b y items' hP hwk₀ hy hfree =>
    have hb := howned.held hP hwk₀ rfl
    have hother : ∀ a, a ≠ b → items'.heap a = s.items.heap a := by
      intro a ha
      simp only [freeWorkItem, hy, Option.bind_eq_bind, Option.bind_some] at hfree
      split at hfree
      · obtain rfl := Option.some.inj hfree
        exact Function.update_of_ne ha _ _
      · obtain rfl := Option.some.inj hfree
        exact Function.update_of_ne ha _ _
    -- the worker that frees its item is past its callbacks
    have hne : ∀ P₁ pool₁ (w : Nat) a, s.pools P₁ = some pool₁ →
        pool₁.workers[w]? = some (.doing a) → a ≠ b := by
      rintro P₁ pool₁ w a hP₁ hwk rfl
      have hown := hheld P₁ pool₁ w a hP₁ hwk
      rw [hb] at hown
      cases hown
      obtain rfl := Option.some.inj (hP.symm.trans hP₁)
      rw [hwk₀] at hwk
      cases hwk
    refine h.update hP (fun P₁ pool₁ w a hP₁ hwk => hother a (hne P₁ pool₁ w a hP₁ hwk))
      fun w a x hwk hx => .inr ?_
    exact (doing_of_set (by simp) hwk).2
  | finish hP hwk₀ hfinish =>
    unfold finishItem at hfinish
    split at hfinish
    · cases hfinish
    · obtain rfl := Option.some.inj hfinish
      refine h.update hP (fun _ _ _ _ _ _ => rfl) fun w a x hwk hx => .inr ?_
      exact (doing_of_set (by simp) hwk).2

theorem doneSet_of_run {as : List Action} (h : exec (step capacity) .initial as = some s) :
    DoneSet s := by
  have hinv : (∃ own, Owned own s) ∧ DoneSet s := by
    refine exec_invariant' (I := fun s => (∃ own, Owned own s) ∧ DoneSet s) ?_ ?_ h
    · exact ⟨owned_initial, fun P pool w a x hP => by cases hP⟩
    · rintro s a s' ⟨⟨own, howned⟩, hdone⟩ hstep
      exact ⟨howned.effect (step_cases hstep), hdone.effect howned (step_cases hstep)⟩
  exact hinv.2

/-! ## Coming to rest -/

/-- No worker that is not blocked unsignalled can go on. -/
def AtRest (capacity : Nat) (P : PoolPtr) (s : World) : Prop :=
  ∀ w, Proper P s (.worker P w) → step capacity s (.worker P w) = none

/-- The worker waits for the mutex or for room in the pipe, or is gone. -/
def Worker.blocked (capacity : Nat) (pool : Pool) : Worker → Bool
  | start | waiting _ | finishing _ _ => pool.mutex.isSome
  | writing _ _ => pool.full capacity
  | exited => true
  | inner | sleeping | working _ | doing _ | freeing _ => false

theorem locked_of_none {β : Type} {x : Option β} (hm : pool.mutex = none) : pool.locked x = x := by
  rw [Pool.locked, hm]
  rfl

/-- The first job is there to be taken. -/
theorem takeItem_isSome (howned : Owned own s) (hP : s.pools P = some pool)
    (hq : pool.workq.isNone = false) (w : Nat) :
    (takeItem s.items pool w).isSome = true := by
  obtain ⟨q, hl, -⟩ := howned.pools P pool hP
  obtain ⟨a, ha⟩ : ∃ a, pool.workq = some a := by
    rw [← Option.isSome_iff_exists, ← Option.not_isNone, hq]
    rfl
  obtain ⟨next, q', rfl, -, -⟩ := (ha ▸ hl.chain).pop
  obtain ⟨x, hx⟩ := howned.allocated (hl.queue a List.mem_cons_self)
  simp [takeItem, ha, hx]

/-- **Progress**: a worker that is not blocked takes a step, and dereferences
nothing that is not there. -/
theorem workerStep_isSome (howned : Owned own s) (hdone : DoneSet s) (hP : s.pools P = some pool)
    {wk : Worker} (hwk : pool.workers[w]? = some wk) (hgo : wk.blocked capacity pool = false) :
    (workerStep capacity s P w).isSome = true := by
  simp only [workerStep, hP, hwk, Option.bind_eq_bind, Option.bind_some]
  cases wk with
  | start | waiting b | finishing id job =>
    have hm : pool.mutex = none := by simpa [Worker.blocked] using hgo
    simp [locked_of_none hm]
  | inner =>
    rw [Option.isSome_map, innerTest]
    split
    · rfl
    · next hrun =>
      rw [not_or, Bool.not_eq_true, Bool.not_eq_true] at hrun
      exact takeItem_isSome howned hP hrun.2 w
  | sleeping => rfl
  | working a =>
    obtain ⟨x, hx⟩ := howned.allocated (howned.held hP hwk rfl)
    simp [hx]
  | doing a =>
    obtain ⟨x, hx⟩ := howned.allocated (howned.held hP hwk rfl)
    obtain ⟨done, hx'⟩ := Option.isSome_iff_exists.1 (hdone P pool w a x hP hwk hx)
    simp [hx, hx']
  | freeing a =>
    obtain ⟨x, hx⟩ := howned.allocated (howned.held hP hwk rfl)
    simp only [freeWorkItem, hx, Option.bind_some, Option.bind_eq_bind]
    split <;> rfl
  | writing id job =>
    have hroom : pool.pipe.any (capacity ≤ ·) = false := hgo
    rw [Option.isSome_map, finishItem, if_neg (by simp [hroom])]
    rfl
  | exited => cases hgo

/-- When the workers are at rest, one of them is blocked in `send_done_event` with the mutex, or
they all sleep or are gone. -/
theorem rests (howned : Owned own s) (hdone : DoneSet s) (hP : s.pools P = some pool)
    (hguarded : Guarded ⟨pool, inside s.callers P⟩) (hrest : AtRest capacity P s) :
    pool.Stuck capacity ∨ pool.mutex = none ∧ ∀ wk ∈ pool.workers, wk = .waiting false ∨
      wk = .exited := by
  have hblocked : ∀ (w : Nat) wk, pool.workers[w]? = some wk → wk ≠ .waiting false →
      wk.blocked capacity pool = true := by
    intro w wk hwk hne
    by_contra hgo
    rw [Bool.not_eq_true] at hgo
    have hstep := workerStep_isSome howned hdone hP hwk hgo
    have hproper : Proper P s (.worker P w) := by
      refine ⟨rfl, fun pool' hP' => ?_⟩
      obtain rfl := Option.some.inj (hP.symm.trans hP')
      rw [hwk]
      exact fun heq => hne (Option.some.inj heq)
    rw [show workerStep capacity s P w = none from hrest w hproper] at hstep
    cases hstep
  cases hm : pool.mutex with
  | some w =>
    obtain ⟨wk, hwk, hholds⟩ := (hguarded w).1 hm
    have hwait := hblocked w wk hwk (by rintro rfl; cases hholds)
    cases wk with
    | writing id job => exact .inl ⟨w, id, job, hwk, hm, hwait⟩
    | inner | sleeping => cases hwait
    | start | waiting | working | doing | freeing | finishing | exited => cases hholds
  | none =>
    refine .inr ⟨rfl, fun wk hmem => ?_⟩
    obtain ⟨w, hwk⟩ := List.mem_iff_getElem?.1 hmem
    by_cases hne : wk = .waiting false
    · exact .inl hne
    · have hwait := hblocked w wk hwk hne
      cases wk with
      | exited => exact .inr rfl
      | writing id job =>
        have hheld := hguarded.mutex_eq hwk rfl
        rw [hm] at hheld
        cases hheld
      | start | waiting | finishing => simp [Worker.blocked, hm] at hwait
      | inner | sleeping | working | doing | freeing => cases hwait

/-! ## Pools that nobody destroys -/

/-- Workers stay as long as nobody tells them to quit. -/
structure Staying (v : Scene) : Prop where
  quit : v.pool.shouldQuit = false
  workers : ∀ wk ∈ v.pool.workers, wk ≠ .exited

/-- The invariant speaks of the flag and of the workers only. -/
theorem Staying.congr (h : Staying v) (hquit : v'.pool.shouldQuit = v.pool.shouldQuit)
    (hworkers : v'.pool.workers = v.pool.workers) : Staying v' := by
  refine ⟨hquit.trans h.quit, ?_⟩
  rw [hworkers]
  exact h.workers

theorem Staying.of_set {wk : Worker} (h : Staying v) (hne : wk ≠ .exited)
    (hquit : v'.pool.shouldQuit = v.pool.shouldQuit)
    (hworkers : v'.pool.workers = v.pool.workers.set w wk) :
    Staying v' := by
  refine ⟨hquit.trans h.quit, fun wk' hmem => ?_⟩
  rw [hworkers] at hmem
  rcases List.mem_or_eq_of_mem_set hmem with hold | rfl
  · exact h.workers wk' hold
  · exact hne

theorem Staying.move {a : Action} (h : Staying v) (hmove : Move capacity P v a v')
    (hcalm : ∀ t pos, v.callers t = some pos → pos.destroys = false)
    (ha : ∀ t, a ≠ .call t P .destroy) :
    Staying v' := by
  cases hmove with
  | query | plain | beginBatch | endBatch | clear | pipe | link | test | wait =>
    exact h.congr rfl rfl
  | destroy => exact absurd rfl (ha _)
  | quit ht | quitBroadcast ht | join ht => cases hcalm _ _ ht
  | broadcast ht =>
    refine ⟨h.quit, fun wk hmem => ?_⟩
    obtain ⟨wk', hold, rfl⟩ := List.mem_map.1 hmem
    have hne := h.workers wk' hold
    cases wk' <;> simp_all [Worker.signal]
  | outer hwk hidle =>
    unfold outerTest
    rw [if_neg (by simp [h.quit])]
    split
    · exact h.of_set (by simp) rfl rfl
    · exact h.of_set (by simp) rfl rfl
  | wake hwk hm =>
    unfold wakeTest
    rw [if_neg (by simp [h.quit])]
    exact h.of_set (by simp) rfl rfl
  | sleep | take | lock | finish => exact h.of_set (by simp) rfl rfl
  | run hwk hbusy hbusy' =>
    refine h.of_set ?_ rfl rfl
    rintro rfl
    cases hbusy'

theorem Staying.create {n : Nat} {callers' : CallerId → Option Position} :
    Staying ⟨.create n, callers'⟩ := by
  refine ⟨rfl, fun wk hmem => ?_⟩
  rw [List.eq_of_mem_replicate hmem]
  simp

theorem staying_of_run {as : List Action} (hno : ∀ t, Action.call t P .destroy ∉ as)
    (h : exec (step capacity) .initial as = some s) : Holds P Staying s := by
  have hinv : Intact P s ∧ Holds P Staying s := by
    refine exec_invariant (I := fun s => Intact P s ∧ Holds P Staying s) ?_ ?_
      (along_undestroyed hno) h
    · exact ⟨.initial, fun v hv => (by cases hv)⟩
    · intro m a m' hm ha hstep
      refine ⟨hm.1.step ha hstep, hm.2.step (fun _ _ _ => .create) ?_ hstep⟩
      intro v v' hv hI hmove
      refine hI.move hmove ?_ ha
      rw [← (scene_eq_some.1 hv).2]
      exact hm.1.calm
  exact hinv.2

/-- Everything is done: nothing is queued, every worker sleeps, and the calls of every job that was
linked and not discarded have been made. -/
structure Pool.Dry (pool : Pool) : Prop where
  qsize : pool.qsize = 0
  nactive : pool.nactive = 0
  mutex : pool.mutex = none
  asleep : ∀ wk ∈ pool.workers, wk = .waiting false
  settled : ∀ id job, .linked id job ∈ pool.log →
    .discarded id ∈ pool.log ∨ ∃ w, ∀ c ∈ job, .called id w c ∈ pool.log

/-- Nobody keeps jobs from the workers: no batch is open, and no caller has linked
a job and not broadcast yet. -/
def Released (P : PoolPtr) (s : World) (pool : Pool) : Prop :=
  pool.inBatch = false ∧ ∀ t, s.callers t ≠ some (P, .enqTest) ∧
    s.callers t ≠ some (P, .enqBroadcast) ∧
    s.callers t ≠ some (P, .endBroadcast)

theorem dry_of_rest {as : List Action} (hno : ∀ t, Action.call t P .destroy ∉ as)
    (h : exec (step capacity) .initial as = some s) (hP : s.pools P = some pool)
    (hworkers : 1 ≤ pool.workers.length) (hreleased : Released P s pool)
    (hrest : AtRest capacity P s) :
    pool.Stuck capacity ∨ pool.Dry := by
  obtain ⟨own, howned⟩ := owned_of_run h
  have hattended := attended_of_run hno h _ (scene_of hP rfl)
  rcases rests howned (doneSet_of_run h) hP hattended.guarded hrest with hstuck | ⟨hm, hall⟩
  · exact .inl hstuck
  · right
    have hstaying := staying_of_run hno h _ (scene_of hP rfl)
    have hasleep : ∀ wk ∈ pool.workers, wk = .waiting false := fun wk hmem =>
      (hall wk hmem).resolve_right (hstaying.workers wk hmem)
    have hempty : pool.workq = none := by
      by_contra hq
      rcases hattended.stranded hworkers hq hasleep with hbatch | ⟨t, ht⟩
      · exact absurd (hreleased.1.symm.trans hbatch) (by decide)
      · obtain ⟨htest, hbroadcast, hend⟩ := hreleased.2 t
        simp only [inside_eq_some] at ht
        tauto
    have hidle : pool.qsize = 0 ∧ pool.nactive = 0 := by
      obtain ⟨q, hl, -⟩ := howned.pools P pool hP
      have hchain := hl.chain
      rw [hempty] at hchain
      obtain rfl : q = [] := hchain.unique rfl
      refine ⟨hl.qsize, ?_⟩
      rw [hl.nactive, List.countP_eq_zero.2
        fun wk hmem => by rw [hasleep wk hmem]; simp [Worker.active]]
      rfl
    obtain ⟨q, hjobs⟩ := jobsOk_of_run h hP
    obtain ⟨hqueue, hrunning⟩ := hjobs.idle hidle.1 hidle.2
    refine ⟨hidle.1, hidle.2, hm, hasleep, fun id job hlinked => ?_⟩
    obtain ⟨st, hst, -⟩ := hjobs.states id job hlinked
    exact hst.settled hqueue hrunning hlinked

/-- A wait that has an end when no job is left: all but
`resman_tpool_wait_pending` with a negative target. -/
def Wait.ends : Wait → Prop
  | all | timed => True
  | pending target => 0 ≤ target

theorem Pool.Dry.met {k : Wait} (h : pool.Dry) (hk : k.ends) : k.blocks pool = false := by
  cases k with
  | all | timed => simp [Wait.blocks, h.qsize, h.nactive]
  | pending target =>
    have htarget : 0 ≤ target := hk
    simp [Wait.blocks, h.qsize, h.nactive, htarget]

theorem awaited_of_run {K : Wait → Prop} {as : List Action}
    (hno : ∀ t, Action.call t P .destroy ∉ as)
    (hclear : Along (step capacity) (ClearsForNone K P) .initial as)
    (h : exec (step capacity) .initial as = some s) : Awaited K P s := by
  have hkept : Along (step capacity) (fun _ a => ∀ t, a ≠ .call t P .destroy) .initial as :=
    along_undestroyed hno
  exact exec_invariant .initial (fun _ _ _ hm hc hstep => hm.step hc.1 hc.2 hstep)
    (hkept.and hclear) h

/-- **Waiting ends.** If in addition every `resman_tpool_clear` has left the blocked threads a
reason to wait, nobody who waits for at most so many jobs, zero or more, is blocked
unsignalled in a pool that has run dry, with a timeout or without, and everybody who waits so
returns with the next step. -/
theorem waits_end {as : List Action} (hno : ∀ t, Action.call t P .destroy ∉ as)
    (hclear : Along (step capacity) (ClearsForNone Wait.ends P) .initial as)
    (h : exec (step capacity) .initial as = some s) (hP : s.pools P = some pool) (hdry : pool.Dry)
    {t : CallerId} {k : Wait} (hk : k.ends) (o : Oracle) :
    (∀ b, s.callers t = some (P, .waiting k b) → b = true) ∧
      (s.callers t = some (P, .waitTest k) ∨ (∃ b, s.callers t = some (P, .waiting k b)) →
        step capacity s (.caller t o) = some (s.setCaller t none)) := by
  have hmet := hdry.met hk
  have hwait : waitStep s t P pool k = some (s.setCaller t none) := by
    rw [waitStep, locked_of_none hdry.mutex, hmet]
    rfl
  constructor
  · intro b ht
    cases b with
    | true => rfl
    | false =>
      have hheard := (awaited_of_run hno hclear h).heard _ (scene_of hP rfl)
      have hblocks := hheard.waiting t k (inside_eq_some.2 ht) hk
      exact absurd (hblocks.symm.trans hmet) (by decide)
  · rintro (ht | ⟨b, ht⟩)
    · simpa [step, callerStep, ht, hP] using hwait
    · simp only [step, callerStep, ht, hP, Option.bind_eq_bind, Option.bind_some]
      split
      · exact locked_of_none hdry.mutex
      · exact hwait

/-- A thread waits for a job, with a timeout, and the job is executed. -/
def executedAndWaited : List Action :=
  [.create 0 1, .call 0 0 (.enqueue ⟨7, 1, none⟩), .caller 0 {}, .caller 0 { mem := some 100 }] ++
  List.replicate 3 (.caller 0 {}) ++ [.call 1 0 (.wait .timed), .caller 1 {}] ++
    List.replicate 8 (.worker 0 0)

theorem dry_executedAndWaited :
    let s := (exec (step 65536) .initial executedAndWaited).get (by decide +kernel)
    ((s.pools 0).get (by decide +kernel)).Dry := by
  intro s
  have hrest : AtRest 65536 0 s := by
    intro w hproper
    cases w with
    | zero => exact absurd hproper (by decide +kernel)
    | succ n => rfl
  have hreleased : Released 0 s ((s.pools 0).get (by decide +kernel)) := by
    refine ⟨by decide +kernel, fun t => ?_⟩
    match t with
    | 0 | 1 => decide +kernel
    | n + 2 =>
      have hnone : s.callers (n + 2) = none := by rfl
      simp [hnone]
  have hdry := dry_of_rest (by simp [executedAndWaited]) (Option.some_get _).symm
    (Option.some_get _).symm (by decide +kernel) hreleased hrest
  refine hdry.resolve_left ?_
  rintro ⟨w, id, job, hwk, -, -⟩
  have hall : ∀ wk ∈ ((s.pools 0).get (by decide +kernel)).workers, wk = .waiting false := by
    decide +kernel
  cases hall _ (List.mem_of_getElem? hwk)

theorem waits_end_executedAndWaited :
    let s := (exec (step 65536) .initial executedAndWaited).get (by decide +kernel)
    (∀ b, s.callers 1 = some (0, .waiting .timed b) → b = true) ∧
      (s.callers 1 = some (0, .waitTest .timed) ∨ (∃ b, s.callers 1 = some (0, .waiting .timed b)) →
        step 65536 s (.caller 1 {}) = some (s.setCaller 1 none)) := by
  have hclear : Along (step 65536) (ClearsForNone Wait.ends 0) .initial executedAndWaited :=
    along_of_forall_mem (by simp [executedAndWaited, ClearsForNone])
  exact waits_end (k := .timed) (by simp [executedAndWaited]) hclear (Option.some_get _).symm
    (Option.some_get _).symm dry_executedAndWaited trivial {}

end Resman.TPool
