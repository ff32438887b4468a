import Resman.TPool.Steps

/-!
# One pool and the threads inside it

`Effect` follows items and jobs, and leaves out where the threads are. Here it is the other way
round: a `Scene` is one pool with the positions of the callers inside its functions, `Move` lists
what an action does to it, and `seen_of_step` says that these are all the cases. An invariant of a
scene that is kept by every move is kept by every step (`Holds.step`).
-/

namespace Resman.TPool

open Lib

/-- The positions of the callers that are inside a function of pool `P`. -/
def inside (callers : CallerId → Option (PoolPtr × Position)) (P : PoolPtr) (t : CallerId) :
    Option Position :=
  (callers t).bind fun c => if c.1 = P then some c.2 else none

structure Scene where
  pool : Pool
  callers : CallerId → Option Position

def World.scene (s : World) (P : PoolPtr) : Option Scene :=
  (s.pools P).map fun pool => ⟨pool, inside s.callers P⟩

/-- A position outside of the pool as far as its condition variables go. -/
def Position.plain : Position → Bool
  | enqAlloc _ | enqMalloc _ | enqLink _ | waitTest _ => true
  | _ => false

/-- The worker executes a job and does not hold the mutex. -/
def Worker.busy : Worker → Bool
  | working _ | doing _ | freeing _ | finishing _ _ => true
  | _ => false

def Pool.cleared (pool : Pool) (log : List Event) : Pool :=
  { pool with workq := none, workqTail := none, qsize := 0, log }

inductive Move (capacity : Nat) (P : PoolPtr) (v : Scene) : Action → Scene → Prop where
  | query (t : CallerId) : Move capacity P v (.call t P .query) v
  | plain {a : Action} {t : CallerId} {c : Option Position}
      (hold : ∀ pos ∈ v.callers t, pos.plain) (hnew : ∀ pos ∈ c, pos.plain) :
      Move capacity P v a { v with callers := Function.update v.callers t c }
  | beginBatch (t : CallerId) :
      Move capacity P v (.call t P .beginBatch) { v with pool := { v.pool with inBatch := true } }
  | endBatch {t : CallerId} (ht : v.callers t = none) :
      Move capacity P v (.call t P .endBatch) ⟨{ v.pool with inBatch := false },
        Function.update v.callers t (some .endBroadcast)⟩
  | clear {t : CallerId} {log : List Event} (hm : v.pool.mutex = none) :
      Move capacity P v (.call t P .clear) { v with pool := v.pool.cleared log }
  /-- The event pipe is made or drained. -/
  | pipe {a : Action} {pipe : Option Nat} (hpipe : pipe = some 0 ∨ pipe = v.pool.pipe) :
      Move capacity P v a { v with pool := { v.pool with pipe } }
  | destroy {t : CallerId} {log : List Event} (ht : v.callers t = none)
      (hm : v.pool.mutex = none) :
      Move capacity P v (.call t P .destroy) ⟨v.pool.cleared log,
        Function.update v.callers t (some .destroyQuit)⟩
  | link {t : CallerId} {o : Oracle} {a : ItemPtr} {workq workqTail : Option ItemPtr}
      {log : List Event} (ht : v.callers t = some (.enqLink a)) (hm : v.pool.mutex = none)
      (hworkq : workq ≠ none) :
      Move capacity P v (.caller t o) ⟨{ v.pool with
        qsize := v.pool.qsize + 1
        nlinked := v.pool.nlinked + 1
        workq
        workqTail
        log }, Function.update v.callers t (some .enqTest)⟩
  | test {t : CallerId} {o : Oracle} (ht : v.callers t = some .enqTest) :
      Move capacity P v (.caller t o) ⟨v.pool, Function.update v.callers t
        (if v.pool.inBatch then none else some .enqBroadcast)⟩
  | broadcast {t : CallerId} {o : Oracle}
      (ht : v.callers t = some .enqBroadcast ∨ v.callers t = some .endBroadcast) :
      Move capacity P v (.caller t o) ⟨v.pool.broadcast, Function.update v.callers t none⟩
  | wait {t : CallerId} {o : Oracle} {k : Wait} {c : Option Position}
      (ht : v.callers t = some (.waitTest k) ∨ ∃ b, v.callers t = some (.waiting k b))
      (hm : v.pool.mutex = none)
      (hc : c = none ∨ k.blocks v.pool = true ∧ c = some (.waiting k false)) :
      Move capacity P v (.caller t o) { v with callers := Function.update v.callers t c }
  | quit {t : CallerId} {o : Oracle} (ht : v.callers t = some .destroyQuit) :
      Move capacity P v (.caller t o) ⟨{ v.pool with shouldQuit := true },
        Function.update v.callers t (some .destroyBroadcast)⟩
  | quitBroadcast {t : CallerId} {o : Oracle} (ht : v.callers t = some .destroyBroadcast) :
      Move capacity P v (.caller t o) ⟨v.pool.broadcast,
        Function.update v.callers t (some .destroyJoin)⟩
  | join {t : CallerId} {o : Oracle} (ht : v.callers t = some .destroyJoin)
      (hall : ∀ wk ∈ v.pool.workers, wk = .exited) :
      Move capacity P v (.caller t o) ⟨{ v.pool with nactive := 0 },
        Function.update (fun t => (v.callers t).map Position.signal) t (some .destroyEvent)⟩
  | outer {w : Nat} {wk : Worker} (hwk : v.pool.workers[w]? = some wk)
      (hidle : wk = .start ∧ v.pool.mutex = none ∨ wk = .inner) :
      Move capacity P v (.worker P w) { v with pool := outerTest v.pool w }
  | wake {w : Nat} {b : Bool} (hwk : v.pool.workers[w]? = some (.waiting b))
      (hm : v.pool.mutex = none) :
      Move capacity P v (.worker P w) { v with pool := wakeTest v.pool w }
  | sleep {w : Nat} (hwk : v.pool.workers[w]? = some .sleeping) :
      Move capacity P v (.worker P w)
        { v with pool := { v.pool with mutex := none }.setWorker w (.waiting false) }
  | take {w : Nat} {a : ItemPtr} {workq workqTail : Option ItemPtr} {log : List Event}
      (hwk : v.pool.workers[w]? = some .inner) :
      Move capacity P v (.worker P w) ⟨{ v.pool with
        workq
        workqTail
        nactive := v.pool.nactive + 1
        qsize := v.pool.qsize - 1
        mutex := none
        workers := v.pool.workers.set w (.working a)
        log }, v.callers⟩
  | run {w : Nat} {wk wk' : Worker} {log : List Event} (hwk : v.pool.workers[w]? = some wk)
      (hbusy : wk.busy) (hbusy' : wk'.busy) :
      Move capacity P v (.worker P w) { v with pool := { v.pool with log }.setWorker w wk' }
  | lock {w : Nat} {id : JobId} {job : Job}
      (hwk : v.pool.workers[w]? = some (.finishing id job)) (hm : v.pool.mutex = none) :
      Move capacity P v (.worker P w)
        ⟨{ v.pool with mutex := some w }.setWorker w (.writing id job),
        fun t => (v.callers t).map Position.signal⟩
  | finish {w : Nat} {id : JobId} {job : Job} {log : List Event}
      (hwk : v.pool.workers[w]? = some (.writing id job))
      (hroom : ¬ v.pool.pipe.any (capacity ≤ ·)) :
      Move capacity P v (.worker P w) ⟨{ v.pool with
        pipe := v.pool.pipe.map (· + 1)
        nactive := v.pool.nactive - 1
        workers := v.pool.workers.set w .inner
        log }, v.callers⟩

/-- The pool and its callers are as before. -/
structure Apart (P : PoolPtr) (s s' : World) : Prop where
  pools : s'.pools P = s.pools P
  inside : inside s'.callers P = inside s.callers P

/-- What an action can be for pool `P`. -/
inductive Seen (capacity : Nat) (P : PoolPtr) (s : World) (a : Action) (s' : World) : Prop where
  | apart (h : Apart P s s')
  | created {numThreads : Nat} (ha : a = .create P numThreads) (hnone : s.scene P = none)
      (hnew : s'.scene P = some ⟨.create numThreads, inside s.callers P⟩)
  | moved {v v' : Scene} (hv : s.scene P = some v) (hv' : s'.scene P = some v')
      (h : Move capacity P v a v')
  | gone {t : CallerId} {v : Scene} (hv : s.scene P = some v)
      (ht : v.callers t = some .destroyEvent) (hnone : s'.scene P = none)

section Moves

variable {capacity : Nat} {s s' : World} {P P' : PoolPtr} {pool : Pool}
  {t : CallerId} {v v' : Scene} {c : Option (PoolPtr × Position)} {pos : Position}
  {callers : CallerId → Option (PoolPtr × Position)}

/-! ## Callers of a pool -/

theorem inside_eq_some : inside callers P t = some pos ↔ callers t = some (P, pos) := by
  unfold inside
  constructor
  · intro h
    obtain ⟨⟨P₁, pos₁⟩, ht, hpos⟩ := Option.bind_eq_some_iff.1 h
    split at hpos
    · next hP =>
      obtain rfl : P₁ = P := hP
      rw [ht, ← Option.some.inj hpos]
    · cases hpos
  · intro ht
    simp [ht]

theorem inside_of_outside (h : ∀ pos, callers t ≠ some (P, pos)) : inside callers P t = none := by
  rw [Option.eq_none_iff_forall_ne_some]
  intro pos hpos
  exact h pos (inside_eq_some.1 hpos)

/-- A caller moves to another position. -/
theorem inside_update : inside (Function.update callers t c) P =
    Function.update (inside callers P) t (c.bind fun c => if c.1 = P then some c.2 else none) := by
  funext t'
  by_cases ht : t' = t
  · subst ht
    simp [inside]
  · simp [inside, ht]

/-- A caller moves that is outside of the pool, and stays outside. -/
theorem inside_update_of_ne (hold : ∀ pos, callers t ≠ some (P, pos))
    (hnew : ∀ pos, c ≠ some (P, pos)) :
    inside (Function.update callers t c) P = inside callers P := by
  have hc : (c.bind fun c => if c.1 = P then some c.2 else none) = none := by
    rw [Option.bind_eq_none_iff]
    rintro ⟨P₁, pos⟩ rfl
    refine if_neg ?_
    rintro rfl
    exact hnew pos rfl
  rw [inside_update, hc, ← inside_of_outside hold, Function.update_eq_self]

theorem inside_broadcastDone : inside (s.broadcastDone P).callers P =
    fun t => (inside s.callers P t).map Position.signal := by
  funext t
  cases ht : s.callers t with
  | none => simp [inside, World.broadcastDone, ht]
  | some c =>
    by_cases hc : c.1 = P
    · simp [inside, World.broadcastDone, ht, hc]
    · simp [inside, World.broadcastDone, ht, hc]

theorem inside_broadcastDone_of_ne (hP : P' ≠ P) :
    inside (s.broadcastDone P').callers P = inside s.callers P := by
  funext t
  cases ht : s.callers t with
  | none => simp [inside, World.broadcastDone, ht]
  | some c =>
    by_cases hc : c.1 = P'
    · simp [inside, World.broadcastDone, ht, hc, hP]
    · simp [inside, World.broadcastDone, ht, hc]

theorem scene_eq_some :
    s.scene P = some v ↔ s.pools P = some v.pool ∧ inside s.callers P = v.callers := by
  unfold World.scene
  constructor
  · intro h
    obtain ⟨pool, hP, rfl⟩ := Option.map_eq_some_iff.1 h
    exact ⟨hP, rfl⟩
  · rintro ⟨hP, hc⟩
    rw [hP, Option.map_some, hc]

theorem scene_of {callers' : CallerId → Option Position} (hP : s.pools P = some pool)
    (hc : inside s.callers P = callers') : s.scene P = some ⟨pool, callers'⟩ :=
  scene_eq_some.2 ⟨hP, hc⟩

theorem Apart.scene (h : Apart P s s') : s'.scene P = s.scene P := by
  unfold World.scene
  rw [h.pools, h.inside]

/-! ## The cases of a step -/

/-- A call that does not touch the pool. -/
theorem callStep_frame {f : Call} (hP : P' ≠ P) (ht : s.callers t = none)
    (h : callStep s t P' f = some s') : Apart P s s' := by
  have hinside : ∀ pos, inside (Function.update s.callers t (some (P', pos))) P =
      inside s.callers P := by
    intro pos
    apply inside_update_of_ne
    · simp [ht]
    · simp [hP]
  simp only [callStep, Option.bind_eq_bind, Option.bind_eq_some_iff] at h
  obtain ⟨pool, -, h⟩ := h
  cases f with
  | enqueue job | wait k =>
    obtain rfl := Option.some.inj h
    exact .mk rfl (hinside _)
  | beginBatch | getWaitFd | drain =>
    obtain rfl := Option.some.inj h
    exact .mk (Function.update_of_ne (Ne.symm hP) _ _) rfl
  | endBatch =>
    obtain rfl := Option.some.inj h
    exact .mk (Function.update_of_ne (Ne.symm hP) _ _) (hinside _)
  | clear =>
    obtain ⟨r, -, rfl⟩ := Option.map_eq_some_iff.1 h
    exact .mk (Function.update_of_ne (Ne.symm hP) _ _) rfl
  | query =>
    obtain rfl := Option.some.inj (locked_eq_some h).2
    exact .mk rfl rfl
  | destroy =>
    obtain ⟨r, -, rfl⟩ := Option.map_eq_some_iff.1 h
    exact .mk (Function.update_of_ne (Ne.symm hP) _ _) (hinside _)

theorem cleared_of_clearQueue {items items' : Items} {pool pool' : Pool}
    (h : clearQueue items pool = some (items', pool')) : ∃ log, pool' = pool.cleared log := by
  simp only [clearQueue, Option.bind_eq_bind, Option.bind_eq_some_iff] at h
  obtain ⟨⟨heap, ids⟩, -, h⟩ := h
  obtain ⟨-, rfl⟩ := Prod.mk.inj (Option.some.inj h)
  exact ⟨_, rfl⟩

theorem callStep_move {f : Call} (ht : s.callers t = none) (hv : s.scene P = some v)
    (h : callStep s t P f = some s') :
    ∃ v', s'.scene P = some v' ∧ Move capacity P v (.call t P f) v' := by
  obtain ⟨hP, hc⟩ := scene_eq_some.1 hv
  have hinside : ∀ pos, inside (Function.update s.callers t (some (P, pos))) P =
      Function.update v.callers t (some pos) := by
    intro pos
    simp [inside_update, hc]
  have hout : v.callers t = none := by rw [← hc, inside, ht, Option.bind_none]
  simp only [callStep, Option.bind_eq_bind, Option.bind_eq_some_iff] at h
  obtain ⟨pool, hP', h⟩ := h
  obtain rfl : v.pool = pool := Option.some.inj (hP.symm.trans hP')
  have hself : ∀ pool', Function.update s.pools P (some pool') P = some pool' := fun pool' =>
    Function.update_self _ _ _
  cases f with
  | enqueue job | wait k =>
    obtain rfl := Option.some.inj h
    refine ⟨_, scene_of hP (hinside _), .plain ?_ ?_⟩ <;> simp [hout, Position.plain]
  | beginBatch =>
    obtain rfl := Option.some.inj h
    exact ⟨_, scene_of (hself _) hc, .beginBatch t⟩
  | endBatch =>
    obtain rfl := Option.some.inj h
    exact ⟨_, scene_of (hself _) (hinside _), .endBatch hout⟩
  | getWaitFd ok =>
    obtain rfl := Option.some.inj h
    refine ⟨_, scene_of (hself _) hc, .pipe ?_⟩
    split <;> simp
  | drain =>
    obtain rfl := Option.some.inj h
    refine ⟨_, scene_of (hself _) hc, .pipe ?_⟩
    cases v.pool.pipe <;> simp
  | clear =>
    obtain ⟨⟨items', pool'⟩, hlocked, rfl⟩ := Option.map_eq_some_iff.1 h
    obtain ⟨hm, hclear⟩ := locked_eq_some hlocked
    obtain ⟨log, rfl⟩ := cleared_of_clearQueue hclear
    exact ⟨_, scene_of (hself _) hc, .clear hm⟩
  | query =>
    obtain rfl := Option.some.inj (locked_eq_some h).2
    exact ⟨v, hv, .query t⟩
  | destroy =>
    obtain ⟨⟨items', pool'⟩, hlocked, rfl⟩ := Option.map_eq_some_iff.1 h
    obtain ⟨hm, hclear⟩ := locked_eq_some hlocked
    obtain ⟨log, rfl⟩ := cleared_of_clearQueue hclear
    exact ⟨_, scene_of (hself _) (hinside _), .destroy hout hm⟩

/-- A caller that is inside another pool. -/
theorem callerStep_frame {o : Oracle} (hP : P' ≠ P) (ht : s.callers t = some (P', pos))
    (h : callerStep capacity s t o = some s') : Apart P s s' := by
  have hinside : ∀ c : Option (PoolPtr × Position), (∀ pos, c ≠ some (P, pos)) →
      inside (Function.update s.callers t c) P = inside s.callers P := by
    intro c hc
    apply inside_update_of_ne
    · simp [ht, hP]
    · exact hc
  have hpools : ∀ pool', Function.update s.pools P' pool' P = s.pools P := fun pool' =>
    Function.update_of_ne (Ne.symm hP) _ _
  have hwait : ∀ pool k, waitStep s t P' pool k = some s' → Apart P s s' := by
    intro pool k hw
    obtain rfl := Option.some.inj (locked_eq_some hw).2
    refine .mk rfl (hinside _ fun pos => ?_)
    split <;> simp [hP]
  simp only [callerStep, ht, Option.bind_eq_bind, Option.bind_some, Option.bind_eq_some_iff] at h
  obtain ⟨pool, -, h⟩ := h
  cases pos with
  | enqAlloc job =>
    simp only at h
    split at h
    · obtain ⟨items', -, rfl⟩ := Option.map_eq_some_iff.1 h
      exact .mk rfl (hinside _ (by simp [hP]))
    · obtain rfl := Option.some.inj h
      exact .mk rfl (hinside _ (by simp [hP]))
  | enqMalloc job =>
    simp only at h
    split at h
    · obtain rfl := Option.some.inj h
      exact .mk rfl (hinside _ (by simp))
    · obtain ⟨items', -, rfl⟩ := Option.map_eq_some_iff.1 h
      exact .mk rfl (hinside _ (by simp [hP]))
  | enqLink a =>
    obtain ⟨r, -, rfl⟩ := Option.map_eq_some_iff.1 h
    exact .mk (hpools _) (hinside _ (by simp [hP]))
  | enqTest =>
    obtain rfl := Option.some.inj h
    refine .mk rfl (hinside _ fun pos => ?_)
    split <;> simp [hP]
  | enqBroadcast | endBroadcast =>
    obtain rfl := Option.some.inj h
    exact .mk (hpools _) (hinside _ (by simp))
  | waitTest k => exact hwait pool k h
  | waiting k signalled =>
    simp only at h
    split at h
    · obtain rfl := Option.some.inj (locked_eq_some h).2
      exact .mk rfl (hinside _ (by simp))
    · exact hwait pool k h
  | destroyQuit | destroyBroadcast =>
    obtain rfl := Option.some.inj h
    exact .mk (hpools _) (hinside _ (by simp [hP]))
  | destroyJoin =>
    simp only at h
    split at h
    · obtain rfl := Option.some.inj h
      refine .mk (hpools _) ?_
      refine (inside_update_of_ne (fun pos => ?_) (by simp [hP])).trans
        (inside_broadcastDone_of_ne hP)
      simp [World.broadcastDone, World.setPool, ht, hP]
    · cases h
  | destroyEvent =>
    simp only at h
    split at h
    · cases h
    · obtain rfl := Option.some.inj h
      exact .mk (hpools _) (hinside _ (by simp))

theorem control_of_linkItem {items items' : Items} {pool pool' : Pool} {a : ItemPtr}
    (h : linkItem items pool a = some (items', pool')) :
    ∃ workq workqTail log, workq ≠ none ∧ pool' = { pool with
      qsize := pool.qsize + 1
      nlinked := pool.nlinked + 1
      workq
      workqTail
      log } := by
  simp only [linkItem, Option.bind_eq_bind, Option.bind_eq_some_iff] at h
  obtain ⟨job, -, h⟩ := h
  split at h
  · next head hhead =>
    simp only [Option.bind_eq_some_iff] at h
    obtain ⟨tail, -, x, -, h⟩ := h
    obtain ⟨-, rfl⟩ := Prod.mk.inj (Option.some.inj h)
    exact ⟨_, _, _, by simp [hhead], rfl⟩
  · obtain ⟨-, rfl⟩ := Prod.mk.inj (Option.some.inj h)
    exact ⟨_, _, _, by simp, rfl⟩

theorem waitStep_move {k : Wait} {o : Oracle} (hv : s.scene P = some v)
    (ht : v.callers t = some (.waitTest k) ∨ ∃ b, v.callers t = some (.waiting k b))
    (h : waitStep s t P v.pool k = some s') :
    ∃ v', s'.scene P = some v' ∧ Move capacity P v (.caller t o) v' := by
  obtain ⟨hP, hc⟩ := scene_eq_some.1 hv
  obtain ⟨hm, hs⟩ := locked_eq_some h
  obtain rfl := Option.some.inj hs
  refine ⟨_, scene_of hP (inside_update.trans (congrArg (Function.update · t _) hc)),
    .wait ht hm ?_⟩
  split
  · next hb => exact .inr ⟨hb, by simp⟩
  · exact .inl rfl

/-- The move of a caller, unless it is the end of `resman_tpool_destroy`. -/
theorem callerStep_move {o : Oracle} (ht : s.callers t = some (P, pos)) (hpos : pos ≠ .destroyEvent)
    (hv : s.scene P = some v) (h : callerStep capacity s t o = some s') :
    ∃ v', s'.scene P = some v' ∧ Move capacity P v (.caller t o) v' := by
  obtain ⟨hP, hc⟩ := scene_eq_some.1 hv
  have hinside : ∀ c : Option (PoolPtr × Position), inside (Function.update s.callers t c) P =
      Function.update v.callers t (c.bind fun c => if c.1 = P then some c.2 else none) := by
    intro c
    rw [inside_update, hc]
  have hin : v.callers t = some pos := by rw [← hc, inside_eq_some, ht]
  have hself : ∀ pool', Function.update s.pools P (some pool') P = some pool' := fun pool' =>
    Function.update_self _ _ _
  simp only [callerStep, ht, Option.bind_eq_bind, Option.bind_some, Option.bind_eq_some_iff] at h
  obtain ⟨pool, hP', h⟩ := h
  obtain rfl : v.pool = pool := Option.some.inj (hP.symm.trans hP')
  cases pos with
  | enqAlloc job =>
    simp only at h
    split at h
    · obtain ⟨items', -, rfl⟩ := Option.map_eq_some_iff.1 h
      refine ⟨_, scene_of hP (hinside _), .plain ?_ ?_⟩ <;> simp [hin, Position.plain]
    · obtain rfl := Option.some.inj h
      refine ⟨_, scene_of hP (hinside _), .plain ?_ ?_⟩ <;> simp [hin, Position.plain]
  | enqMalloc job =>
    simp only at h
    split at h
    · obtain rfl := Option.some.inj h
      refine ⟨_, scene_of hP (hinside _), .plain ?_ ?_⟩ <;> simp [hin, Position.plain]
    · obtain ⟨items', -, rfl⟩ := Option.map_eq_some_iff.1 h
      refine ⟨_, scene_of hP (hinside _), .plain ?_ ?_⟩ <;> simp [hin, Position.plain]
  | enqLink a =>
    obtain ⟨⟨items', pool'⟩, hlocked, rfl⟩ := Option.map_eq_some_iff.1 h
    obtain ⟨hm, hlink⟩ := locked_eq_some hlocked
    obtain ⟨workq, workqTail, log, hworkq, rfl⟩ := control_of_linkItem hlink
    refine ⟨_, scene_of (hself _) (hinside _), ?_⟩
    simp only [Option.bind_some, if_true]
    exact .link hin hm hworkq
  | enqTest =>
    obtain rfl := Option.some.inj h
    refine ⟨_, scene_of hP (hinside _), ?_⟩
    have htest : Move capacity P v (.caller t o) _ := .test hin
    cases hb : v.pool.inBatch <;> simpa [hb] using htest
  | enqBroadcast =>
    obtain rfl := Option.some.inj h
    exact ⟨_, scene_of (hself _) (hinside _), .broadcast (.inl hin)⟩
  | endBroadcast =>
    obtain rfl := Option.some.inj h
    exact ⟨_, scene_of (hself _) (hinside _), .broadcast (.inr hin)⟩
  | waitTest k => exact waitStep_move hv (.inl hin) h
  | waiting k signalled =>
    simp only at h
    split at h
    · obtain ⟨hm, hs⟩ := locked_eq_some h
      obtain rfl := Option.some.inj hs
      exact ⟨_, scene_of hP (hinside _), .wait (.inr ⟨_, hin⟩) hm (.inl rfl)⟩
    · exact waitStep_move hv (.inr ⟨_, hin⟩) h
  | destroyQuit =>
    obtain rfl := Option.some.inj h
    refine ⟨_, scene_of (hself _) (hinside _), ?_⟩
    simp only [Option.bind_some, if_true]
    exact .quit hin
  | destroyBroadcast =>
    obtain rfl := Option.some.inj h
    refine ⟨_, scene_of (hself _) (hinside _), ?_⟩
    simp only [Option.bind_some, if_true]
    exact .quitBroadcast hin
  | destroyJoin =>
    simp only at h
    split at h
    · next hall =>
      obtain rfl := Option.some.inj h
      refine ⟨_, scene_of (hself _) ?_, .join hin (by simpa using hall)⟩
      show inside (Function.update (s.broadcastDone P).callers t _) P = _
      rw [inside_update, inside_broadcastDone, hc]
      simp
    · cases h
  | destroyEvent => exact absurd rfl hpos

theorem workerStep_frame {w : Nat} (hP : P' ≠ P) (h : workerStep capacity s P' w = some s') :
    Apart P s s' := by
  have hpools : ∀ pool', Function.update s.pools P' pool' P = s.pools P := fun pool' =>
    Function.update_of_ne (Ne.symm hP) _ _
  simp only [workerStep, Option.bind_eq_bind, Option.bind_eq_some_iff] at h
  obtain ⟨pool, -, wk, -, h⟩ := h
  cases wk with
  | start | waiting signalled =>
    obtain rfl := Option.some.inj (locked_eq_some h).2
    exact .mk (hpools _) rfl
  | inner | writing id job =>
    obtain ⟨pool', -, rfl⟩ := Option.map_eq_some_iff.1 h
    exact .mk (hpools _) rfl
  | sleeping =>
    obtain rfl := Option.some.inj h
    exact .mk (hpools _) rfl
  | working a =>
    obtain ⟨x, -, h⟩ := Option.bind_eq_some_iff.1 h
    obtain rfl := Option.some.inj h
    exact .mk (hpools _) rfl
  | doing a | freeing a =>
    simp only [Option.bind_eq_some_iff] at h
    obtain ⟨x, -, y, -, h⟩ := h
    obtain rfl := Option.some.inj h
    exact .mk (hpools _) rfl
  | finishing id job =>
    obtain rfl := Option.some.inj (locked_eq_some h).2
    exact .mk (hpools _) (inside_broadcastDone_of_ne hP)
  | exited => cases h

theorem workerStep_move {w : Nat} (hv : s.scene P = some v)
    (h : workerStep capacity s P w = some s') :
    ∃ v', s'.scene P = some v' ∧ Move capacity P v (.worker P w) v' := by
  obtain ⟨hP, hc⟩ := scene_eq_some.1 hv
  have hself : ∀ pool', Function.update s.pools P (some pool') P = some pool' := fun pool' =>
    Function.update_self _ _ _
  simp only [workerStep, Option.bind_eq_bind, Option.bind_eq_some_iff] at h
  obtain ⟨pool, hP', wk, hwk, h⟩ := h
  obtain rfl : v.pool = pool := Option.some.inj (hP.symm.trans hP')
  cases wk with
  | start =>
    obtain ⟨hm, hs⟩ := locked_eq_some h
    obtain rfl := Option.some.inj hs
    exact ⟨_, scene_of (hself _) hc, .outer hwk (.inl ⟨rfl, hm⟩)⟩
  | inner =>
    obtain ⟨pool', htest, rfl⟩ := Option.map_eq_some_iff.1 h
    unfold innerTest at htest
    split at htest
    · obtain rfl := Option.some.inj htest
      exact ⟨_, scene_of (hself _) hc, .outer hwk (.inr rfl)⟩
    · simp only [takeItem, Option.bind_eq_bind, Option.bind_eq_some_iff] at htest
      obtain ⟨a, -, x, -, htake⟩ := htest
      obtain rfl := Option.some.inj htake
      exact ⟨_, scene_of (hself _) hc, .take hwk⟩
  | sleeping =>
    obtain rfl := Option.some.inj h
    exact ⟨_, scene_of (hself _) hc, .sleep hwk⟩
  | waiting signalled =>
    obtain ⟨hm, hs⟩ := locked_eq_some h
    obtain rfl := Option.some.inj hs
    exact ⟨_, scene_of (hself _) hc, .wake hwk hm⟩
  | working a =>
    obtain ⟨x, -, h⟩ := Option.bind_eq_some_iff.1 h
    obtain rfl := Option.some.inj h
    refine ⟨_, scene_of (hself _) hc, .run hwk rfl ?_⟩
    split <;> rfl
  | doing a =>
    simp only [Option.bind_eq_some_iff] at h
    obtain ⟨x, -, done, -, h⟩ := h
    obtain rfl := Option.some.inj h
    exact ⟨_, scene_of (hself _) hc, .run hwk rfl rfl⟩
  | freeing a =>
    simp only [Option.bind_eq_some_iff] at h
    obtain ⟨x, -, items', -, h⟩ := h
    obtain rfl := Option.some.inj h
    exact ⟨_, scene_of (hself _) hc, .run hwk rfl rfl⟩
  | finishing id job =>
    obtain ⟨hm, hs⟩ := locked_eq_some h
    obtain rfl := Option.some.inj hs
    refine ⟨_, scene_of (hself _) ?_, .lock hwk hm⟩
    rw [← hc]
    exact inside_broadcastDone
  | writing id job =>
    obtain ⟨pool', hfinish, rfl⟩ := Option.map_eq_some_iff.1 h
    unfold finishItem at hfinish
    split at hfinish
    · cases hfinish
    · next hroom =>
      obtain rfl := Option.some.inj hfinish
      exact ⟨_, scene_of (hself _) hc, .finish hwk hroom⟩
  | exited => cases h

/-- **The cases of an action**, as one pool sees it. -/
theorem seen_of_step {a : Action} (h : step capacity s a = some s') : Seen capacity P s a s' := by
  have hexists : ∀ {s' : World} {P' : PoolPtr} {f : Pool → Option World},
      ((s.pools P').bind f = some s') → ∃ pool, s.pools P' = some pool := by
    intro s' P' f hb
    obtain ⟨pool, hpool, -⟩ := Option.bind_eq_some_iff.1 hb
    exact ⟨pool, hpool⟩
  have hmoved : ∀ {pool : Pool}, s.pools P = some pool →
      (∀ v, s.scene P = some v → ∃ v', s'.scene P = some v' ∧ Move capacity P v a v') →
      Seen capacity P s a s' := by
    intro pool hP hmove
    obtain ⟨v', hv', hm⟩ := hmove _ (scene_of hP rfl)
    exact .moved (scene_of hP rfl) hv' hm
  cases a with
  | create P' numThreads =>
    simp only [step] at h
    split at h
    · cases h
    · next hnone =>
      obtain rfl := Option.some.inj h
      by_cases hP : P' = P
      · subst hP
        refine .created rfl ?_ (scene_of (Function.update_self _ _ _) rfl)
        rw [World.scene, hnone, Option.map_none]
      · exact .apart (.mk (Function.update_of_ne (Ne.symm hP) _ _) rfl)
  | call t P' f =>
    simp only [step] at h
    split at h
    · cases h
    · next ht =>
      rw [Option.isSome_iff_ne_none, not_not] at ht
      by_cases hP : P' = P
      · subst hP
        obtain ⟨pool, hpool⟩ := hexists h
        exact hmoved hpool fun v hv => callStep_move ht hv h
      · exact .apart (callStep_frame hP ht h)
  | caller t o =>
    have hc := h
    simp only [step, callerStep, Option.bind_eq_bind, Option.bind_eq_some_iff] at hc
    obtain ⟨⟨P', pos⟩, ht, pool, hpool, hc⟩ := hc
    by_cases hP : P' = P
    · subst hP
      by_cases hpos : pos = .destroyEvent
      · subst hpos
        refine .gone (t := t) (scene_of hpool rfl) (inside_eq_some.2 ht) ?_
        simp only at hc
        split at hc
        · cases hc
        · obtain rfl := Option.some.inj hc
          simp [World.scene]
      · exact hmoved hpool fun v hv => callerStep_move ht hpos hv h
    · exact .apart (callerStep_frame hP ht h)
  | worker P' w =>
    by_cases hP : P' = P
    · subst hP
      obtain ⟨pool, hpool⟩ := hexists h
      exact hmoved hpool fun v hv => workerStep_move hv h
    · exact .apart (workerStep_frame hP h)

/-! ## Invariants of a pool -/

/-- Pool `P`, if it exists, is as `I` says. -/
def Holds (P : PoolPtr) (I : Scene → Prop) (s : World) : Prop := ∀ v, s.scene P = some v → I v

/-- **The invariant rule of a pool**: `I` holds of a new pool and is kept by the moves. -/
theorem Holds.step {I : Scene → Prop} {a : Action} (hI : Holds P I s)
    (hnew : ∀ n, a = .create P n → s.scene P = none → I ⟨.create n, inside s.callers P⟩)
    (hmove : ∀ v v', s.scene P = some v → I v → Move capacity P v a v' → I v')
    (h : step capacity s a = some s') : Holds P I s' := by
  intro v' hv'
  cases seen_of_step (P := P) h with
  | apart hapart => exact hI v' (hapart.scene ▸ hv')
  | created ha hnone hnew' =>
    obtain rfl := Option.some.inj (hnew'.symm.trans hv')
    exact hnew _ ha hnone
  | moved hv hv'' hm =>
    obtain rfl := Option.some.inj (hv''.symm.trans hv')
    exact hmove _ _ hv (hI _ hv) hm
  | gone hv ht hnone =>
    rw [hnone] at hv'
    cases hv'

end Moves

end Resman.TPool
