import Resman.TPool.Moves

/-!
# The mutex of a pool

Two invariants that the results about waiting threads share. `Guarded`: `workq_mutex` is held by a
worker exactly while that worker is inside a critical section. `Intact`: a pool that nobody destroys
exists when a caller is inside it, and no caller is on its way through `resman_tpool_destroy`.
-/

namespace Resman.TPool

open Lib

variable {capacity : Nat} {s s' : World} {P : PoolPtr} {v v' : Scene}

/-! ## The tests of a worker -/

theorem outerTest_eq (pool : Pool) (w : Nat) : ∃ mutex wk,
    (wk = .exited ∨ wk = .sleeping ∨ wk = .inner) ∧
      outerTest pool w = { pool with mutex }.setWorker w wk := by
  unfold outerTest
  split
  · exact ⟨_, _, .inl rfl, rfl⟩
  · split
    · exact ⟨_, _, .inr (.inl rfl), rfl⟩
    · exact ⟨_, _, .inr (.inr rfl), rfl⟩

theorem wakeTest_eq (pool : Pool) (w : Nat) : ∃ mutex wk, (wk = .exited ∨ wk = .inner) ∧
    wakeTest pool w = { pool with mutex }.setWorker w wk := by
  unfold wakeTest
  split
  · exact ⟨pool.mutex, _, .inl rfl, rfl⟩
  · exact ⟨_, _, .inr rfl, rfl⟩

/-! ## The mutex -/

/-- The worker is inside a critical section. -/
def Worker.holds : Worker → Bool
  | inner | sleeping | writing _ _ => true
  | _ => false

/-- A worker holds the mutex exactly while it is inside a critical section. -/
def Guarded (v : Scene) : Prop :=
  ∀ w, v.pool.mutex = some w ↔ ∃ wk, v.pool.workers[w]? = some wk ∧ wk.holds = true

theorem Guarded.mutex_eq {w : Nat} {wk : Worker} (h : Guarded v)
    (hwk : v.pool.workers[w]? = some wk) (hh : wk.holds = true) : v.pool.mutex = some w :=
  (h w).2 ⟨wk, hwk, hh⟩

/-- A worker that may take the mutex, or has it, moves on. -/
theorem Guarded.set {w : Nat} {wk : Worker} (h : Guarded v) (hwk : v.pool.workers[w]? = some wk)
    (hm : v.pool.mutex = none ∨ wk.holds = true) (wk' : Worker)
    (hset : v'.pool.workers = v.pool.workers.set w wk')
    (hm' : v'.pool.mutex = if wk'.holds then some w else none) : Guarded v' := by
  have hw := (List.getElem?_eq_some_iff.1 hwk).1
  have hother : ∀ i, i ≠ w → v.pool.mutex ≠ some i := by
    intro i hi heq
    rcases hm with hm | hm
    · rw [hm] at heq
      cases heq
    · exact hi (Option.some.inj (heq.symm.trans (h.mutex_eq hwk hm)))
  intro i
  rw [hm', hset]
  by_cases hi : i = w
  · subst hi
    rw [List.getElem?_set_self hw]
    cases hh : wk'.holds <;> simp [hh]
  · rw [List.getElem?_set_ne (Ne.symm hi), ← h i]
    constructor
    · intro heq
      split at heq
      · exact absurd (Option.some.inj heq).symm hi
      · cases heq
    · intro heq
      exact absurd heq (hother i hi)

/-- A worker moves on outside of critical sections. -/
theorem Guarded.setFree {w : Nat} {wk wk' : Worker} (h : Guarded v)
    (hwk : v.pool.workers[w]? = some wk) (hfree : wk.holds = false) (hfree' : wk'.holds = false)
    (hset : v'.pool.workers = v.pool.workers.set w wk')
    (hm' : v'.pool.mutex = v.pool.mutex) : Guarded v' := by
  have hw := (List.getElem?_eq_some_iff.1 hwk).1
  intro i
  rw [hm', hset, h i]
  by_cases hi : i = w
  · subst hi
    rw [List.getElem?_set_self hw, hwk]
    simp [hfree, hfree']
  · rw [List.getElem?_set_ne (Ne.symm hi)]

theorem Worker.holds_signal (wk : Worker) : wk.signal.holds = wk.holds := by cases wk <;> rfl

theorem Worker.holds_of_busy {wk : Worker} (h : wk.busy) : wk.holds = false := by
  cases wk <;> first | rfl | cases h

theorem Guarded.broadcast {callers' : CallerId → Option Position} (h : Guarded v) :
    Guarded ⟨v.pool.broadcast, callers'⟩ := by
  intro w
  refine (h w).trans ?_
  show _ ↔ ∃ wk, (v.pool.workers.map Worker.signal)[w]? = some wk ∧ wk.holds = true
  simp [Worker.holds_signal]

theorem Guarded.move {a : Action} (h : Guarded v) (hmove : Move capacity P v a v') :
    Guarded v' := by
  cases hmove with
  | query | plain | beginBatch | endBatch | clear | pipe | destroy | link | test | wait | quit |
      join => exact h
  | broadcast | quitBroadcast => exact h.broadcast
  | @outer w wk hwk hidle =>
    have hm : v.pool.mutex = none ∨ wk.holds = true := by
      rcases hidle with ⟨-, hm⟩ | rfl
      · exact .inl hm
      · exact .inr rfl
    unfold outerTest
    split
    · exact h.set hwk hm .exited rfl rfl
    · split
      · exact h.set hwk hm .sleeping rfl rfl
      · exact h.set hwk hm .inner rfl rfl
  | wake hwk hm =>
    unfold wakeTest
    split
    · exact h.set hwk (.inl hm) .exited rfl hm
    · exact h.set hwk (.inl hm) .inner rfl rfl
  | sleep hwk => exact h.set hwk (.inr rfl) (.waiting false) rfl rfl
  | @take w a _ _ _ hwk => exact h.set hwk (.inr rfl) (.working a) rfl rfl
  | run hwk hbusy hbusy' =>
    exact h.setFree hwk (Worker.holds_of_busy hbusy) (Worker.holds_of_busy hbusy') rfl rfl
  | @lock w id job hwk hm => exact h.set hwk (.inl hm) (.writing id job) rfl rfl
  | finish hwk _ => exact h.set hwk (.inr rfl) .inner rfl (h.mutex_eq hwk rfl)

theorem Guarded.create {n : Nat} {callers' : CallerId → Option Position} :
    Guarded ⟨.create n, callers'⟩ := by
  intro w
  constructor
  · intro h
    cases h
  · rintro ⟨wk, hwk, hh⟩
    obtain rfl : wk = .start := List.eq_of_mem_replicate (List.mem_of_getElem? hwk)
    cases hh

/-! ## Pools that nobody destroys -/

def Position.destroys : Position → Bool
  | destroyQuit | destroyBroadcast | destroyJoin | destroyEvent => true
  | _ => false

theorem Position.destroys_signal (pos : Position) : pos.signal.destroys = pos.destroys := by
  cases pos <;> rfl

/-- The pool exists when a caller is inside it, and no caller is about to destroy it. -/
structure Intact (P : PoolPtr) (s : World) : Prop where
  scene : ∀ t pos, inside s.callers P t = some pos → s.scene P ≠ none
  calm : ∀ t pos, inside s.callers P t = some pos → pos.destroys = false

theorem calm_update {callers : CallerId → Option Position} {c : Option Position}
    (h : ∀ t pos, callers t = some pos → pos.destroys = false)
    (hc : ∀ pos ∈ c, pos.destroys = false) (t' : CallerId) :
    ∀ pos, Function.update callers t c t' = some pos → pos.destroys = false := by
  intro pos hpos
  rcases update_eq_some.1 hpos with ⟨-, heq⟩ | ⟨-, hold⟩
  · exact hc pos heq
  · exact h t' pos hold

theorem Move.calm {a : Action} (hmove : Move capacity P v a v')
    (ha : ∀ t, a ≠ .call t P .destroy)
    (h : ∀ t pos, v.callers t = some pos → pos.destroys = false) :
    ∀ t pos, v'.callers t = some pos → pos.destroys = false := by
  cases hmove with
  | query | beginBatch | clear | pipe | outer | wake | sleep | take | run | finish => exact h
  | plain _ hnew =>
    refine calm_update h fun pos hpos => ?_
    have hplain := hnew pos hpos
    cases pos <;> first | rfl | cases hplain
  | endBatch | link | broadcast => exact calm_update h (by simp [Position.destroys])
  | test =>
    refine calm_update h fun pos hpos => ?_
    split at hpos
    · cases hpos
    · obtain rfl := Option.some.inj hpos
      rfl
  | wait _ _ hc =>
    refine calm_update h fun pos hpos => ?_
    rcases hc with rfl | ⟨-, rfl⟩
    · cases hpos
    · obtain rfl := Option.some.inj hpos
      rfl
  | destroy => exact absurd rfl (ha _)
  | quit ht | quitBroadcast ht | join ht => cases h _ _ ht
  | lock =>
    intro t pos hpos
    obtain ⟨pos₁, ht, rfl⟩ := Option.map_eq_some_iff.1 hpos
    rw [Position.destroys_signal]
    exact h t pos₁ ht

theorem Intact.initial : Intact P .initial :=
  ⟨fun _ _ h => (by cases h), fun _ _ h => (by cases h)⟩

theorem Intact.step {a : Action} (hI : Intact P s) (ha : ∀ t, a ≠ .call t P .destroy)
    (h : step capacity s a = some s') : Intact P s' := by
  cases seen_of_step (P := P) h with
  | apart hapart =>
    refine ⟨?_, ?_⟩
    · rw [hapart.inside, hapart.scene]
      exact hI.scene
    · rw [hapart.inside]
      exact hI.calm
  | created _ hnone hnew =>
    obtain ⟨-, hinside⟩ := scene_eq_some.1 hnew
    refine ⟨fun t pos ht => by simp [hnew], ?_⟩
    rw [hinside]
    exact hI.calm
  | moved hv hv' hm =>
    obtain ⟨-, hc⟩ := scene_eq_some.1 hv
    obtain ⟨-, hc'⟩ := scene_eq_some.1 hv'
    refine ⟨fun t pos ht => by simp [hv'], ?_⟩
    rw [hc']
    exact hm.calm ha (hc ▸ hI.calm)
  | gone hv ht hnone =>
    obtain ⟨-, hc⟩ := scene_eq_some.1 hv
    have hcalm := hI.calm _ _ ((congrFun hc _).trans ht)
    cases hcalm

/-- A pool is created before anyone calls its functions. -/
theorem Intact.inside_eq_none (hI : Intact P s) (hnone : s.scene P = none) :
    inside s.callers P = fun _ => none := by
  funext t
  rw [Option.eq_none_iff_forall_ne_some]
  intro pos hpos
  exact hI.scene t pos hpos hnone

/-- The run never calls `resman_tpool_destroy` for the pool. -/
theorem along_undestroyed {as : List Action} (hno : ∀ t, Action.call t P .destroy ∉ as) :
    Along (step capacity) (fun _ a => ∀ t, a ≠ .call t P .destroy) .initial as := by
  apply along_of_forall_mem
  rintro a ha - t rfl
  exact hno t ha

end Resman.TPool
