import Resman.TPool.Follow

/-!
# The effects of a step

`Effect` lists what one action can do to the items, to the jobs of a pool and to the items that
callers hold, one constructor for each operation that touches one of them; everything else is
`quiet` or `moved`. `step_cases` says that these are all the cases.
-/

namespace Resman.TPool

open Lib

/-- No caller gets an item. -/
def NoNewItem (callers callers' : CallerId → Option (PoolPtr × Position)) : Prop :=
  ∀ t P a, callers' t = some (P, .enqLink a) → callers t = some (P, .enqLink a)

inductive Effect (capacity : Nat) (s : World) : World → Prop where
  | create {P : PoolPtr} {numThreads : Nat} (hP : s.pools P = none) :
      Effect capacity s (s.setPool P (.create numThreads))
  | gone {P : PoolPtr} {callers' : CallerId → Option (PoolPtr × Position)}
      (hc : NoNewItem s.callers callers') :
      Effect capacity s ⟨s.items, Function.update s.pools P none, callers'⟩
  /-- Nothing changes but the positions of callers. -/
  | moved {callers' : CallerId → Option (PoolPtr × Position)} (hc : NoNewItem s.callers callers') :
      Effect capacity s ⟨s.items, s.pools, callers'⟩
  /-- Flags, signals and the mutex change, or a worker without an item moves on. -/
  | quiet {P : PoolPtr} {pool pool' : Pool} {callers' : CallerId → Option (PoolPtr × Position)}
      (hP : s.pools P = some pool) (hs : pool.Same pool') (hc : NoNewItem s.callers callers') :
      Effect capacity s ⟨s.items, Function.update s.pools P (some pool'), callers'⟩
  /-- The workers have been joined. -/
  | joined {P : PoolPtr} {pool : Pool} {callers' : CallerId → Option (PoolPtr × Position)}
      (hP : s.pools P = some pool) (hall : ∀ wk ∈ pool.workers, wk = .exited)
      (hc : NoNewItem s.callers callers') :
      Effect capacity s
        ⟨s.items, Function.update s.pools P (some { pool with nactive := 0 }), callers'⟩
  | pop {t : CallerId} {P : PoolPtr} {job : Job} {a : ItemPtr} {items' : Items}
      (ha : s.items.wpool = some a) (h : popWorkItem s.items job a = some items') :
      Effect capacity s
        ⟨items', s.pools, Function.update s.callers t (some (P, .enqLink a))⟩
  | malloc {t : CallerId} {P : PoolPtr} {job : Job} {a : ItemPtr} {items' : Items}
      (h : mallocWorkItem s.items job a = some items') :
      Effect capacity s
        ⟨items', s.pools, Function.update s.callers t (some (P, .enqLink a))⟩
  | link {t : CallerId} {P : PoolPtr} {pool pool' : Pool} {a : ItemPtr} {items' : Items}
      (ht : s.callers t = some (P, .enqLink a)) (hP : s.pools P = some pool)
      (h : linkItem s.items pool a = some (items', pool')) :
      Effect capacity s ⟨items', Function.update s.pools P (some pool'),
        Function.update s.callers t (some (P, .enqTest))⟩
  | clear {P : PoolPtr} {pool pool' : Pool} {items' : Items}
      {callers' : CallerId → Option (PoolPtr × Position)} (hP : s.pools P = some pool)
      (h : clearQueue s.items pool = some (items', pool')) (hc : NoNewItem s.callers callers') :
      Effect capacity s ⟨items', Function.update s.pools P (some pool'), callers'⟩
  | take {P : PoolPtr} {pool pool' : Pool} {w : Nat} {wk : Worker} (hP : s.pools P = some pool)
      (hwk : pool.workers[w]? = some wk) (hidle : wk.core = .start)
      (h : takeItem s.items pool w = some pool') : Effect capacity s (s.setPool P pool')
  | worked {P : PoolPtr} {pool : Pool} {w : Nat} {a : ItemPtr} {x : WorkItem}
      (hP : s.pools P = some pool) (hwk : pool.workers[w]? = some (.working a))
      (hx : s.items.heap a = some x) :
      Effect capacity s (s.setPool P ((pool.record (.called x.id w (x.work, x.data))).setWorker w
        (if x.done.isSome then .doing a else .freeing a)))
  | done {P : PoolPtr} {pool : Pool} {w : Nat} {a : ItemPtr} {x : WorkItem} {done : Callback}
      (hP : s.pools P = some pool) (hwk : pool.workers[w]? = some (.doing a))
      (hx : s.items.heap a = some x) (hdone : x.done = some done) :
      Effect capacity s (s.setPool P ((pool.record (.called x.id w (done, x.data))).setWorker w
        (.freeing a)))
  | free {P : PoolPtr} {pool : Pool} {w : Nat} {a : ItemPtr} {x : WorkItem} {items' : Items}
      (hP : s.pools P = some pool) (hwk : pool.workers[w]? = some (.freeing a))
      (hx : s.items.heap a = some x) (h : freeWorkItem s.items a = some items') :
      Effect capacity s
        ((s.setPool P (pool.setWorker w (.finishing x.id x.toJob))).setItems items')
  | finish {P : PoolPtr} {pool pool' : Pool} {w : Nat} {id : JobId} {job : Job}
      (hP : s.pools P = some pool) (hwk : pool.workers[w]? = some (.writing id job))
      (h : finishItem capacity pool w id = some pool') : Effect capacity s (s.setPool P pool')

section Cases

variable {capacity : Nat} {s s' : World} {pool pool' : Pool} {P : PoolPtr} {w : Nat}
  {wk wk' : Worker} {t : CallerId} {c : Option (PoolPtr × Position)}

/-! ## Callers -/

theorem NoNewItem.refl (callers : CallerId → Option (PoolPtr × Position)) :
    NoNewItem callers callers := fun _ _ _ h => h

/-- A caller moves to a position where it has no item. -/
theorem noNewItem_update (hc : ∀ P a, c ≠ some (P, .enqLink a)) :
    NoNewItem s.callers (Function.update s.callers t c) := by
  intro t' P a h
  rcases update_eq_some.1 h with ⟨-, hpos⟩ | ⟨-, hold⟩
  · exact absurd hpos (hc P a)
  · exact hold

theorem noNewItem_broadcastDone : NoNewItem s.callers (s.broadcastDone P).callers := by
  intro t P' a h
  obtain ⟨⟨P₁, pos⟩, hc, heq⟩ := Option.map_eq_some_iff.1 h
  split at heq
  · next hP =>
    obtain ⟨rfl, hpos⟩ := Prod.mk.inj heq
    obtain rfl : P₁ = P := hP
    cases pos with
    | enqLink a' =>
      obtain rfl := Position.enqLink.inj hpos
      exact hc
    | _ => cases hpos
  · rw [heq] at hc
    exact hc

theorem NoNewItem.trans {c₁ c₂ c₃ : CallerId → Option (PoolPtr × Position)}
    (h : NoNewItem c₁ c₂) (h' : NoNewItem c₂ c₃) : NoNewItem c₁ c₃ :=
  fun t P a ha => h t P a (h' t P a ha)

/-! ## Pools -/

theorem map_core_set (h : pool.workers[w]? = some wk) (hcore : wk'.core = wk.core) :
    (pool.workers.set w wk').map Worker.core = pool.workers.map Worker.core := by
  refine List.ext_getElem? fun i => ?_
  rw [List.getElem?_map, List.getElem?_map]
  by_cases hi : i = w
  · subst hi
    rw [List.getElem?_set_self (List.getElem?_eq_some_iff.1 h).1, h]
    exact congrArg some hcore
  · rw [List.getElem?_set_ne (Ne.symm hi)]

/-- A worker moves on without taking or finishing a job. -/
theorem same_setWorker (h : pool.workers[w]? = some wk) (hcore : wk'.core = wk.core)
    (mutex : Option Nat) : pool.Same ({ pool with mutex }.setWorker w wk') :=
  ⟨rfl, rfl, rfl, rfl, rfl, rfl, map_core_set h hcore⟩

theorem same_broadcast : pool.Same pool.broadcast := by
  refine ⟨rfl, rfl, rfl, rfl, rfl, rfl, ?_⟩
  simp [Pool.broadcast, Function.comp_def, Worker.core_signal]

/-- A worker without a job moves on without one. -/
theorem same_idle (h : pool.workers[w]? = some wk) (hidle : wk.core = .start)
    (hidle' : wk'.core = .start) (mutex : Option Nat) :
    pool.Same ({ pool with mutex }.setWorker w wk') :=
  same_setWorker h (hidle'.trans hidle.symm) mutex

theorem outerTest_same (h : pool.workers[w]? = some wk) (hidle : wk.core = .start) :
    pool.Same (outerTest pool w) := by
  rw [outerTest]
  split
  · exact same_idle h hidle rfl none
  · split <;> exact same_idle h hidle rfl (some w)

theorem wakeTest_same (h : pool.workers[w]? = some wk) (hidle : wk.core = .start) :
    pool.Same (wakeTest pool w) := by
  rw [wakeTest]
  split
  · exact same_idle h hidle rfl pool.mutex
  · exact same_idle h hidle rfl (some w)

theorem locked_eq_some {β : Type} {x : Option β} {b : β} (h : pool.locked x = some b) :
    pool.mutex = none ∧ x = some b := by
  rw [Pool.locked] at h
  split at h
  · next hm => exact ⟨Option.isNone_iff_eq_none.1 hm, h⟩
  · cases h

/-! ## The cases -/

theorem callStep_cases {f : Call} (h : callStep s t P f = some s') : Effect capacity s s' := by
  simp only [callStep, Option.bind_eq_bind, Option.bind_eq_some_iff] at h
  obtain ⟨pool, hP, h⟩ := h
  cases f with
  | enqueue job | wait k =>
    obtain rfl := Option.some.inj h
    exact .moved (noNewItem_update (by simp))
  | beginBatch | getWaitFd | drain =>
    obtain rfl := Option.some.inj h
    exact .quiet hP ⟨rfl, rfl, rfl, rfl, rfl, rfl, rfl⟩ (.refl _)
  | endBatch =>
    obtain rfl := Option.some.inj h
    exact .quiet hP ⟨rfl, rfl, rfl, rfl, rfl, rfl, rfl⟩ (noNewItem_update (by simp))
  | clear =>
    obtain ⟨⟨items', pool'⟩, hlocked, rfl⟩ := Option.map_eq_some_iff.1 h
    exact .clear hP (locked_eq_some hlocked).2 (.refl _)
  | query =>
    obtain rfl := Option.some.inj (locked_eq_some h).2
    exact .moved (.refl _)
  | destroy =>
    obtain ⟨⟨items', pool'⟩, hlocked, rfl⟩ := Option.map_eq_some_iff.1 h
    exact .clear hP (locked_eq_some hlocked).2 (noNewItem_update (by simp))

theorem waitStep_cases {k : Wait} (h : waitStep s t P pool k = some s') : Effect capacity s s' := by
  obtain ⟨-, hs⟩ := locked_eq_some h
  obtain rfl := Option.some.inj hs
  refine .moved (noNewItem_update fun P' a => ?_)
  split <;> simp

theorem callerStep_cases {o : Oracle} (h : callerStep capacity s t o = some s') :
    Effect capacity s s' := by
  simp only [callerStep, Option.bind_eq_bind, Option.bind_eq_some_iff] at h
  obtain ⟨⟨P, pos⟩, ht, pool, hP, h⟩ := h
  cases pos with
  | enqAlloc job =>
    simp only at h
    split at h
    · next w hw =>
      obtain ⟨items', hpop, rfl⟩ := Option.map_eq_some_iff.1 h
      exact .pop hw hpop
    · obtain rfl := Option.some.inj h
      exact .moved (noNewItem_update (by simp))
  | enqMalloc job =>
    simp only at h
    split at h
    · obtain rfl := Option.some.inj h
      exact .moved (noNewItem_update (by simp))
    · obtain ⟨items', hmalloc, rfl⟩ := Option.map_eq_some_iff.1 h
      exact .malloc hmalloc
  | enqLink a =>
    obtain ⟨⟨items', pool'⟩, hlocked, rfl⟩ := Option.map_eq_some_iff.1 h
    exact .link ht hP (locked_eq_some hlocked).2
  | enqTest =>
    obtain rfl := Option.some.inj h
    refine .moved (noNewItem_update fun P' a => ?_)
    split <;> simp
  | enqBroadcast | endBroadcast =>
    obtain rfl := Option.some.inj h
    exact .quiet hP same_broadcast (noNewItem_update (by simp))
  | waitTest k => exact waitStep_cases h
  | waiting k signalled =>
    simp only at h
    split at h
    · obtain rfl := Option.some.inj (locked_eq_some h).2
      exact .moved (noNewItem_update (by simp))
    · exact waitStep_cases h
  | destroyQuit =>
    obtain rfl := Option.some.inj h
    exact .quiet hP ⟨rfl, rfl, rfl, rfl, rfl, rfl, rfl⟩ (noNewItem_update (by simp))
  | destroyBroadcast =>
    obtain rfl := Option.some.inj h
    exact .quiet hP same_broadcast (noNewItem_update (by simp))
  | destroyJoin =>
    simp only at h
    split at h
    · next hall =>
      obtain rfl := Option.some.inj h
      refine .joined hP (by simpa using hall) ?_
      exact NoNewItem.trans (noNewItem_broadcastDone (P := P)) (noNewItem_update (by simp))
    · cases h
  | destroyEvent =>
    simp only at h
    split at h
    · cases h
    · obtain rfl := Option.some.inj h
      exact .gone (noNewItem_update (by simp))

theorem workerStep_cases (h : workerStep capacity s P w = some s') : Effect capacity s s' := by
  simp only [workerStep, Option.bind_eq_bind, Option.bind_eq_some_iff] at h
  obtain ⟨pool, hP, wk, hwk, h⟩ := h
  cases wk with
  | start =>
    obtain rfl := Option.some.inj (locked_eq_some h).2
    exact .quiet hP (outerTest_same hwk rfl) (.refl _)
  | inner =>
    obtain ⟨pool', htest, rfl⟩ := Option.map_eq_some_iff.1 h
    rw [innerTest] at htest
    split at htest
    · obtain rfl := Option.some.inj htest
      exact .quiet hP (outerTest_same hwk rfl) (.refl _)
    · exact .take hP hwk rfl htest
  | sleeping =>
    obtain rfl := Option.some.inj h
    exact .quiet hP (same_idle hwk rfl rfl none) (.refl _)
  | waiting signalled =>
    obtain rfl := Option.some.inj (locked_eq_some h).2
    exact .quiet hP (wakeTest_same hwk rfl) (.refl _)
  | working a =>
    obtain ⟨x, hx, h⟩ := Option.bind_eq_some_iff.1 h
    obtain rfl := Option.some.inj h
    exact .worked hP hwk hx
  | doing a =>
    simp only [Option.bind_eq_some_iff] at h
    obtain ⟨x, hx, done, hdone, h⟩ := h
    obtain rfl := Option.some.inj h
    exact .done hP hwk hx hdone
  | freeing a =>
    simp only [Option.bind_eq_some_iff] at h
    obtain ⟨x, hx, items', hfree, h⟩ := h
    obtain rfl := Option.some.inj h
    exact .free hP hwk hx hfree
  | finishing id job =>
    obtain rfl := Option.some.inj (locked_eq_some h).2
    have hcore : (Worker.writing id job).core = (Worker.finishing id job).core := rfl
    exact .quiet hP (same_setWorker hwk hcore (some w)) noNewItem_broadcastDone
  | writing id job =>
    obtain ⟨pool', hfinish, rfl⟩ := Option.map_eq_some_iff.1 h
    exact .finish hP hwk hfinish
  | exited => cases h

/-- **The cases of an action.** -/
theorem step_cases {a : Action} (h : step capacity s a = some s') : Effect capacity s s' := by
  cases a with
  | create P numThreads =>
    simp only [step] at h
    split at h
    · cases h
    · next hP =>
      obtain rfl := Option.some.inj h
      exact .create hP
  | call t P f =>
    simp only [step] at h
    split at h
    · cases h
    · exact callStep_cases h
  | caller t o => exact callerStep_cases h
  | worker P w => exact workerStep_cases h

end Cases

end Resman.TPool
