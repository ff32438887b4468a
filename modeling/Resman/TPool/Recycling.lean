import Resman.TPool.ExactlyOnce

/-!
# The free list of work items

All pools take their items from one free list and give them back to it, through the link that the
queues use too. In every reachable state nothing that is on the list is in use, so an item that
`alloc_work_item` returns is not either.
-/

namespace Resman.TPool

open Lib

variable {own : ItemPtr → Option Owner} {s s' : World} {P : PoolPtr} {t : CallerId} {a : ItemPtr}
  {capacity : Nat}

/-- An item that is linked in the queue of a pool, or that a worker has taken and not freed, or that
a caller has got and not linked. -/
inductive InUse (s : World) (a : ItemPtr) : Prop
  | queued {P : PoolPtr} {pool : Pool} {q : List ItemPtr} : s.pools P = some pool →
      Chain (nextOf s.items.heap) pool.workq q → a ∈ q → InUse s a
  | held {P : PoolPtr} {pool : Pool} {w : Nat} {wk : Worker} : s.pools P = some pool →
      pool.workers[w]? = some wk → wk.item = some a → InUse s a
  | allocated {t : CallerId} {P : PoolPtr} : s.callers t = some (P, .enqLink a) → InUse s a

/-- The items `l` from `wpool` on: as many as `wpool_size` says, 64 at most,
each once, and none in use. -/
structure FreeList (s : World) (l : List ItemPtr) : Prop where
  chain : Chain (nextOf s.items.heap) s.items.wpool l
  size : s.items.wpoolSize = l.length
  bounded : s.items.wpoolSize ≤ 64
  nodup : l.Nodup
  unused : ∀ a ∈ l, ¬ InUse s a

namespace Owned

/-- What is in use has an owner, and is not free. -/
theorem inUse (h : Owned own s) (ha : InUse s a) : ∃ o, own a = some o ∧ o ≠ .free := by
  cases ha with
  | @queued P pool q hP hchain hmem =>
    obtain ⟨q', hl, -⟩ := h.pools P pool hP
    obtain rfl := hchain.unique hl.chain
    exact ⟨.queue P, hl.queue a hmem, by simp⟩
  | @held P pool w wk hP hwk hitem =>
    obtain ⟨q, hl, -⟩ := h.pools P pool hP
    exact ⟨.worker P w, hl.worker w wk hwk a hitem, by simp⟩
  | @allocated t P ht => exact ⟨.caller t, (h.caller t P a ht).1, by simp⟩

theorem not_inUse_of_free (h : Owned own s) (ha : own a = some .free) : ¬ InUse s a := by
  intro hused
  obtain ⟨o, ho, hne⟩ := h.inUse hused
  exact hne (Option.some.inj (ho.symm.trans ha))

/-- Memory that is not allocated is not in use. -/
theorem not_inUse_of_heap (h : Owned own s) (ha : s.items.heap a = none) : ¬ InUse s a := by
  intro hused
  obtain ⟨o, ho, -⟩ := h.inUse hused
  rw [h.fresh a ha] at ho
  cases ho

theorem freeList (h : Owned own s) : ∃ l, FreeList s l := by
  obtain ⟨l, hchain, hlen, hmax, hown⟩ := h.free
  refine ⟨l, hchain, hlen, hmax, hchain.nodup, ?_⟩
  intro a ha
  exact h.not_inUse_of_free (hown a ha)

/-- An item that a caller gets in a step was not in use before. -/
theorem not_inUse_of_allocated (h : Owned own s) (he : Effect capacity s s')
    (ht : s'.callers t = some (P, .enqLink a)) (hold : s.callers t ≠ some (P, .enqLink a)) :
    ¬ InUse s a := by
  cases he with
  | create hP => exact absurd ht hold
  | gone hc => exact absurd (hc t P a ht) hold
  | moved hc => exact absurd (hc t P a ht) hold
  | quiet hP hs hc => exact absurd (hc t P a ht) hold
  | joined hP hall hc => exact absurd (hc t P a ht) hold
  | clear hP hclear hc => exact absurd (hc t P a ht) hold
  | take hP hwk hidle htake => exact absurd ht hold
  | worked hP hwk hx => exact absurd ht hold
  | done hP hwk hx hdone => exact absurd ht hold
  | free hP hwk hx hfree => exact absurd ht hold
  | finish hP hwk hfinish => exact absurd ht hold
  | @pop t' P' job b items' hb hpop =>
    rcases update_eq_some.1 ht with ⟨rfl, heq⟩ | ⟨-, hsame⟩
    · cases heq
      obtain ⟨l, hchain, -, -, hown⟩ := h.free
      obtain ⟨next, rest, rfl, -, -⟩ := (hb ▸ hchain).pop
      exact h.not_inUse_of_free (hown a List.mem_cons_self)
    · exact absurd hsame hold
  | @malloc t' P' job b items' hmalloc =>
    rcases update_eq_some.1 ht with ⟨rfl, heq⟩ | ⟨-, hsame⟩
    · cases heq
      rw [mallocWorkItem] at hmalloc
      cases hnone : s.items.heap a with
      | some x =>
        rw [hnone] at hmalloc
        cases hmalloc
      | none => exact h.not_inUse_of_heap hnone
    · exact absurd hsame hold
  | link ht' hP hlink =>
    rcases update_eq_some.1 ht with ⟨-, heq⟩ | ⟨-, hsame⟩
    · cases heq
    · exact absurd hsame hold

end Owned

/-- **Work items are recycled one at a time**: in every reachable state of any number of
pools, workers and callers the free list holds nothing that is in use, and so a caller
never gets an item that is. -/
theorem recycling_of_run {as : List Action} (h : exec (step capacity) .initial as = some s) :
    (∃ l, FreeList s l) ∧
      ∀ act s' t P a, step capacity s act = some s' → s'.callers t = some (P, .enqLink a) →
        s.callers t ≠ some (P, .enqLink a) → ¬ InUse s a := by
  obtain ⟨own, howned⟩ := owned_of_run h
  refine ⟨howned.freeList, ?_⟩
  intro act s' t P a hstep ht hold
  exact howned.not_inUse_of_allocated (step_cases hstep) ht hold

/-- The first of two jobs is finished, and a third one is enqueued. -/
theorem recycling_of_run_third :
    let s := (exec (step 65536) .initial (firstFinished ++ [.call 0 0 (.enqueue ⟨9, 1, none⟩)])).get
      (by decide +kernel)
    (∃ l, FreeList s l) ∧
      ∀ act s' t P a, step 65536 s act = some s' → s'.callers t = some (P, .enqLink a) →
        s.callers t ≠ some (P, .enqLink a) → ¬ InUse s a :=
  recycling_of_run (Option.some_get _).symm

/-- It gets the item of the first job, while that of the second is in the queue. -/
example :
    let s := (exec (step 65536) .initial (firstFinished ++ [.call 0 0 (.enqueue ⟨9, 1, none⟩),
      .caller 0 {}])).get (by decide +kernel)
    s.items.wpool = none ∧ s.callers 0 = some (0, .enqLink 100) ∧
      (s.pools 0).map Pool.workq = some (some 101) := by
  decide +kernel

end Resman.TPool
