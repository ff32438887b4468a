import Resman.TPool.ExactlyOnce

/-!
# A whole call of `resman_tpool_enqueue`

`tpoolEnqueue` is the call from its start to its return. It is what the steps of the caller do one
after the other when the mutex is free (`tpoolEnqueue_exec`), so it keeps every invariant of the
pools. `World.jobs` reads the jobs in the queue of a pool. With an item in the free list, or memory
for a new one, the job is put at the end of the queue (`tpoolEnqueue_some`); without, nothing
happens and the result is `-1` (`tpoolEnqueue_null`).
-/

namespace Resman.TPool

open Lib

variable {own : ItemPtr → Option Owner} {heap heap' : ItemPtr → Option WorkItem}
  {s s' : World} {pool : Pool} {P : PoolPtr} {job : Job} {mem : Option ItemPtr} {q : List ItemPtr}

/-- `alloc_work_item`, and the writes to the new item that follow. A null pointer is none inside. -/
def allocWorkItem (items : Items) (job : Job) (mem : Option ItemPtr) :
    Option (Items × Option ItemPtr) :=
  match items.wpool with
  | some w => (popWorkItem items job w).map (·, some w)
  | none =>
    match mem with
    | none => some (items, none)
    | some a => (mallocWorkItem items job a).map (·, some a)

/-- `if(!tpool->in_batch)`, a broadcast. -/
def Pool.wake (pool : Pool) : Pool := if pool.inBatch then pool else pool.broadcast

def tpoolEnqueue (s : World) (P : PoolPtr) (job : Job) (mem : Option ItemPtr) :
    Option (World × Int) := do
  let pool ← s.pools P
  match ← allocWorkItem s.items job mem with
  | (_, none) => return (s, -1)
  | (items, some a) =>
    let (items, pool) ← linkItem items pool a
    return ((s.setPool P pool.wake).setItems items, 0)

/-- At most so many jobs from an item on. -/
def queueJobs (heap : ItemPtr → Option WorkItem) : Nat → Option ItemPtr → Option (List Job)
  | _, none => some []
  | 0, some _ => none
  | fuel + 1, some a => do
    let x ← heap a
    return x.toJob :: (← queueJobs heap fuel x.next)

/-- The jobs from `workq` on. -/
def World.jobs (s : World) (P : PoolPtr) : Option (List Job) := do
  let pool ← s.pools P
  queueJobs s.items.heap pool.qsize.toNat pool.workq

theorem Pool.wake_workq (pool : Pool) : pool.wake.workq = pool.workq := by
  unfold wake
  split <;> rfl

theorem Pool.wake_qsize (pool : Pool) : pool.wake.qsize = pool.qsize := by
  unfold wake
  split <;> rfl

/-! ## The jobs in a queue -/

theorem queueJobs_eq {p : Option ItemPtr} {fuel : Nat} (h : Chain (nextOf heap) p q)
    (hfuel : q.length ≤ fuel) :
    queueJobs heap fuel p = some (q.filterMap fun a => (heap a).map WorkItem.toJob) := by
  induction q generalizing p fuel with
  | nil =>
    obtain rfl : p = none := h
    rw [queueJobs]
    rfl
  | cons a q ih =>
    obtain ⟨rfl, next, hnext, hchain⟩ := h
    obtain ⟨x, hx, rfl⟩ := Option.map_eq_some_iff.1 hnext
    obtain ⟨fuel, rfl⟩ : ∃ k, fuel = k + 1 := ⟨fuel - 1, by simp at hfuel; omega⟩
    rw [queueJobs]
    simp only [hx, Option.bind_eq_bind, Option.bind_some, ih hchain (Nat.le_of_succ_le_succ hfuel)]
    simp [hx]

theorem jobs_eq (hP : s.pools P = some pool) (hchain : Chain (nextOf s.items.heap) pool.workq q)
    (hqsize : pool.qsize = q.length) :
    s.jobs P = some (q.filterMap fun a => (s.items.heap a).map WorkItem.toJob) := by
  rw [World.jobs, hP]
  exact queueJobs_eq hchain (by rw [hqsize]; simp)

/-! ## The call -/

/-- The caller has got an item, and no item in use has changed. -/
theorem allocWorkItem_some (h : Owned own s) (hmem : ∀ a ∈ mem, s.items.heap a = none)
    (hsome : s.items.wpool ≠ none ∨ mem ≠ none) (job : Job) (P : PoolPtr) (t : CallerId) :
    ∃ items a, allocWorkItem s.items job mem = some (items, some a) ∧
      items.heap = Function.update s.items.heap a (some { job with next := none, id := 0 }) ∧
      Owned (Function.update own a (some (.caller t)))
        ⟨items, s.pools, Function.update s.callers t (some (P, .enqLink a))⟩ := by
  cases hw : s.items.wpool with
  | some w =>
    obtain ⟨l, hchain, -⟩ := h.free
    obtain ⟨next, -, -, hnext, -⟩ := (hw ▸ hchain).pop
    obtain ⟨x, hx, -⟩ := Option.map_eq_some_iff.1 hnext
    have hpop : popWorkItem s.items job w = some
        { heap := Function.update s.items.heap w (some { job with next := none, id := 0 })
          wpool := x.next
          wpoolSize := s.items.wpoolSize - 1 } := by
      rw [popWorkItem, hx]
      rfl
    refine ⟨_, w, ?_, rfl, h.pop hw hpop⟩
    simp only [allocWorkItem, hw, hpop, Option.map_some]
  | none =>
    obtain ⟨a, rfl⟩ := Option.ne_none_iff_exists'.1 (hsome.resolve_left fun hne => hne hw)
    have hmalloc : mallocWorkItem s.items job a = some { s.items with
        heap := Function.update s.items.heap a (some { job with next := none, id := 0 }) } := by
      rw [mallocWorkItem, hmem a rfl]
    refine ⟨_, a, ?_, rfl, h.malloc hmalloc⟩
    simp only [allocWorkItem, hw, hmalloc, Option.map_some]

/-- **The job is enqueued** when there is an item for it. -/
theorem tpoolEnqueue_some (job : Job) (h : Owned own s) (hP : s.pools P = some pool)
    (hmem : ∀ a ∈ mem, s.items.heap a = none) (hsome : s.items.wpool ≠ none ∨ mem ≠ none) :
    ∃ s' jobs, tpoolEnqueue s P job mem = some (s', 0) ∧ s.jobs P = some jobs ∧
      s'.jobs P = some (jobs ++ [job]) := by
  obtain ⟨items, a, halloc, hheap, h'⟩ := allocWorkItem_some h hmem hsome job P 0
  obtain ⟨q, hl, -⟩ := h'.pools P pool hP
  have hself : items.heap a = some { job with next := none, id := 0 } := by
    rw [hheap, Function.update_self]
  have hown : Function.update own a (some (.caller 0)) a = some (.caller 0) :=
    Function.update_self _ _ _
  obtain ⟨⟨items', pool'⟩, hlink⟩ := Option.ne_none_iff_exists'.1 (linkItem_ne_none hl hself)
  obtain ⟨x, hx, hnew, -, hjob, hchain, -, -, hpool⟩ :=
    linkItem_spec hl hown (by rw [nextOf, hself]; rfl) hlink
  obtain rfl := Option.some.inj (hself.symm.trans hx)
  have hqa : ∀ b ∈ q, b ≠ a := fun b hb => ne_of_own (hl.queue b hb) hown (by simp)
  have hold : ∀ b ∈ q, items.heap b = s.items.heap b := fun b hb => by
    rw [hheap, Function.update_of_ne (hqa b hb)]
  have hjobs : ∀ b ∈ q, (items'.heap b).map WorkItem.toJob =
      (s.items.heap b).map WorkItem.toJob := by
    intro b hb
    have hmap := congrArg (Option.map Prod.snd) (hjob b (hqa b hb))
    rw [Option.map_map, Option.map_map] at hmap
    rw [← hold b hb]
    exact hmap
  have hchain₀ : Chain (nextOf s.items.heap) pool.workq q :=
    hl.chain.congr fun b hb => by rw [nextOf, nextOf, ← hold b hb]
  refine ⟨(s.setPool P pool'.wake).setItems items', _, ?_, jobs_eq hP hchain₀ hl.qsize, ?_⟩
  · simp only [tpoolEnqueue, hP, halloc, Option.bind_eq_bind, Option.bind_some]
    rw [show linkItem items pool a = _ from hlink]
    rfl
  · rw [jobs_eq (Function.update_self _ _ _) (pool'.wake_workq ▸ hchain)]
    · rw [List.filterMap_append]
      refine congrArg some (congr (congrArg _ (List.filterMap_congr hjobs)) ?_)
      show List.filterMap (fun b => (items'.heap b).map WorkItem.toJob) [a] = _
      rw [List.filterMap_cons, hnew]
      rfl
    · rw [Pool.wake_qsize, hpool]
      simp [hl.qsize]

/-- Without an item, nothing happens. -/
theorem tpoolEnqueue_null (hP : s.pools P = some pool) (hw : s.items.wpool = none) :
    tpoolEnqueue s P job none = some (s, -1) := by
  rw [tpoolEnqueue, allocWorkItem, hP, hw]
  rfl

/-- The pool is still there. -/
theorem tpoolEnqueue_pool {ret : Int} (h : tpoolEnqueue s P job mem = some (s', ret)) :
    (s'.pools P).isSome := by
  simp only [tpoolEnqueue, Option.bind_eq_bind, Option.bind_eq_some_iff] at h
  obtain ⟨pool, hP, ⟨items, a⟩, -, h⟩ := h
  cases a with
  | none =>
    obtain ⟨rfl, -⟩ := Prod.mk.inj (Option.some.inj h)
    rw [hP]
    rfl
  | some a =>
    obtain ⟨⟨items', pool'⟩, -, h⟩ := Option.bind_eq_some_iff.1 h
    obtain ⟨rfl, -⟩ := Prod.mk.inj (Option.some.inj h)
    show (Function.update s.pools P (some pool'.wake) P).isSome = true
    rw [Function.update_self]
    rfl

/-! ## The call as a run -/

/-- The steps of the caller up to the locked section. -/
theorem allocWorkItem_exec (capacity : Nat) {t : CallerId} {items : Items} {a : ItemPtr}
    (ht : s.callers t = none) (hP : s.pools P = some pool)
    (h : allocWorkItem s.items job mem = some (items, some a)) :
    ∃ as, exec (step capacity) s as =
      some ((s.setItems items).setCaller t (some (P, .enqLink a))) := by
  have hcall : step capacity s (.call t P (.enqueue job)) =
      some (s.setCaller t (some (P, .enqAlloc job))) := by
    simp [step, ht, callStep, hP]
  unfold allocWorkItem at h
  cases hw : s.items.wpool with
  | some w =>
    simp only [hw] at h
    obtain ⟨items', hpop, heq⟩ := Option.map_eq_some_iff.1 h
    obtain ⟨rfl, ⟨⟩⟩ := Prod.mk.inj heq
    refine ⟨[.call t P (.enqueue job), .caller t {}], exec_cons_eq_some.2 ⟨_, hcall, ?_⟩⟩
    simp [exec, step, callerStep, World.setCaller, World.setItems, hP, hw, hpop]
  | none =>
    cases mem with
    | none =>
      simp only [hw] at h
      cases (Prod.mk.inj (Option.some.inj h)).2
    | some a =>
      simp only [hw] at h
      obtain ⟨items', hmalloc, heq⟩ := Option.map_eq_some_iff.1 h
      obtain ⟨rfl, ⟨⟩⟩ := Prod.mk.inj heq
      refine ⟨[.call t P (.enqueue job), .caller t {}, .caller t { mem := some a }],
        exec_cons_eq_some.2 ⟨_, hcall, ?_⟩⟩
      simp [exec, step, callerStep, World.setCaller, World.setItems, hP, hw, hmalloc]

/-- The steps of the caller from the locked section on. -/
theorem linkItem_exec (capacity : Nat) {t : CallerId} {a : ItemPtr} {items : Items} {pool' : Pool}
    (ht : s.callers t = some (P, .enqLink a)) (hP : s.pools P = some pool)
    (hlock : pool.mutex = none) (h : linkItem s.items pool a = some (items, pool')) :
    ∃ as, exec (step capacity) s as =
      some (((s.setPool P pool'.wake).setItems items).setCaller t none) := by
  cases hbatch : pool'.inBatch with
  | true =>
    refine ⟨[.caller t {}, .caller t {}], ?_⟩
    simp [exec, step, callerStep, World.setCaller, World.setItems, World.setPool, Pool.locked,
      Pool.wake, ht, hP, hlock, h, hbatch]
  | false =>
    refine ⟨[.caller t {}, .caller t {}, .caller t {}], ?_⟩
    simp [exec, step, callerStep, World.setCaller, World.setItems, World.setPool, Pool.locked,
      Pool.wake, ht, hP, hlock, h, hbatch]

/-- **The call is a run of its caller** when no worker holds the mutex. -/
theorem tpoolEnqueue_exec (capacity : Nat) {t : CallerId} {ret : Int} (ht : s.callers t = none)
    (hP : s.pools P = some pool) (hlock : pool.mutex = none)
    (h : tpoolEnqueue s P job mem = some (s', ret)) :
    ∃ as, exec (step capacity) s as = some s' := by
  have hself : Function.update s.callers t none = s.callers :=
    ht ▸ Function.update_eq_self t s.callers
  simp only [tpoolEnqueue, hP, Option.bind_eq_bind, Option.bind_some, Option.bind_eq_some_iff] at h
  obtain ⟨⟨items, a⟩, halloc, h⟩ := h
  cases a with
  | none =>
    obtain ⟨rfl, -⟩ := Prod.mk.inj (Option.some.inj h)
    exact ⟨[], rfl⟩
  | some a =>
    obtain ⟨⟨items', pool'⟩, hlink, h⟩ := Option.bind_eq_some_iff.1 h
    obtain ⟨rfl, -⟩ := Prod.mk.inj (Option.some.inj h)
    obtain ⟨as, has⟩ := allocWorkItem_exec capacity ht hP halloc
    obtain ⟨bs, hbs⟩ := linkItem_exec capacity (s := (s.setItems items).setCaller t
      (some (P, .enqLink a))) (Function.update_self _ _ _) hP hlock hlink
    refine ⟨as ++ bs, ?_⟩
    rw [exec_append, has]
    refine hbs.trans (congrArg some ?_)
    simp only [World.setCaller, World.setItems, World.setPool, Function.update_idem, hself]

end Resman.TPool
