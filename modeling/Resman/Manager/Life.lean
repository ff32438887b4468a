import Resman.Manager.Loads
import Resman.Manager.Completion

/-!
# The life of a resource

`Life` is the manager as it is meant: a resource rests, a load job waits for a worker or is in
`load_func`, the load is finished in the worker that ran it, it is reported by one call of
`done_func`, and the resource rests again. The history of a manager says which of these `stages`
each resource has gone through, and `life_of_run` is the refinement: in every run in which
`resman_reload` finds the resource at rest, the stages of each resource are a path of `Life`, which
ends where the state of the manager, its workers and the queue says (`LifeAt`). The stage
`completed` is the whole last section of `work_func`: the flags are read before or after it.
-/

namespace Resman.Manager

open Lib FileWatch

/-! ## The abstract machine -/

/-- Where a resource is in the cycle of its loads, with the result of the load. -/
inductive Life where
  | resting
  | waiting
  | loaded (w : Nat) (ret : Int)
  | ready (ret : Int)
  | called (ret : Int)
  deriving DecidableEq, Repr

inductive LoadStage where
  | enqueued
  | returned (w : Nat) (ret : Int)
  | completed (w : Nat)
  | began
  | ended
  deriving DecidableEq, Repr

/-- Each state allows one stage; without a `done_func` a load that is completed is not reported. -/
def Life.step (doneFunc : Bool) : Life → LoadStage → Option Life
  | resting, .enqueued => some waiting
  | waiting, .returned w ret => some (loaded w ret)
  | loaded w ret, .completed w' =>
    if w' = w then some (if doneFunc then ready ret else resting) else none
  | ready ret, .began => some (called ret)
  | called _, .ended => some resting
  | _, _ => none

/-- The stages that are left of the load that goes on. -/
def Life.left : Life → Nat
  | resting => 0
  | waiting => 4
  | loaded _ _ => 3
  | ready _ => 2
  | called _ => 1

/-- A load has five stages at most. -/
theorem Life.length_le {d : Bool} {l l' : Life} {xs : List LoadStage}
    (h : exec (Life.step d) l xs = some l') :
    xs.length ≤ 5 * xs.count .enqueued + l.left := by
  induction xs generalizing l with
  | nil => exact Nat.zero_le _
  | cons x xs ih =>
    obtain ⟨l₁, hstep, hrest⟩ := exec_cons_eq_some.1 h
    have hle := ih hrest
    have hpaid : 1 + l₁.left ≤ 5 * (if x = .enqueued then 1 else 0) + l.left := by
      unfold Life.step at hstep
      split at hstep
      · obtain rfl := Option.some.inj hstep
        decide
      · obtain rfl := Option.some.inj hstep
        exact Nat.le_refl 4
      · split at hstep
        · obtain rfl := Option.some.inj hstep
          cases d
          · exact (by decide : 1 + 0 ≤ 5 * 0 + 3)
          · exact (by decide : 1 + 2 ≤ 5 * 0 + 3)
        · cases hstep
      · obtain rfl := Option.some.inj hstep
        exact Nat.le_refl 2
      · obtain rfl := Option.some.inj hstep
        exact Nat.le_refl 1
      · cases hstep
    simp only [List.length_cons, List.count_cons, beq_iff_eq]
    omega

/-- What `load_func` has returned in the load that goes on. -/
def Life.ret? : Life → Option Int
  | loaded _ ret | ready ret | called ret => some ret
  | resting | waiting => none

/-! ## The stages in a history -/

/-- The stage of the resource that a note is about. -/
def Note.stage? (m : MgrPtr) (p : ResPtr) : Note → Option LoadStage
  | enqueued m' q => if m' = m ∧ q = p then some .enqueued else none
  | loadReturned w m' q ret => if m' = m ∧ q = p then some (.returned w ret) else none
  | completed w m' q => if m' = m ∧ q = p then some (.completed w) else none
  | doneBegan m' q => if m' = m ∧ q = p then some .began else none
  | doneReturned m' q _ => if m' = m ∧ q = p then some .ended else none
  | _ => none

/-- The worker that has written the note. -/
def Note.worker? : Note → Option Nat
  | taken w | loadReturned w _ _ _ | completed w _ _ | sent w => some w
  | _ => none

/-- The stages that a resource has gone through, oldest first. -/
def stages (m : MgrPtr) (p : ResPtr) (es : List Note) : List LoadStage :=
  (es.filterMap (Note.stage? m p)).reverse

section Stages

variable {m : MgrPtr} {p q : ResPtr} {es ns : List Note} {w : Nat} {ret : Int}

theorem stages_append : stages m p (ns ++ es) = stages m p es ++ stages m p ns := by
  rw [stages, List.filterMap_append, List.reverse_append]
  rfl

theorem stages_of_none (h : ∀ n ∈ ns, n.stage? m p = none) : stages m p ns = [] := by
  rw [stages, List.filterMap_eq_nil_iff.2 h]
  rfl

theorem stage?_eq_enqueued {n : Note} : n.stage? m p = some .enqueued ↔ n = .enqueued m p := by
  cases n <;> simp [Note.stage?]

/-- The loads of a resource are counted by its stages. -/
theorem count_enqueued_stages (m : MgrPtr) (p : ResPtr) (es : List Note) :
    (stages m p es).count .enqueued = es.count (.enqueued m p) := by
  rw [stages, List.count_reverse]
  induction es with
  | nil => rfl
  | cons n es ih =>
    rw [List.filterMap_cons, List.count_cons, ← ih]
    by_cases hn : n = .enqueued m p
    · rw [hn]
      simp [Note.stage?]
    · cases hx : n.stage? m p with
      | none => simp [hn]
      | some x =>
        have hne : x ≠ .enqueued := by
          rintro rfl
          exact hn (stage?_eq_enqueued.1 hx)
        simp [hn, hne]

theorem stage?_of_rman {n : Note} (h : n.rman ≠ some m) : n.stage? m p = none := by
  cases n with
  | enqueued m' q | loadReturned _ m' q _ | completed _ m' q | doneBegan m' q
  | doneReturned m' q _ =>
    exact if_neg fun heq => h (congrArg some heq.1)
  | _ => rfl

end Stages

/-! ## Jobs in the pool -/

/-- The worker has a job for the resource and has not left `load_func`. -/
def Worker.toLoad (m : MgrPtr) (p : ResPtr) : Worker → Bool
  | taken j | loading j => j.refers m p
  | _ => false

/-- The worker has left `load_func`, and not yet `work_func`. -/
def Worker.hasLoaded (m : MgrPtr) (p : ResPtr) : Worker → Bool
  | loaded j => j.refers m p
  | _ => false

/-- A job for the resource is queued, or a worker has it and has not left `load_func`. -/
def Pool.Loading (pool : Pool) (m : MgrPtr) (p : ResPtr) : Prop :=
  (∃ j ∈ pool.queue, j.refers m p = true) ∨
    ∃ (v : Nat) (wk : Worker), pool.workers[v]? = some wk ∧ wk.toLoad m p = true

def Pool.Loaded (pool : Pool) (m : MgrPtr) (p : ResPtr) (w : Nat) : Prop :=
  ∃ wk : Worker, pool.workers[w]? = some wk ∧ wk.hasLoaded m p = true

section Jobs

variable {pool : Pool} {m : MgrPtr} {p : ResPtr} {w v : Nat} {wk : Worker}

theorem Worker.refers_of_toLoad (h : wk.toLoad m p = true) : wk.job.any (·.refers m p) = true := by
  cases wk with
  | taken | loading => exact h
  | _ => cases h

theorem Worker.refers_of_hasLoaded (h : wk.hasLoaded m p = true) :
    wk.job.any (·.refers m p) = true := by
  cases wk with
  | loaded => exact h
  | _ => cases h

theorem Worker.toLoad_of_hasLoaded (h : wk.hasLoaded m p = true) : wk.toLoad m p = false := by
  cases wk with
  | loaded => rfl
  | _ => cases h

theorem Pool.Loading.njobs_pos (h : pool.Loading m p) : 0 < pool.njobs m p := by
  rcases h with ⟨j, hj, href⟩ | ⟨v, wk, hv, hwk⟩
  · exact Nat.add_pos_left (List.countP_pos_iff.2 ⟨j, hj, href⟩) _
  · exact Nat.add_pos_right _ (countP_pos_of_slot hv (Worker.refers_of_toLoad hwk))

theorem Pool.Loaded.njobs_pos (h : pool.Loaded m p w) : 0 < pool.njobs m p := by
  obtain ⟨wk, hv, hwk⟩ := h
  exact Nat.add_pos_right _ (countP_pos_of_slot hv (Worker.refers_of_hasLoaded hwk))

/-- A resource with one job has it in one place. -/
theorem Pool.Loaded.not_loading (h : pool.Loaded m p w) (hone : pool.njobs m p ≤ 1) :
    ¬ pool.Loading m p := by
  obtain ⟨wk, hw, hwk⟩ := h
  have hpos := countP_pos_of_slot (f := fun wk : Worker => wk.job.any (·.refers m p)) hw
    (Worker.refers_of_hasLoaded hwk)
  rintro (⟨j, hj, href⟩ | ⟨v, wk', hv, hwk'⟩)
  · have hqueue : 0 < pool.queue.countP (·.refers m p) := List.countP_pos_iff.2 ⟨j, hj, href⟩
    simp only [Pool.njobs] at hone
    omega
  · have hne : w ≠ v := by
      rintro rfl
      obtain rfl := Option.some.inj (hw.symm.trans hv)
      exact absurd hwk' (by simp [Worker.toLoad_of_hasLoaded hwk])
    have htwo := two_le_countP (f := fun wk : Worker => wk.job.any (·.refers m p)) hne hw hv
      (Worker.refers_of_hasLoaded hwk) (Worker.refers_of_toLoad hwk')
    simp only [Pool.njobs] at hone
    omega

theorem Pool.Loaded.unique (h : pool.Loaded m p w) (h' : pool.Loaded m p v)
    (hone : pool.njobs m p ≤ 1) : v = w := by
  obtain ⟨wk, hw, hwk⟩ := h
  obtain ⟨wk', hv, hwk'⟩ := h'
  by_contra hne
  have htwo := two_le_countP (f := fun wk : Worker => wk.job.any (·.refers m p)) hne hv hw
    (Worker.refers_of_hasLoaded hwk') (Worker.refers_of_hasLoaded hwk)
  simp only [Pool.njobs] at hone
  omega

end Jobs

/-! ## What a step does to the jobs of a resource -/

section Step

variable {s s' : Sys} {a : Action} {m : MgrPtr} {p : ResPtr} {w v : Nat} {o : Oracle}

/-- The pools of the two states have the same workers, and no job is new in the second queue. -/
theorem Pool.Loading.of_queue {pool pool' : Pool} (h : pool'.Loading m p)
    (hworkers : pool'.workers = pool.workers) (hqueue : ∀ j ∈ pool'.queue, j ∈ pool.queue) :
    pool.Loading m p := by
  rcases h with ⟨j, hj, href⟩ | ⟨v, wk, hv, hwk⟩
  · exact .inl ⟨j, hqueue j hj, href⟩
  · exact .inr ⟨v, wk, hworkers ▸ hv, hwk⟩

theorem Pool.Loaded.of_workers {pool pool' : Pool} (h : pool'.Loaded m p v)
    (hworkers : pool'.workers = pool.workers) :
    pool.Loaded m p v := by
  obtain ⟨wk, hv, hwk⟩ := h
  exact ⟨wk, hworkers ▸ hv, hwk⟩

/-- A worker changes, and no job is new in the queue. -/
theorem Pool.Loading.of_setWorker {pool : Pool} {queue : List Job} {pipe : Nat} {wk' : Worker}
    (h : ({ pool with queue, pipe }.setWorker w wk').Loading m p)
    (hqueue : ∀ j ∈ queue, j ∈ pool.queue) (hold : wk'.toLoad m p = true → pool.Loading m p) :
    pool.Loading m p := by
  rcases h with ⟨j, hj, href⟩ | ⟨v, wk, hv, hwk⟩
  · exact .inl ⟨j, hqueue j hj, href⟩
  · rcases slot_of_set hv with ⟨-, rfl⟩ | ⟨-, hv⟩
    · exact hold hwk
    · exact .inr ⟨v, wk, hv, hwk⟩

theorem Pool.Loaded.of_setWorker {pool : Pool} {queue : List Job} {pipe : Nat} {wk' : Worker}
    (h : ({ pool with queue, pipe }.setWorker w wk').Loaded m p v)
    (hold : wk'.hasLoaded m p = false) :
    pool.Loaded m p v := by
  obtain ⟨wk, hv, hwk⟩ := h
  rcases slot_of_set hv with ⟨-, rfl⟩ | ⟨-, hv⟩
  · exact absurd hwk (by simp [hold])
  · exact ⟨wk, hv, hwk⟩

theorem poolStep_workers {m' : MgrPtr} {pool pool' : Pool} {pc pc' : Pc}
    (h : poolStep m' pool o pc = some (pool', pc')) : pool'.workers = pool.workers := by
  cases poolStep_cases h <;> rfl

/-- A job comes into the queue with its note. -/
theorem loading_of_step (h : step s a = some s') (hl : s'.pool.Loading m p) :
    s.pool.Loading m p ∨ .enqueued m p ∈ notes s a s' := by
  cases ha : a.client? with
  | some m' =>
    rcases client_step_cases h ha with ⟨d, f, -, -, rfl⟩ | ⟨f, c, rman', pc', -, -, -, -, rfl⟩ |
      ⟨o, c, rfl, hc, ⟨rman', pc', -, rfl⟩ | ⟨pool', pc', hpool, rfl⟩⟩
    · exact .inl hl
    · exact .inl hl
    · exact .inl hl
    · have hworkers := poolStep_workers hpool
      obtain ⟨rman, pc⟩ := c
      cases poolStep_cases hpool with
      | @enqueue q t k hmem =>
        rcases hl with ⟨j, hj, href⟩ | ⟨v, wk, hv, hwk⟩
        · rcases List.mem_append.1 hj with hj | hj
          · exact .inl (.inl ⟨j, hj, href⟩)
          · obtain rfl := List.mem_singleton.1 hj
            obtain ⟨rfl, rfl⟩ : m' = m ∧ q = p := of_decide_eq_true href
            refine .inr ?_
            simp only [notes, hc, Function.update_self, clientNotes, if_pos hmem]
            exact List.mem_singleton_self _
        · exact .inl (.inr ⟨v, wk, hv, hwk⟩)
      | clear => exact .inl (hl.of_queue hworkers fun j hj => (by cases hj))
      | lost | drain | release | quit | join => exact .inl (hl.of_queue hworkers fun j hj => hj)
  | none =>
    cases a with
    | create | call | client => cases ha
    | worker w o =>
      refine .inl ?_
      cases workerStep_cases h with
      | exit | sent | returned | completed =>
        exact hl.of_setWorker (fun j hj => hj) fun hwk => (by cases hwk)
      | @take j queue hw _ hqueue =>
        refine hl.of_setWorker (fun j' hj' => ?_) fun hwk => .inl ⟨j, ?_, hwk⟩
        · rw [hqueue]
          exact List.mem_cons_of_mem _ hj'
        · rw [hqueue]
          exact List.mem_cons_self
      | taken hw => exact hl.of_setWorker (fun j hj => hj) fun hwk => .inr ⟨w, _, hw, hwk⟩

/-- A worker has left `load_func` with its note. -/
theorem loaded_of_step (h : step s a = some s') (hl : s'.pool.Loaded m p v) :
    s.pool.Loaded m p v ∨ ∃ ret, .loadReturned v m p ret ∈ notes s a s' := by
  cases ha : a.client? with
  | some m' =>
    rcases client_step_cases h ha with ⟨d, f, -, -, rfl⟩ | ⟨f, c, rman', pc', -, -, -, -, rfl⟩ |
      ⟨o, c, rfl, hc, ⟨rman', pc', -, rfl⟩ | ⟨pool', pc', hpool, rfl⟩⟩
    · exact .inl hl
    · exact .inl hl
    · exact .inl hl
    · exact .inl (hl.of_workers (poolStep_workers hpool))
  | none =>
    cases a with
    | create | call | client => cases ha
    | worker w o =>
      cases workerStep_cases h with
      | exit | take | sent | taken | completed => exact .inl (hl.of_setWorker rfl)
      | @returned j _ _ _ hw =>
        obtain ⟨wk, hv, hwk⟩ := hl
        rcases slot_of_set hv with ⟨rfl, rfl⟩ | ⟨-, hv⟩
        · obtain ⟨rfl, rfl⟩ : j.rman = m ∧ j.res = p := of_decide_eq_true hwk
          refine .inr ⟨o.ret, ?_⟩
          simp [notes, workerNotes, hw]
        · exact .inl ⟨wk, hv, hwk⟩

/-- The notes of a worker are written down by a worker. -/
theorem worker_of_note {n : Note} (hn : n ∈ notes s a s') (hw : n.worker?.isSome) :
    ∃ w o, a = .worker w o ∧ n ∈ workerNotes s w o := by
  cases a with
  | create => cases hn
  | worker w o => exact ⟨w, o, rfl, hn⟩
  | call m' f =>
    simp only [notes] at hn
    split at hn
    · next c c' _ _ =>
      obtain ⟨rman', pc'⟩ := c'
      cases callNotes_cases hn <;> cases hw
    · cases hn
  | client m' o =>
    simp only [notes] at hn
    split at hn
    · next c c' _ _ =>
      obtain ⟨rman, pc⟩ := c
      obtain ⟨rman', pc'⟩ := c'
      cases clientNotes_cases hn <;> cases hw
    · cases hn

/-- Where `load_func` returns, the worker had the job, and it has it still. -/
theorem step_returned {ret : Int} (h : step s a = some s')
    (hn : .loadReturned w m p ret ∈ notes s a s') :
    s.pool.Loading m p ∧ s'.pool.Loaded m p w ∧ s'.pool.njobs m p = s.pool.njobs m p := by
  obtain ⟨v, o, rfl, hmem⟩ := worker_of_note hn rfl
  cases workerStep_cases h with
  | exit hw hquit => simp [workerNotes, hw, hquit] at hmem
  | take hw hquit => simp [workerNotes, hw, hquit] at hmem
  | sent hw | taken hw => simp [workerNotes, hw] at hmem
  | completed hw hc =>
    simp only [workerNotes, hw, hc] at hmem
    rcases completionNotes_cases hmem with heq | ⟨heq, -⟩ <;> cases heq
  | @returned j _ _ _ hw =>
    have href : j.refers j.rman j.res = true := decide_eq_true ⟨rfl, rfl⟩
    simp only [workerNotes, hw, List.mem_singleton] at hmem
    obtain ⟨rfl, rfl, rfl, -⟩ := Note.loadReturned.inj hmem
    refine ⟨.inr ⟨w, _, hw, href⟩, ⟨.loaded j, ?_, href⟩, njobs_setWorker_same _ hw rfl⟩
    exact List.getElem?_set_self (List.getElem?_eq_some_iff.1 hw).1

theorem step_completed (h : step s a = some s') (hn : .completed w m p ∈ notes s a s') :
    s.pool.Loaded m p w ∧ s'.pool.njobs m p + 1 = s.pool.njobs m p := by
  obtain ⟨v, o, rfl, hmem⟩ := worker_of_note hn rfl
  cases workerStep_cases h with
  | exit hw hquit => simp [workerNotes, hw, hquit] at hmem
  | take hw hquit => simp [workerNotes, hw, hquit] at hmem
  | sent hw | taken hw | returned hw => simp [workerNotes, hw] at hmem
  | @completed j _ _ _ hw hc =>
    have href : j.refers j.rman j.res = true := decide_eq_true ⟨rfl, rfl⟩
    simp only [workerNotes, hw, hc] at hmem
    rcases completionNotes_cases hmem with heq | ⟨heq, -⟩
    · obtain ⟨rfl, rfl, rfl⟩ := Note.completed.inj heq
      refine ⟨⟨_, hw, href⟩, ?_⟩
      simpa [Worker.job, href] using njobs_setWorker (m := j.rman) (p := j.res) s.pool .finishing hw
    · cases heq

end Step

/-! ## The refinement relation -/

/-- The fields of a resource that its life is read from. -/
def Resource.loading (r : Resource) : Bool × Bool × Int := (r.pending, r.donePending, r.result)

/-- What the state says of the life of a resource of `m`: where its job is, whether its `done_func`
call is due or under way, and the result that this call finds. -/
structure LifeAt (pool : Pool) (m : MgrPtr) (p : ResPtr) (c : Client) (l : Life) : Prop where
  waiting : pool.Loading m p → l = .waiting
  loaded : ∀ w, pool.Loaded m p w → ∃ ret, l = .loaded w ret
  ready : ∀ r ∈ c.rman.heap p, r.donePending = true → ∃ ret, l = .ready ret
  called : c.pc.locks p = true → ∃ ret, l = .called ret
  resting : ∀ r ∈ c.rman.heap p, r.pending = false → r.donePending = false →
    c.pc.locks p = false → l = .resting
  result : ∀ r ∈ c.rman.heap p, ∀ ret, l.ret? = some ret → r.result = ret
  enqueues : c.pc.enqueues p = true → l = .resting
  fresh : c.rman.nalloc ≤ p → l = .resting

section Refines

variable {s s' : Sys} {a : Action} {m : MgrPtr} {p q : ResPtr} {c c' : Client}
  {l l' : Life} {o : Oracle} {rman rman₁ rman' : Rman} {pc pc' : Pc}

/-- The next state of the abstract machine, and what the next state of the system says. -/
def Follows (s : Sys) (a : Action) (m : MgrPtr) (p : ResPtr) (s' : Sys) (c' : Client)
    (doneFunc : Bool) (l : Life) : Prop :=
  ∃ l', exec (Life.step doneFunc) l (stages m p (notes s a s')) = some l' ∧ LifeAt s'.pool m p c' l'

/-- A step that is no stage of the resource. -/
theorem LifeAt.pass (hI : LifeAt s.pool m p c l) (h : step s a = some s')
    (hns : ∀ n ∈ notes s a s', n.stage? m p = none)
    (hk : ∀ r' ∈ rman'.heap p, ∃ r ∈ c.rman.heap p, r'.loading = r.loading)
    (hlock : pc'.locks p = c.pc.locks p) (henq : pc'.enqueues p = true → c.pc.enqueues p = true)
    (halloc : c.rman.nalloc ≤ rman'.nalloc) (d : Bool) : Follows s a m p s' ⟨rman', pc'⟩ d l := by
  have hno : ∀ n, n.stage? m p ≠ none → n ∉ notes s a s' := fun n hne hn => hne (hns n hn)
  refine ⟨l, by rw [stages_of_none hns]; rfl, ?_⟩
  constructor
  · intro hl
    rcases loading_of_step h hl with hl | hn
    · exact hI.waiting hl
    · exact absurd hn (hno _ (by simp [Note.stage?]))
  · intro w hl
    rcases loaded_of_step h hl with hl | ⟨ret, hn⟩
    · exact hI.loaded w hl
    · exact absurd hn (hno _ (by simp [Note.stage?]))
  · intro r' hr' hd
    obtain ⟨r, hr, heq⟩ := hk r' hr'
    obtain ⟨-, hdone, -⟩ : r'.pending = r.pending ∧ r'.donePending = r.donePending ∧
        r'.result = r.result := by
      simpa [Resource.loading] using heq
    exact hI.ready r hr (hdone ▸ hd)
  · intro hl
    exact hI.called (hlock ▸ hl)
  · intro r' hr' hpend hdone hl
    obtain ⟨r, hr, heq⟩ := hk r' hr'
    obtain ⟨hp, hd, -⟩ : r'.pending = r.pending ∧ r'.donePending = r.donePending ∧
        r'.result = r.result := by
      simpa [Resource.loading] using heq
    exact hI.resting r hr (hp ▸ hpend) (hd ▸ hdone) (hlock ▸ hl)
  · intro r' hr' ret hret
    obtain ⟨r, hr, heq⟩ := hk r' hr'
    obtain ⟨-, -, hres⟩ : r'.pending = r.pending ∧ r'.donePending = r.donePending ∧
        r'.result = r.result := by
      simpa [Resource.loading] using heq
    exact hres.trans (hI.result r hr ret hret)
  · exact fun h => hI.enqueues (henq h)
  · exact fun hp => hI.fresh (halloc.trans hp)

theorem Pc.locks_of_ne (h : ∀ t i q, pc ≠ .doneCall t i q) : pc.locks p = false := by
  cases pc with
  | doneCall t i q => exact absurd rfl (h t i q)
  | _ => rfl

theorem Pc.enqueues_of_ne (h : ∀ q t k, pc ≠ .reloadEnq q t k) : pc.enqueues p = false := by
  cases pc with
  | reloadEnq q t k => exact absurd rfl (h q t k)
  | _ => rfl

theorem clientNotes_unstaged (hbegin : ∀ t i, pc' ≠ .doneCall t i p)
    (hend : ∀ t i, pc ≠ .doneCall t i p) (henq : ∀ t k, pc ≠ .reloadEnq p t k) :
    ∀ n ∈ clientNotes m o pc pc', n.stage? m p = none := by
  intro n hn
  cases clientNotes_cases hn with
  | @enqueued q t k =>
    refine if_neg ?_
    rintro ⟨-, rfl⟩
    exact henq t k rfl
  | @doneBegan _ _ t i q =>
    refine if_neg ?_
    rintro ⟨-, rfl⟩
    exact hbegin t i rfl
  | @doneReturned t i q =>
    refine if_neg ?_
    rintro ⟨-, rfl⟩
    exact hend t i rfl
  | drained | condemned | cleared => rfl

/-- The resources that a step of the client keeps. -/
theorem localStep_loading (hs : localStep rman o pc = some (rman', pc'))
    (hflag : ∀ q t k, pc' ≠ .reloadEnq q t k) (hbegin : ∀ t i q, pc' ≠ .doneCall t i q) :
    KeepsField Resource.loading rman rman' :=
  localStep_keeps ⟨fun _ _ => rfl, fun _ _ => rfl⟩ hs (.inr hflag) (.inr hbegin)
    (.inl fun _ _ => rfl)

/-- A resource that nothing is under way for is at rest. -/
theorem LifeAt.atRest {pool : Pool} (hzero : pool.njobs m p = 0)
    (hready : ∀ r ∈ c.rman.heap p, r.donePending = false) (hlock : c.pc.locks p = false) :
    LifeAt pool m p c .resting where
  waiting h := absurd h.njobs_pos (by omega)
  loaded w h := absurd h.njobs_pos (by omega)
  ready r hr hd := absurd hd (by simp [hready r hr])
  called h := absurd h (by simp [hlock])
  resting _ _ _ _ _ := rfl
  result _ _ _ h := by cases h
  enqueues _ := rfl
  fresh _ := rfl

/-- The resource after a write to it. -/
theorem mem_of_update {f : Resource → Resource} {r r' : Resource}
    (hup : rman.update p f = some rman') (hr : rman.heap p = some r) (hr' : r' ∈ rman'.heap p) :
    r' = f r := by
  obtain ⟨r₁, hr₁, rfl⟩ := heap_of_update hup
  obtain rfl := Option.some.inj (hr.symm.trans hr₁)
  rcases update_eq_some.1 hr' with ⟨-, heq⟩ | ⟨hne, -⟩
  · exact (Option.some.inj heq).symm
  · exact absurd rfl hne

/-- The other resources after a write. -/
theorem mem_of_update_ne {f : Resource → Resource} {r' : Resource}
    (hup : rman.update q f = some rman') (hne : p ≠ q) (hr' : r' ∈ rman'.heap p) :
    r' ∈ rman.heap p := by
  obtain ⟨r₁, -, rfl⟩ := heap_of_update hup
  rcases update_eq_some.1 hr' with ⟨heq, -⟩ | ⟨-, hr'⟩
  · exact absurd heq hne
  · exact hr'

/-- `done_func` is called for the resource `q`. -/
theorem LifeAt.begins {t i : Nat} {r : Resource} (hI : LifeAt s.pool m p ⟨rman, .doneScan t i⟩ l)
    (he : Exclusive ⟨rman, .doneScan t i⟩ (s.pool.njobs m)) (h : step s (.client m o) = some s')
    (hnotes : notes s (.client m o) s' = [.doneBegan m q]) (hpool : s'.pool = s.pool)
    (hr : rman.heap q = some r) (hdone : r.donePending = true)
    (hup : (rman.update q fun r => { r with donePending := false }) = some rman') (d : Bool) :
    Follows s (.client m o) m p s' ⟨rman', .doneCall t i q⟩ d l := by
  have halloc : rman'.nalloc = rman.nalloc := by
    obtain ⟨r₁, -, rfl⟩ := heap_of_update hup
    rfl
  by_cases hpq : p = q
  · subst hpq
    obtain ⟨ret, rfl⟩ := hI.ready r hr hdone
    have hzero : s.pool.njobs m p = 0 := Nat.eq_zero_of_add_eq_zero_right (he.done p r hr hdone)
    refine ⟨.called ret, by simp [hnotes, stages, Note.stage?, exec, Life.step], ?_⟩
    rw [hpool]
    constructor
    · exact fun hl => absurd hl.njobs_pos (by omega)
    · exact fun w hl => absurd hl.njobs_pos (by omega)
    · intro r' hr' hd
      rw [mem_of_update hup hr hr'] at hd
      cases hd
    · exact fun _ => ⟨ret, rfl⟩
    · intro r' _ _ _ hl
      exact absurd hl (by simp [Pc.locks])
    · intro r' hr' ret' hret
      obtain rfl := Option.some.inj hret
      rw [mem_of_update hup hr hr']
      exact hI.result r hr ret rfl
    · exact fun h => (by cases h)
    · intro hfresh
      have hrest := hI.fresh (halloc ▸ hfresh)
      cases hrest
  · refine hI.pass h ?_ (fun r' hr' => ⟨r', mem_of_update_ne hup hpq hr', rfl⟩) ?_
      (fun h => by cases h) halloc.ge d
    · intro n hn
      rw [hnotes, List.mem_singleton] at hn
      rw [hn]
      exact if_neg fun heq => hpq heq.2.symm
    · exact decide_eq_false hpq

/-- `done_func` has returned. -/
theorem LifeAt.ends {t i : Nat} (hI : LifeAt s.pool m p ⟨rman, .doneCall t i q⟩ l)
    (he : Exclusive ⟨rman, .doneCall t i q⟩ (s.pool.njobs m)) (h : step s (.client m o) = some s')
    (hnotes : notes s (.client m o) s' = clientNotes m o (.doneCall t i q) pc')
    (hpool : s'.pool = s.pool) (hs : localStep rman o (.doneCall t i q) = some (rman', pc'))
    (d : Bool) :
    Follows s (.client m o) m p s' ⟨rman', pc'⟩ d l := by
  have hnext : (∀ t i q, pc' ≠ .doneCall t i q) ∧ ∀ q t k, pc' ≠ .reloadEnq q t k := by
    cases localStep_cases hs with
    | doneFail => exact ⟨fun t i q heq => (by cases heq), fun q t k heq => (by cases heq)⟩
    | doneOk _ _ hpc =>
      rcases hpc with rfl | rfl
      · exact ⟨fun t i q heq => (by cases heq), fun q t k heq => (by cases heq)⟩
      · exact ⟨fun t i q heq => (by cases heq), fun q t k heq => (by cases heq)⟩
  have hk := localStep_loading hs hnext.2 hnext.1
  by_cases hpq : p = q
  · subst hpq
    obtain ⟨ret, rfl⟩ := hI.called (decide_eq_true rfl)
    have hstages : stages m p (clientNotes m o (.doneCall t i p) pc') = [.ended] := by
      cases localStep_cases hs with
      | doneFail =>
        simp only [clientNotes, stages]
        rw [List.filterMap_cons_none (by rfl)]
        simp [Note.stage?]
      | doneOk _ _ hpc => rcases hpc with rfl | rfl <;> simp [clientNotes, stages, Note.stage?]
    have hone := he.one p
    rw [inFlight, Pc.locks, decide_eq_true rfl, Bool.toNat_true] at hone
    refine ⟨.resting, by rw [hnotes, hstages]; rfl, .atRest ?_ ?_ (Pc.locks_of_ne hnext.1)⟩
    · rw [hpool]
      omega
    · intro r' hr'
      obtain ⟨r, hr, heq⟩ := hk p r' hr'
      have hdone : r'.donePending = r.donePending := congrArg (·.2.1) heq
      rw [hdone]
      by_contra hready
      obtain ⟨ret', hl⟩ := hI.ready r hr (by simpa using hready)
      cases hl
  · refine hI.pass h ?_ (hk p) ?_ ?_ (localStep_fields hs).2.ge d
    · rw [hnotes]
      refine clientNotes_unstaged (fun t' i' => hnext.1 t' i' p) (fun t' i' heq => ?_)
        fun t' k heq => (by cases heq)
      exact hpq (Pc.doneCall.inj heq).2.2.symm
    · rw [Pc.locks_of_ne hnext.1]
      exact (decide_eq_false hpq).symm
    · rw [Pc.enqueues_of_ne hnext.2]
      exact fun h => (by cases h)

/-- `resman_reload` finds the resource `q` at rest. -/
theorem LifeAt.reloads {t : TaskPtr} {k : Cont} (hI : LifeAt s.pool m p ⟨rman, .reloadFlag q t k⟩ l)
    (hR : ReloadsIdle rman (.reloadFlag q t k)) (h : step s (.client m o) = some s')
    (hnotes : notes s (.client m o) s' = []) (hpool : s'.pool = s.pool)
    (hup : (rman.update q fun r => { r with pending := true }) = some rman') (d : Bool) :
    Follows s (.client m o) m p s' ⟨rman', .reloadEnq q t k⟩ d l := by
  obtain ⟨r, hr, -⟩ := heap_of_update hup
  by_cases hpq : p = q
  · subst hpq
    obtain ⟨hpend, hdone⟩ := hR r hr
    obtain rfl := hI.resting r hr hpend hdone rfl
    refine ⟨.resting, by rw [hnotes]; rfl, ?_⟩
    rw [hpool]
    constructor
    · exact hI.waiting
    · exact hI.loaded
    · intro r' hr' hd
      rw [mem_of_update hup hr hr', hdone] at hd
      cases hd
    · exact fun h => (by cases h)
    · exact fun _ _ _ _ _ => rfl
    · exact fun _ _ _ h => (by cases h)
    · exact fun _ => rfl
    · exact fun _ => rfl
  · have halloc : rman'.nalloc = rman.nalloc := by
      obtain ⟨r₁, -, rfl⟩ := heap_of_update hup
      rfl
    refine hI.pass h ?_ (fun r' hr' => ⟨r', mem_of_update_ne hup hpq hr', rfl⟩) ?_ ?_ halloc.ge d
    · rw [hnotes]
      exact fun n hn => (by cases hn)
    · rfl
    · exact fun h => absurd (of_decide_eq_true h) hpq

/-- **A step of the client** is the stage that the abstract machine allows, or none. -/
theorem LifeAt.client (hI : LifeAt s.pool m p ⟨rman, pc⟩ l)
    (he : Exclusive ⟨rman, pc⟩ (s.pool.njobs m)) (hR : ReloadsIdle rman pc)
    (h : step s (.client m o) = some s')
    (hnotes : notes s (.client m o) s' = clientNotes m o pc pc') (hpool : s'.pool = s.pool)
    (hs : localStep rman o pc = some (rman', pc')) (d : Bool) :
    Follows s (.client m o) m p s' ⟨rman', pc'⟩ d l := by
  by_cases hend : ∃ t i q, pc = .doneCall t i q
  · obtain ⟨t, i, q, rfl⟩ := hend
    exact hI.ends he h hnotes hpool hs d
  by_cases hbegin : ∃ t i q, pc' = .doneCall t i q
  · obtain ⟨t, i, q, hpc⟩ := hbegin
    cases localStep_cases hs with
    | doneTake _ hr hdone hup => exact hI.begins he h hnotes hpool hr hdone hup d
    | doneOk _ _ heq => rcases heq with rfl | rfl <;> cases hpc
    | @rmFree _ _ _ k => cases k <;> cases hpc
    | _ => cases hpc
  by_cases hflag : ∃ q t k, pc' = .reloadEnq q t k
  · obtain ⟨q, t, k, hpc⟩ := hflag
    cases localStep_cases hs with
    | reloadFlag hup => exact hI.reloads hR h hnotes hpool hup d
    | doneOk _ _ heq => rcases heq with rfl | rfl <;> cases hpc
    | @rmFree _ _ _ k => cases k <;> cases hpc
    | _ => cases hpc
  have hbegin' : ∀ t i q, pc' ≠ .doneCall t i q := fun t i q heq => hbegin ⟨t, i, q, heq⟩
  have hend' : ∀ t i q, pc ≠ .doneCall t i q := fun t i q heq => hend ⟨t, i, q, heq⟩
  have hflag' : ∀ q t k, pc' ≠ .reloadEnq q t k := fun q t k heq => hflag ⟨q, t, k, heq⟩
  have henq : ∀ t k, pc ≠ .reloadEnq p t k := by
    rintro t k rfl
    cases hs
  refine hI.pass h ?_ (localStep_loading hs hflag' hbegin' p) ?_ ?_ (localStep_fields hs).2.ge d
  · rw [hnotes]
    exact clientNotes_unstaged (fun t i => hbegin' t i p) (fun t i => hend' t i p) henq
  · rw [Pc.locks_of_ne hbegin', Pc.locks_of_ne hend']
  · rw [Pc.enqueues_of_ne hflag']
    exact fun h => (by cases h)

/-- The only job of the resource is enqueued. -/
theorem LifeAt.enqueued {t : TaskPtr} {k : Cont} (hI : LifeAt s.pool m p ⟨rman, .reloadEnq p t k⟩ l)
    (he : Exclusive ⟨rman, .reloadEnq p t k⟩ (s.pool.njobs m)) (h : step s (.client m o) = some s')
    (hnotes : notes s (.client m o) s' = [.enqueued m p]) (d : Bool) :
    Follows s (.client m o) m p s' ⟨rman, k.resume⟩ d l := by
  obtain rfl := hI.enqueues (decide_eq_true rfl)
  have hone := he.one p
  rw [inFlight, Pc.enqueues, decide_eq_true rfl, Bool.toNat_true] at hone
  have hin : 1 ≤ inFlight (.reloadEnq p t k) (s.pool.njobs m) p := by
    rw [inFlight, Pc.enqueues, decide_eq_true rfl]
    exact Nat.le_add_left _ _
  refine ⟨.waiting, by rw [hnotes]; simp [stages, Note.stage?, exec, Life.step], ?_⟩
  constructor
  · exact fun _ => rfl
  · intro w hl
    rcases loaded_of_step h hl with hl | ⟨ret, hn⟩
    · have hpos := hl.njobs_pos
      omega
    · rw [hnotes] at hn
      cases List.mem_singleton.1 hn
  · intro r hr hd
    have hzero := he.done p r hr hd
    dsimp only at hzero
    omega
  · intro hl
    rw [k.locks_resume] at hl
    cases hl
  · intro r hr hpend _ _
    have hle := he.pend p r hr
    rw [hpend] at hle
    exact absurd (hin.trans hle) (by decide)
  · exact fun _ _ _ h => (by cases h)
  · intro henq
    rw [k.enqueues_resume] at henq
    cases henq
  · intro hfresh
    have hzero := (he.fresh p hfresh).2
    dsimp only at hzero
    omega

/-- A step of the client on the pool. -/
theorem LifeAt.pool {pool' : Pool} (hI : LifeAt s.pool m p ⟨rman, pc⟩ l)
    (he : Exclusive ⟨rman, pc⟩ (s.pool.njobs m)) (h : step s (.client m o) = some s')
    (hnotes : notes s (.client m o) s' = clientNotes m o pc pc')
    (hs : poolStep m s.pool o pc = some (pool', pc')) (d : Bool) :
    Follows s (.client m o) m p s' ⟨rman, pc'⟩ d l := by
  have hsame : ∀ r ∈ rman.heap p, ∃ r' ∈ rman.heap p, r.loading = r'.loading :=
    fun r hr => ⟨r, hr, rfl⟩
  cases poolStep_cases hs with
  | @enqueue q t k hmem =>
    rw [clientNotes, if_pos hmem] at hnotes
    by_cases hpq : p = q
    · subst hpq
      exact hI.enqueued he h hnotes d
    · refine hI.pass h ?_ hsame ?_ ?_ (Nat.le_refl _) d
      · intro n hn
        rw [hnotes, List.mem_singleton] at hn
        rw [hn]
        exact if_neg fun heq => hpq heq.2.symm
      · exact k.locks_resume
      · rw [k.enqueues_resume]
        exact fun h => (by cases h)
  | @lost q t k hmem =>
    rw [clientNotes, if_neg (by simp [hmem])] at hnotes
    refine hI.pass h ?_ hsame ?_ ?_ (Nat.le_refl _) d
    · rw [hnotes]
      exact fun n hn => (by cases hn)
    · exact k.locks_resume
    · rw [k.enqueues_resume]
      exact fun h => (by cases h)
  | release hpc =>
    rcases hpc with rfl | rfl
    all_goals
      refine hI.pass h ?_ hsame ?_ (fun h => by cases h) (Nat.le_refl _) d
      · rw [hnotes]
        exact fun n hn => (by cases hn)
      · rfl
  | drain | clear | quit | join =>
    refine hI.pass h ?_ hsame ?_ (fun h => by cases h) (Nat.le_refl _) d
    · rw [hnotes]
      exact clientNotes_unstaged (fun t i heq => by cases heq) (fun t i heq => by cases heq)
        fun t k heq => by cases heq
    · rfl

/-- `load_func` returns in the worker that has the only job of the resource. -/
theorem LifeAt.returns {w : Nat} (hI : LifeAt s.pool m p ⟨rman, pc⟩ l)
    (he : Exclusive ⟨rman, pc⟩ (s.pool.njobs m)) (h : step s (.worker w o) = some s')
    (hnotes : notes s (.worker w o) s' = [.loadReturned w m q o.ret])
    (hup : (rman.update q fun r => { r with result := o.ret }) = some rman') (d : Bool) :
    Follows s (.worker w o) m p s' ⟨rman', pc⟩ d l := by
  have halloc : rman'.nalloc = rman.nalloc := by
    obtain ⟨r₁, -, rfl⟩ := heap_of_update hup
    rfl
  by_cases hpq : p = q
  · subst hpq
    obtain ⟨r, hr, -⟩ := heap_of_update hup
    obtain ⟨hloading, hloaded, hnjobs⟩ :=
      step_returned h (by rw [hnotes]; exact List.mem_singleton_self _)
    obtain rfl := hI.waiting hloading
    have hpos := hloading.njobs_pos
    have hone : s.pool.njobs m p + (pc.enqueues p).toNat + (pc.locks p).toNat ≤ 1 := he.one p
    have hone' : s'.pool.njobs m p ≤ 1 := by omega
    refine ⟨.loaded w o.ret, by rw [hnotes]; simp [stages, Note.stage?, exec, Life.step], ?_⟩
    constructor
    · exact fun hl => absurd hl (hloaded.not_loading hone')
    · intro v hl
      obtain rfl := hloaded.unique hl hone'
      exact ⟨o.ret, rfl⟩
    · intro r' hr' hd
      rw [mem_of_update hup hr hr'] at hd
      have hzero : s.pool.njobs m p + (pc.enqueues p).toNat + (pc.locks p).toNat = 0 :=
        he.done p r hr hd
      omega
    · intro hl
      rw [show pc.locks p = true from hl, Bool.toNat_true] at hone
      omega
    · intro r' hr' hpend _ _
      rw [mem_of_update hup hr hr'] at hpend
      have hle : s.pool.njobs m p + (pc.enqueues p).toNat ≤ r.pending.toNat := he.pend p r hr
      rw [show r.pending = false from hpend, Bool.toNat_false] at hle
      omega
    · intro r' hr' ret hret
      obtain rfl := Option.some.inj hret
      rw [mem_of_update hup hr hr']
    · intro henq
      rw [show pc.enqueues p = true from henq, Bool.toNat_true] at hone
      omega
    · intro hfresh
      have hzero : s.pool.njobs m p + (pc.enqueues p).toNat + (pc.locks p).toNat = 0 :=
        (he.fresh p (halloc ▸ hfresh)).2
      omega
  · refine hI.pass h ?_ (fun r' hr' => ⟨r', mem_of_update_ne hup hpq hr', rfl⟩) ?_ ?_ halloc.ge d
    · intro n hn
      rw [hnotes, List.mem_singleton] at hn
      rw [hn]
      exact if_neg fun heq => hpq heq.2.symm
    · rfl
    · exact fun henq => henq

/-- The worker leaves `work_func`. -/
theorem LifeAt.completes {w : Nat} (hI : LifeAt s.pool m p ⟨rman, pc⟩ l)
    (he : Exclusive ⟨rman, pc⟩ (s.pool.njobs m)) (h : step s (.worker w o) = some s')
    (hnotes : notes s (.worker w o) s' = completionNotes w m rman q) (hlock : pc.locks q = false)
    (hdone : workDone rman q o = some rman') :
    Follows s (.worker w o) m p s' ⟨rman', pc⟩ rman.doneFunc l := by
  obtain ⟨rman₁, hup, hq, -⟩ := workDone_spec hdone
  have halloc : rman'.nalloc = rman.nalloc := by
    rw [hq.nalloc]
    obtain ⟨r₁, -, rfl⟩ := heap_of_update hup
    rfl
  have hresult : KeepsField Resource.result rman rman' :=
    workDone_keeps (fun _ _ => rfl) (fun _ _ => rfl) (fun _ _ => rfl) (fun _ _ => rfl) hdone
  by_cases hpq : p = q
  · subst hpq
    obtain ⟨r, hr, -⟩ := heap_of_update hup
    have hmem : .completed w m p ∈ notes s (.worker w o) s' := by
      rw [hnotes, completionNotes]
      split
      · simp
      · simp
    have hstages : stages m p (completionNotes w m rman p) = [.completed w] := by
      unfold completionNotes stages
      split
      · rw [List.filterMap_cons_none (by rfl)]
        simp [Note.stage?]
      · simp [Note.stage?]
    obtain ⟨hloaded, hnjobs⟩ := step_completed h hmem
    obtain ⟨ret, rfl⟩ := hI.loaded w hloaded
    have hone : s.pool.njobs m p + (pc.enqueues p).toNat + (pc.locks p).toNat ≤ 1 := he.one p
    have hzero : s'.pool.njobs m p = 0 := by omega
    have hflags : ∀ r' ∈ rman'.heap p, r'.pending = false ∧
        r'.donePending = (r.donePending || rman.doneFunc) := by
      intro r' hr'
      obtain ⟨r₁, hr₁, hpend, hd, -⟩ := hq.flags hr'
      rw [hpend, hd, mem_of_update hup hr hr₁]
      exact ⟨rfl, rfl⟩
    have hnot : r.donePending = false := by
      by_contra hready
      obtain ⟨ret', hl⟩ := hI.ready r hr (by simpa using hready)
      cases hl
    cases hd : rman.doneFunc with
    | false =>
      refine ⟨.resting, by rw [hnotes, hstages]; simp [exec, Life.step], .atRest hzero ?_ hlock⟩
      intro r' hr'
      rw [(hflags r' hr').2, hnot, hd]
      rfl
    | true =>
      refine ⟨.ready ret, by rw [hnotes, hstages]; simp [exec, Life.step], ?_⟩
      constructor
      · exact fun hl => absurd hl.njobs_pos (by omega)
      · exact fun v hl => absurd hl.njobs_pos (by omega)
      · exact fun _ _ _ => ⟨ret, rfl⟩
      · exact fun hl => absurd (hlock.symm.trans hl) (by simp)
      · intro r' hr' _ hdone' _
        rw [(hflags r' hr').2, hd, Bool.or_true] at hdone'
        cases hdone'
      · intro r' hr' ret' hret
        obtain rfl := Option.some.inj hret
        obtain ⟨r₁, hr₁, heq⟩ := hresult p r' hr'
        exact heq.trans (hI.result r₁ hr₁ ret rfl)
      · intro henq
        rw [show pc.enqueues p = true from henq, Bool.toNat_true] at hone
        omega
      · intro hfresh
        have hnone := (he.fresh p (halloc ▸ hfresh)).1
        exact absurd (hr.symm.trans hnone) (by simp)
  · refine hI.pass h ?_ (fun r' hr' => ?_) ?_ ?_ halloc.ge _
    · intro n hn
      rw [hnotes] at hn
      rcases completionNotes_cases hn with rfl | ⟨rfl, -⟩
      · exact if_neg fun heq => hpq heq.2.symm
      · rfl
    · obtain ⟨r₁, hr₁, hpend, hd, -⟩ := hq.flags hr'
      have hr := mem_of_update_ne hup hpq hr₁
      obtain ⟨r₂, hr₂, heq⟩ := hresult p r' hr'
      obtain rfl := Option.some.inj (hr.symm.trans hr₂)
      exact ⟨r₁, hr, by simp [Resource.loading, hpend, hd, heq]⟩
    · rfl
    · exact fun henq => henq

/-- A call begins; it adds a resource that rests. -/
theorem LifeAt.call {f : Call} (hI : LifeAt s.pool m p ⟨rman, .idle⟩ l)
    (he : Exclusive ⟨rman, .idle⟩ (s.pool.njobs m)) (h : step s (.call m f) = some s')
    (hnotes : notes s (.call m f) s' = callNotes m rman f pc') (hpool : s'.pool = s.pool)
    (hs : callStep rman f = some (rman', pc')) (d : Bool) :
    Follows s (.call m f) m p s' ⟨rman', pc'⟩ d l := by
  have hunstaged : ∀ n ∈ notes s (.call m f) s', n.stage? m p = none := by
    intro n hn
    rw [hnotes] at hn
    cases callNotes_cases hn <;> rfl
  have hquiet : ∀ pc' : Pc, pc'.locks p = false → pc'.enqueues p = false →
      rman.nalloc ≤ rman'.nalloc →
      (∀ r' ∈ rman'.heap p, ∃ r ∈ rman.heap p, r'.loading = r.loading) →
      Follows s (.call m f) m p s' ⟨rman', pc'⟩ d l := by
    intro pc' hl henq halloc hk
    refine hI.pass h hunstaged hk hl ?_ halloc d
    intro h'
    exact absurd (henq.symm.trans h') (by simp)
  rcases callStep_keeps (g := Resource.loading) hs fun _ _ => rfl with
    hk | ⟨fname, data, mem, rfl, -, rfl, rfl⟩
  · have halloc : rman.nalloc ≤ rman'.nalloc := by
      cases callStep_cases hs with
      | setopt | stay | poll | destroy => exact Nat.le_refl _
      | added => exact Nat.le_succ _
      | remove _ hup =>
        obtain ⟨r₁, -, rfl⟩ := heap_of_update hup
        exact Nat.le_refl _
    have hpc : pc'.locks p = false ∧ pc'.enqueues p = false := by
      cases callStep_cases hs with
      | setopt | stay | poll | destroy | added | remove => exact ⟨rfl, rfl⟩
    exact hquiet pc' hpc.1 hpc.2 halloc (hk p)
  · by_cases hp : p = rman.nalloc
    · obtain rfl := hI.fresh hp.ge
      refine ⟨.resting, by rw [stages_of_none hunstaged]; rfl, .atRest ?_ ?_ rfl⟩
      · rw [hpool]
        have hzero := (he.fresh p hp.ge).2
        simp only [inFlight] at hzero
        omega
      · intro r' hr'
        rcases mem_heap_append.1 hr' with ⟨-, rfl⟩ | ⟨hne, -⟩
        · rfl
        · exact absurd hp hne
    · refine hquiet _ rfl rfl (Nat.le_succ _) fun r' hr' => ?_
      rcases mem_heap_append.1 hr' with ⟨heq, -⟩ | ⟨-, hr⟩
      · exact absurd heq hp
      · exact ⟨r', hr, rfl⟩

/-- A step of someone else. -/
theorem LifeAt.other (hI : LifeAt s.pool m p c l) (h : step s a = some s')
    (hns : ∀ n ∈ notes s a s', n.rman ≠ some m) (d : Bool) : Follows s a m p s' c d l :=
  hI.pass h (fun n hn => stage?_of_rman (hns n hn)) (fun r hr => ⟨r, hr, rfl⟩) rfl
    (fun henq => henq) (Nat.le_refl _) d

/-- **Every step of the system follows the abstract machine**, as long as
`resman_reload` finds resources at rest. -/
theorem LifeAt.step (hI : LifeAt s.pool m p c l) (he : Exclusive c (s.pool.njobs m))
    (hR : ∀ o, a = .client m o → ReloadsIdle c.rman c.pc) (h : step s a = some s')
    (hc : s.clients m = some c) :
    ∃ c', s'.clients m = some c' ∧ Follows s a m p s' c' c.rman.doneFunc l := by
  cases ha : a.client? with
  | some m' =>
    by_cases hm : m' = m
    · subst hm
      rcases client_step_cases h ha with
        ⟨d, f, -, hnone, -⟩ | ⟨f, c₁, rman', pc', rfl, hc₁, hpc, hcall, rfl⟩ |
        ⟨o, c₁, rfl, hc₁, ⟨rman', pc', hlocal, rfl⟩ | ⟨pool', pc', hpool, rfl⟩⟩
      · exact absurd (hnone.symm.trans hc) (by simp)
      all_goals
        obtain rfl : c₁ = c := Option.some.inj (hc₁.symm.trans hc)
        obtain ⟨rman, pc⟩ := c₁
        refine ⟨_, Function.update_self _ _ _, ?_⟩
      · obtain rfl : pc = .idle := hpc
        refine hI.call he h ?_ rfl hcall _
        simp only [notes, hc, Function.update_self]
      · refine hI.client he (hR o rfl) h ?_ rfl hlocal _
        simp only [notes, hc, Function.update_self]
      · refine hI.pool he h ?_ hpool _
        simp only [notes, hc, Function.update_self]
    · exact ⟨c, (step_other h ha hm).1.trans hc, hI.other h (notes_other h ha hm) _⟩
  | none =>
    cases a with
    | create | call | client => cases ha
    | worker w o =>
      rcases workerStep_notes h with ⟨hcl, hns⟩ | ⟨j, cj, cj', hcj, hcl, hv, hns⟩
      · refine ⟨c, hcl ▸ hc, hI.other h (fun n hn => ?_) _⟩
        rw [hns n hn]
        exact (Option.some_ne_none m).symm
      · by_cases hm : j.rman = m
        · subst hm
          obtain rfl : cj = c := Option.some.inj (hcj.symm.trans hc)
          refine ⟨cj', by rw [hcl, Function.update_self], ?_⟩
          generalize hnotes : workerNotes s w o = ns at hv
          cases hv with
          | frame _ hne =>
            refine hI.other h (fun n hn => ?_) _
            exact hne n (hnotes ▸ hn)
          | @taken _ _ rman pc t =>
            have hsame : ∀ r' ∈ (freeTask rman t).heap p, ∃ r ∈ rman.heap p,
                r'.loading = r.loading :=
              fun r hr => ⟨r, hr, rfl⟩
            refine hI.pass h (fun n hn => ?_) hsame rfl (fun henq => henq) (Nat.le_refl _) _
            rw [show notes s (.worker w o) s' = [] from hnotes] at hn
            cases hn
          | returned hup => exact hI.returns he h hnotes hup _
          | completed hlock hdone => exact hI.completes he h hnotes hlock hdone
        · refine ⟨c, by rw [hcl, Function.update_of_ne (Ne.symm hm), hc],
            hI.other h (fun n hn => ?_) _⟩
          rw [hns n hn]
          exact fun heq => hm (Option.some.inj heq)

end Refines

/-! ## Runs -/

section Runs

variable {numThreads : Nat} {as : List Action} {s : Sys} {es : List Note} {m : MgrPtr} {c : Client}

/-- A new manager has resources that rest. -/
theorem LifeAt.init {pool : Pool} (d f : Bool) (p : ResPtr) (hzero : pool.njobs m p = 0) :
    LifeAt pool m p ⟨.init d f, .idle⟩ .resting := .atRest hzero (fun _ hr => by cases hr) rfl

/-- What the induction over a run carries: every resource follows its life, and a manager that does
not exist is not noted. -/
theorem lives_of_run (hR : Along step (OnClient ReloadsIdle) (.initial numThreads) as)
    (h : exec trace (.initial numThreads, []) as = some (s, es)) :
    (∀ m c p, s.clients m = some c →
      ∃ l, exec (Life.step c.rman.doneFunc) .resting (stages m p es) = some l ∧
        LifeAt s.pool m p c l) ∧
      ∀ m, s.clients m = none → ∀ n ∈ es, n.rman ≠ some m := by
  induction as using List.reverseRecOn generalizing s es with
  | nil =>
    obtain ⟨rfl, rfl⟩ := Prod.mk.inj (Option.some.inj h)
    exact ⟨fun m c p hc => (by cases hc), fun m _ n hn => (by cases hn)⟩
  | append_singleton as a ih =>
    obtain ⟨⟨s₀, es₀⟩, h₀, hlast⟩ := exec_snoc.1 h
    obtain ⟨hstep, rfl⟩ := record_eq_some.1 hlast
    have hexec := exec_record h₀
    obtain ⟨hR₀, hRa⟩ := (along_snoc hexec).1 hR
    obtain ⟨hlives, hunnoted⟩ := ih hR₀ h₀
    obtain ⟨hexcl, hnojobs⟩ := view_invariant (I := Exclusive) (fun d f n => Exclusive.init d f)
      (fun m a c n c' n' hI hR hv => hI.step hR hv) hR₀ hexec
    constructor
    · intro m c' p hc'
      cases hc : s₀.clients m with
      | none =>
        obtain ⟨hns, hnew⟩ := step_notes_absent hstep hc
        obtain ⟨d, f, rfl⟩ := hnew c' hc'
        refine ⟨.resting, ?_, .init d f p ((step_absent hstep hc (hnojobs m hc)).1 p)⟩
        rw [stages_of_none fun n hn => stage?_of_rman ?_]
        · rfl
        · rcases List.mem_append.1 hn with hn | hn
          · exact hns n hn
          · exact hunnoted m hc n hn
      | some c =>
        obtain ⟨l, hl, hlife⟩ := hlives m c p hc
        have hidle : ∀ o, a = .client m o → ReloadsIdle c.rman c.pc := by
          rintro o rfl
          exact hRa c hc
        obtain ⟨c₁, hc₁, l', hl', hlife'⟩ := hlife.step (hexcl m c hc) hidle hstep hc
        obtain rfl := Option.some.inj (hc₁.symm.trans hc')
        obtain ⟨c₂, hc₂, hv⟩ := step_notes hstep hc
        obtain rfl := Option.some.inj (hc₂.symm.trans hc')
        refine ⟨l', ?_, hlife'⟩
        rw [stages_append, exec_append, hv.fields.1, hl]
        exact hl'
    · intro m hc' n hn
      cases hc : s₀.clients m with
      | none =>
        rcases List.mem_append.1 hn with hn | hn
        · exact (step_notes_absent hstep hc).1 n hn
        · exact hunnoted m hc n hn
      | some c =>
        obtain ⟨c₁, hc₁, -⟩ := step_notes hstep hc
        exact absurd (hc₁.symm.trans hc') (by simp)

/-- **The manager refines the life of its resources**: in every run of any number of managers and
workers in which `resman_reload` finds the flags of the resource clear, the stages that the history
has of a resource are a path of `Life` that ends where the state says. -/
theorem life_of_run (hR : Along step (OnClient ReloadsIdle) (.initial numThreads) as)
    (h : exec trace (.initial numThreads, []) as = some (s, es)) (hc : s.clients m = some c)
    (p : ResPtr) :
    ∃ l, exec (Life.step c.rman.doneFunc) .resting (stages m p es) = some l ∧
      LifeAt s.pool m p c l :=
  (lives_of_run hR h).1 m c p hc

end Runs

/-- The file is reloaded with the result 7, which `done_func` is called for. -/
def reloadedOnce : List Action :=
  modifiedOnce ++ workerSteps 0 { ret := 7 } 3 ++ .call 0 .poll :: clientSteps 0 { now := 300 } 7

theorem life_of_run_reloadedOnce :
    ∃ x, exec trace (.initial 2, []) reloadedOnce = some x ∧
      stages 0 0 x.2 = [.enqueued, .returned 0 0, .completed 0, .began, .ended, .enqueued,
        .returned 0 7, .completed 0, .began] ∧
      ∃ c, x.1.clients 0 = some c ∧
        ∃ l, exec (Life.step c.rman.doneFunc) .resting (stages 0 0 x.2) = some l ∧
          LifeAt x.1.pool 0 0 c l := by
  have hrun : ((exec trace (.initial 2, []) reloadedOnce).any fun x => (x.1.clients 0).isSome ∧
      stages 0 0 x.2 = [.enqueued, .returned 0 0, .completed 0, .began, .ended, .enqueued,
        .returned 0 7, .completed 0, .began]) = true := by decide +kernel
  obtain ⟨x, hx, hlists⟩ := (Option.any_eq_true _ _).1 hrun
  obtain ⟨hsome, hstages⟩ := of_decide_eq_true hlists
  obtain ⟨c, hc⟩ := Option.isSome_iff_exists.1 hsome
  exact ⟨x, hx, hstages, c, hc, life_of_run (by decide +kernel) hx hc 0⟩

end Resman.Manager
