import Resman.Manager.Steps

/-!
# The system from one manager

The manager `m` sees of the system its own client, and for each of its resources the number of jobs
that refer to it, queued or in a worker (`njobs`). `ViewStep` lists what one action of the system
can do to that view, `step_view` says that these are all the cases, and `view_invariant` is the
invariant rule for one manager that follows.
-/

namespace Resman.Manager

open Lib

def Job.refers (m : MgrPtr) (p : ResPtr) (j : Job) : Bool := j.rman = m ∧ j.res = p

/-- The number of jobs that refer to a resource, queued or executed by a worker. -/
def Pool.njobs (pool : Pool) (m : MgrPtr) (p : ResPtr) : Nat :=
  pool.queue.countP (·.refers m p) + pool.workers.countP fun wk => wk.job.any (·.refers m p)

/-- The manager whose client acts. -/
def Action.client? : Action → Option MgrPtr
  | create m _ _ | call m _ | client m _ => some m
  | worker _ _ => none

/-- The position is past the loop of `resman_destroy`. -/
def Pc.released : Pc → Bool
  | destroyRelease | poolClear | poolQuit | poolJoin | dead => true
  | _ => false

/-- The client is in `resman_destroy`, or has left it. -/
def Pc.destroying : Pc → Bool
  | destroyScan _ | destroyCall _ _ | destroyFree _ _ => true
  | pc => pc.released

/-- What an action does to the client of `m` and to the numbers of its jobs. -/
inductive ViewStep (m : MgrPtr) :
    Action → Client → (ResPtr → Nat) → Client → (ResPtr → Nat) → Prop where
  /-- Someone else acts, and jobs of `m` may be discarded. -/
  | frame {a : Action} {c : Client} {n n' : ResPtr → Nat} (ha : a.client? ≠ some m)
      (hn : ∀ p, n' p ≤ n p) : ViewStep m a c n c n'
  | call {f : Call} {rman rman' : Rman} {pc' : Pc} {n : ResPtr → Nat}
      (h : callStep rman f = some (rman', pc')) :
      ViewStep m (.call m f) ⟨rman, .idle⟩ n ⟨rman', pc'⟩ n
  | client {o : Oracle} {rman rman' : Rman} {pc pc' : Pc} {n : ResPtr → Nat}
      (h : localStep rman o pc = some (rman', pc')) :
      ViewStep m (.client m o) ⟨rman, pc⟩ n ⟨rman', pc'⟩ n
  | enqueue {o : Oracle} {rman : Rman} {p : ResPtr} {t : TaskPtr} {k : Cont} {n n' : ResPtr → Nat}
      (hn : ∀ q, n' q ≤ n q + if q = p then 1 else 0) :
      ViewStep m (.client m o) ⟨rman, .reloadEnq p t k⟩ n ⟨rman, k.resume⟩ n'
  | drain {o : Oracle} {rman : Rman} {n : ResPtr → Nat} :
      ViewStep m (.client m o) ⟨rman, .drain⟩ n ⟨rman, .doneStart⟩ n
  | release {o : Oracle} {rman : Rman} {pc pc' : Pc} {n n' : ResPtr → Nat}
      (hpc : pc.released) (hpc' : pc'.released) (hn : ∀ p, n' p ≤ n p) :
      ViewStep m (.client m o) ⟨rman, pc⟩ n ⟨rman, pc'⟩ n'
  /-- A worker returns the task of its job. -/
  | taken {w : Nat} {o : Oracle} {rman : Rman} {pc : Pc} {n : ResPtr → Nat} {t : TaskPtr} :
      ViewStep m (.worker w o) ⟨rman, pc⟩ n ⟨freeTask rman t, pc⟩ n
  /-- `load_func` returns in a worker. -/
  | returned {w : Nat} {o : Oracle} {rman rman' : Rman} {pc : Pc} {n : ResPtr → Nat} {p : ResPtr}
      (h : (rman.update p fun r => { r with result := o.ret }) = some rman') :
      ViewStep m (.worker w o) ⟨rman, pc⟩ n ⟨rman', pc⟩ n
  /-- A worker runs the last section of `work_func`, which ends its job. -/
  | completed {w : Nat} {o : Oracle} {rman rman' : Rman} {pc : Pc} {n n' : ResPtr → Nat}
      {p : ResPtr} (hpc : pc.locks p = false) (h : workDone rman p o = some rman')
      (hn : ∀ q, n' q + (if q = p then 1 else 0) = n q) :
      ViewStep m (.worker w o) ⟨rman, pc⟩ n ⟨rman', pc⟩ n'

/-! ## Counting jobs -/

section Njobs

variable {pool : Pool} {m : MgrPtr} {p : ResPtr} {w : Nat} {wk wk' : Worker}

theorem njobs_setWorker (pool : Pool) (wk' : Worker) (h : pool.workers[w]? = some wk) :
    (pool.setWorker w wk').njobs m p + (wk.job.any (·.refers m p)).toNat =
      pool.njobs m p + (wk'.job.any (·.refers m p)).toNat := by
  have hset := countP_set_add (f := fun wk : Worker => wk.job.any (·.refers m p)) (b := wk') h
  simp only [Pool.njobs, Pool.setWorker]
  omega

theorem njobs_setWorker_same (pool : Pool) (h : pool.workers[w]? = some wk)
    (hj : wk'.job = wk.job) :
    (pool.setWorker w wk').njobs m p = pool.njobs m p := by
  have hset := njobs_setWorker (m := m) (p := p) pool wk' h
  rw [hj] at hset
  exact Nat.add_right_cancel hset

theorem njobs_take {j : Job} {queue : List Job} (h : pool.workers[w]? = some .idle)
    (hq : pool.queue = j :: queue) :
    ({ pool with queue }.setWorker w (.taken j)).njobs m p = pool.njobs m p := by
  have hset := njobs_setWorker (m := m) (p := p) { pool with queue } (.taken j) h
  simp only [Pool.njobs, hq, List.countP_cons, Worker.job, Option.any_some, Option.any_none,
    Bool.toNat_false] at hset ⊢
  cases hj : j.refers m p <;> simp [hj] at hset ⊢ <;> omega

end Njobs

/-! ## Workers -/

/-- A worker's step either leaves all managers and all numbers of jobs alone, or it is a step on the
manager of its job. -/
theorem workerStep_view {s s' : Sys} {w : Nat} {o : Oracle} (h : workerStep s w o = some s') :
    (s'.clients = s.clients ∧ ∀ m p, s'.pool.njobs m p = s.pool.njobs m p) ∨
      ∃ (j : Job) (c c' : Client), s.clients j.rman = some c ∧
        s'.clients = Function.update s.clients j.rman (some c') ∧
        ViewStep j.rman (.worker w o) c (s.pool.njobs j.rman) c' (s'.pool.njobs j.rman) ∧
        ∀ m, m ≠ j.rman → ∀ p, s'.pool.njobs m p = s.pool.njobs m p := by
  cases workerStep_cases h with
  | exit hw => exact .inl ⟨rfl, fun m p => njobs_setWorker_same _ hw rfl⟩
  | take hw _ hqueue => exact .inl ⟨rfl, fun m p => njobs_take hw hqueue⟩
  | sent hw => exact .inl ⟨rfl, fun m p => njobs_setWorker_same { s.pool with pipe := _ } hw rfl⟩
  | @taken j rman pc hw hc =>
    have hn : ∀ m, (s.pool.setWorker w (.loading j)).njobs m = s.pool.njobs m := fun m =>
      funext fun p => njobs_setWorker_same _ hw rfl
    refine .inr ⟨j, _, _, hc, rfl, ?_, fun m _ => congrFun (hn m)⟩
    rw [hn]
    exact .taken
  | @returned j rman rman' pc hw hc hup =>
    have hn : ∀ m, (s.pool.setWorker w (.loaded j)).njobs m = s.pool.njobs m := fun m =>
      funext fun p => njobs_setWorker_same _ hw rfl
    refine .inr ⟨j, _, _, hc, rfl, ?_, fun m _ => congrFun (hn m)⟩
    rw [hn]
    exact .returned hup
  | @completed j rman rman' pc hw hc hlock hdone =>
    have hn : ∀ m p, (s.pool.setWorker w .finishing).njobs m p + (j.refers m p).toNat =
        s.pool.njobs m p := fun m p => by
      simpa [Worker.job] using njobs_setWorker (m := m) (p := p) s.pool .finishing hw
    refine .inr ⟨j, _, _, hc, rfl, .completed hlock hdone fun q => ?_, fun m hm p => ?_⟩
    · have hq := hn j.rman q
      by_cases hres : q = j.res
      · simpa [Job.refers, hres] using hq
      · simpa [Job.refers, hres, Ne.symm hres] using hq
    · simpa [Job.refers, Ne.symm hm] using hn m p

/-! ## Actions -/

section Step

variable {s s' : Sys} {m : MgrPtr} {a : Action} {c : Client}

/-- What the pool's part of a client's step does. -/
theorem poolStep_view {o : Oracle} {pool' : Pool} {rman : Rman} {pc pc' : Pc}
    (h : poolStep m s.pool o pc = some (pool', pc')) :
    ViewStep m (.client m o) ⟨rman, pc⟩ (s.pool.njobs m) ⟨rman, pc'⟩ (pool'.njobs m) := by
  cases poolStep_cases h with
  | @enqueue p t k =>
    refine .enqueue fun q => ?_
    simp only [Pool.njobs, List.countP_append, List.countP_singleton, Job.refers]
    by_cases hq : q = p
    · simp [hq]
      omega
    · simp [hq, Ne.symm hq]
  | lost => exact .enqueue fun q => Nat.le_add_right _ _
  | drain => exact .drain
  | release hpc' =>
    exact .release rfl (by rcases hpc' with rfl | rfl <;> rfl) fun p => Nat.le_refl _
  | clear => exact .release rfl rfl fun p => by simp [Pool.njobs]
  | quit | join => exact .release rfl rfl fun p => Nat.le_refl _

/-- The pool's part of a client's step discards jobs of other managers, or leaves them. -/
theorem poolStep_njobs_le {o : Oracle} {pool pool' : Pool} {pc pc' : Pc} {m' : MgrPtr}
    (hm : m' ≠ m) (h : poolStep m' pool o pc = some (pool', pc')) (p : ResPtr) :
    pool'.njobs m p ≤ pool.njobs m p := by
  cases poolStep_cases h with
  | enqueue => simp [Pool.njobs, Job.refers, hm]
  | clear => simp [Pool.njobs]
  | lost | drain | release | quit | join => exact Nat.le_refl _

/-- The three ways in which the client of some manager acts. -/
theorem client_step_cases {m' : MgrPtr} (h : step s a = some s') (ha : a.client? = some m') :
    (∃ d f, a = .create m' d f ∧ s.clients m' = none ∧
        s' = ⟨Function.update s.clients m' (some ⟨.init d f, .idle⟩),
          { s.pool with nref := s.pool.nref + 1 }⟩) ∨
      (∃ f c rman' pc', a = .call m' f ∧ s.clients m' = some c ∧ c.pc = .idle ∧
        callStep c.rman f = some (rman', pc') ∧
        s' = { s with clients := Function.update s.clients m' (some ⟨rman', pc'⟩) }) ∨
      ∃ o c, a = .client m' o ∧ s.clients m' = some c ∧
        ((∃ rman' pc', localStep c.rman o c.pc = some (rman', pc') ∧
          s' = { s with clients := Function.update s.clients m' (some ⟨rman', pc'⟩) }) ∨
        ∃ pool' pc', poolStep m' s.pool o c.pc = some (pool', pc') ∧
          s' = ⟨Function.update s.clients m' (some { c with pc := pc' }), pool'⟩) := by
  cases a with
  | worker w o => cases ha
  | create m₁ d f =>
    obtain rfl : m₁ = m' := Option.some.inj ha
    simp only [step] at h
    split at h
    · cases h
    · rename_i hnone
      exact .inl ⟨d, f, rfl, hnone, (Option.some.inj h).symm⟩
  | call m₁ f =>
    obtain rfl : m₁ = m' := Option.some.inj ha
    simp only [step, Option.bind_eq_bind, Option.bind_eq_some_iff] at h
    obtain ⟨c, hc, h⟩ := h
    split at h
    · rename_i hpc
      obtain ⟨⟨rman', pc'⟩, hcall, h⟩ := Option.bind_eq_some_iff.1 h
      exact .inr (.inl ⟨f, c, rman', pc', rfl, hc, hpc, hcall, (Option.some.inj h).symm⟩)
    · cases h
  | client m₁ o =>
    obtain rfl : m₁ = m' := Option.some.inj ha
    simp only [step, Option.bind_eq_bind, Option.bind_eq_some_iff] at h
    obtain ⟨c, hc, h⟩ := h
    refine .inr (.inr ⟨o, c, rfl, hc, ?_⟩)
    split at h
    · rename_i rman' pc' hlocal
      exact .inl ⟨rman', pc', hlocal, (Option.some.inj h).symm⟩
    · obtain ⟨⟨pool', pc'⟩, hpool, h⟩ := Option.bind_eq_some_iff.1 h
      exact .inr ⟨pool', pc', hpool, (Option.some.inj h).symm⟩

/-- An action of another client, seen from `m`. -/
theorem step_other {m' : MgrPtr} (h : step s a = some s') (ha : a.client? = some m')
    (hm : m' ≠ m) :
    s'.clients m = s.clients m ∧ ∀ p, s'.pool.njobs m p ≤ s.pool.njobs m p := by
  rcases client_step_cases h ha with ⟨d, f, -, -, rfl⟩ | ⟨f, c, rman', pc', -, -, -, -, rfl⟩ |
    ⟨o, c, -, -, ⟨rman', pc', -, rfl⟩ | ⟨pool', pc', hpool, rfl⟩⟩
  · exact ⟨Function.update_of_ne (Ne.symm hm) _ _, fun p => Nat.le_refl _⟩
  · exact ⟨Function.update_of_ne (Ne.symm hm) _ _, fun p => Nat.le_refl _⟩
  · exact ⟨Function.update_of_ne (Ne.symm hm) _ _, fun p => Nat.le_refl _⟩
  · exact ⟨Function.update_of_ne (Ne.symm hm) _ _, poolStep_njobs_le hm hpool⟩

/-- **The cases of an action**, for a manager that exists. -/
theorem step_view (h : step s a = some s') (hc : s.clients m = some c) :
    ∃ c', s'.clients m = some c' ∧ ViewStep m a c (s.pool.njobs m) c' (s'.pool.njobs m) := by
  cases ha : a.client? with
  | none =>
    cases a with
    | worker w o =>
      rcases workerStep_view h with ⟨hcl, hn⟩ | ⟨j, cj, cj', hcj, hcl, hv, hn⟩
      · exact ⟨c, hcl ▸ hc, .frame (by simp [Action.client?]) fun p => (hn m p).le⟩
      · by_cases hm : m = j.rman
        · subst hm
          obtain rfl : cj = c := Option.some.inj (hcj.symm.trans hc)
          exact ⟨cj', by rw [hcl, Function.update_self], hv⟩
        · exact ⟨c, by rw [hcl, Function.update_of_ne hm, hc],
            .frame (by simp [Action.client?]) fun p => (hn m hm p).le⟩
    | create | call | client => cases ha
  | some m' =>
    by_cases hm : m' = m
    · subst hm
      rcases client_step_cases h ha with ⟨d, f, -, hnone, -⟩ |
        ⟨f, c₁, rman', pc', rfl, hc₁, hpc, hcall, rfl⟩ |
        ⟨o, c₁, rfl, hc₁, ⟨rman', pc', hlocal, rfl⟩ | ⟨pool', pc', hpool, rfl⟩⟩
      · exact absurd (hnone.symm.trans hc) (by simp)
      all_goals
        obtain rfl : c₁ = c := Option.some.inj (hc₁.symm.trans hc)
        obtain ⟨rman, pc⟩ := c₁
        refine ⟨_, Function.update_self _ _ _, ?_⟩
      · obtain rfl : pc = .idle := hpc
        exact .call hcall
      · exact .client hlocal
      · exact poolStep_view hpool
    · obtain ⟨hcl, hn⟩ := step_other h ha hm
      exact ⟨c, hcl.trans hc, .frame (by rw [ha]; simpa using hm) hn⟩

/-- A manager that does not exist has no jobs, and it is created without any. -/
theorem step_absent (h : step s a = some s') (hc : s.clients m = none)
    (hn : ∀ p, s.pool.njobs m p = 0) :
    (∀ p, s'.pool.njobs m p = 0) ∧
      ∀ c', s'.clients m = some c' → ∃ d f, a = .create m d f ∧ c' = ⟨.init d f, .idle⟩ := by
  cases ha : a.client? with
  | none =>
    cases a with
    | worker w o =>
      rcases workerStep_view h with ⟨hcl, hn'⟩ | ⟨j, cj, cj', hcj, hcl, -, hn'⟩
      · refine ⟨fun p => (hn' m p).trans (hn p), fun c' hc' => ?_⟩
        rw [hcl, hc] at hc'
        cases hc'
      · have hm : m ≠ j.rman := by
          rintro rfl
          rw [hc] at hcj
          cases hcj
        refine ⟨fun p => (hn' m hm p).trans (hn p), fun c' hc' => ?_⟩
        rw [hcl, Function.update_of_ne hm, hc] at hc'
        cases hc'
    | create | call | client => cases ha
  | some m' =>
    by_cases hm : m' = m
    · subst hm
      rcases client_step_cases h ha with ⟨d, f, rfl, -, rfl⟩ | ⟨f, c₁, -, -, -, hc₁, -⟩ |
        ⟨o, c₁, -, hc₁, -⟩
      · refine ⟨hn, fun c' hc' => ⟨d, f, rfl, ?_⟩⟩
        have hself := Function.update_self m' (some ⟨.init d f, .idle⟩) s.clients
        exact (Option.some.inj (hself.symm.trans hc')).symm
      · exact absurd (hc₁.symm.trans hc) (by simp)
      · exact absurd (hc₁.symm.trans hc) (by simp)
    · obtain ⟨hcl, hle⟩ := step_other h ha hm
      refine ⟨fun p => Nat.le_zero.1 ((hle p).trans (hn p).le), fun c' hc' => ?_⟩
      rw [hcl, hc] at hc'
      cases hc'

end Step

/-! ## The invariant rule -/

/-- A condition on the steps that clients take inside a call. -/
def OnClient (R : Rman → Pc → Prop) (s : Sys) : Action → Prop
  | .client m _ => ∀ c ∈ s.clients m, R c.rman c.pc
  | _ => True

instance {R : Rman → Pc → Prop} [∀ rman pc, Decidable (R rman pc)] (s : Sys) :
    ∀ a, Decidable (OnClient R s a)
  | .client m _ => inferInstanceAs (Decidable (∀ c ∈ s.clients m, R c.rman c.pc))
  | .create .. | .call .. | .worker .. => isTrue trivial

/-- **The invariant rule for a manager**: what a new manager has and `ViewStep` preserves, given the
condition `R` on the steps of its client, holds of every manager in every run along that condition.
A manager that does not exist has no jobs. -/
theorem view_invariant {R : Rman → Pc → Prop} {I : Client → (ResPtr → Nat) → Prop}
    (hinit : ∀ d f n, (∀ p, n p = 0) → I ⟨.init d f, .idle⟩ n)
    (hstep : ∀ m a c n c' n', I c n → (∀ o, a = .client m o → R c.rman c.pc) →
      ViewStep m a c n c' n' → I c' n')
    {numThreads : Nat} {as : List Action} {s : Sys}
    (hR : Along step (OnClient R) (.initial numThreads) as)
    (h : exec step (.initial numThreads) as = some s) :
    (∀ m c, s.clients m = some c → I c (s.pool.njobs m)) ∧
      ∀ m, s.clients m = none → ∀ p, s.pool.njobs m p = 0 := by
  have hall : ∀ m, match s.clients m with
      | none => ∀ p, s.pool.njobs m p = 0
      | some c => I c (s.pool.njobs m) := by
    refine exec_invariant (I := fun s : Sys => ∀ m, match s.clients m with
      | none => ∀ p, s.pool.njobs m p = 0
      | some c => I c (s.pool.njobs m)) ?_ ?_ hR h
    · intro m p
      simp [Sys.initial, Pool.njobs, Worker.job]
    · intro s a s' hs hRa hstep' m
      have hm := hs m
      cases hc : s.clients m with
      | none =>
        rw [hc] at hm
        obtain ⟨hn, hnew⟩ := step_absent hstep' hc hm
        cases hc' : s'.clients m with
        | none => exact hn
        | some c' =>
          obtain ⟨d, f, -, rfl⟩ := hnew c' hc'
          exact hinit d f _ hn
      | some c =>
        rw [hc] at hm
        obtain ⟨c', hc', hv⟩ := step_view hstep' hc
        rw [hc']
        exact hstep m a c _ c' _ hm (fun o ho => by subst ho; exact hRa c hc) hv
  refine ⟨fun m c hc => ?_, fun m hc => ?_⟩
  · have hm := hall m
    rwa [hc] at hm
  · have hm := hall m
    rwa [hc] at hm

end Resman.Manager
