import Resman.Manager.Jobs
import Resman.Manager.Removal
import Resman.Manager.Wait

/-!
# `resman_wait_job` as a barrier

The load jobs for a resource that have been enqueued and not completed are seen by its manager as
the jobs in flight (`NoteStep.view`), so `pending` bounds their number in the runs in which
`resman_reload` always finds `pending` clear (`Tracked`). When `resman_wait_job` finds `pending`
clear there is none, and `barrier_of_run` concludes that every job enqueued before the call has
finished its call of `load_func`.
-/

namespace Resman.Manager

open Lib

variable {m : MgrPtr} {p : ResPtr} {c c' : Client} {a : Action} {ns es : List Note}
  {n n' : ResPtr → Nat} {x x' : Sys × List Note} {y y' : Waiting}

/-! ## Jobs in flight -/

/-- Notes that are not about jobs of `m` leave its numbers of jobs alone. -/
theorem jobs_kept (hn : ∀ p, n' p + ns.countP (Note.completes m p) =
    n p + ns.countP (Note.enqueues m p))
    (hns : ∀ e ∈ ns, e.queued = false ∨ e.rman ≠ some m) : n' = n := by
  funext p
  obtain ⟨hcompletes, henqueues⟩ := countP_of_not_queued (p := p) hns
  have hp := hn p
  rwa [hcompletes, henqueues] at hp

/-- The manager's view of its client's step on the pool. -/
theorem PoolStep.view {o : Oracle} {rman : Rman} {pool pool' : Pool} {pc pc' : Pc}
    (h : PoolStep m pool o pc pool' pc')
    (hn : ∀ p, n' p + (clientNotes m o pc pc').countP (Note.completes m p) =
      n p + (clientNotes m o pc pc').countP (Note.enqueues m p)) :
    ViewStep m (.client m o) ⟨rman, pc⟩ n ⟨rman, pc'⟩ n' := by
  cases h with
  | @enqueue q t k hmem =>
    refine .enqueue fun p => ?_
    have hp := hn p
    rw [clientNotes, if_pos hmem] at hp
    refine hp.le.trans (Nat.add_le_add_left ?_ _)
    by_cases hpq : p = q
    · simp [Note.enqueues, hpq]
    · simp [Note.enqueues, Ne.symm hpq]
  | lost hmem =>
    obtain rfl := jobs_kept hn fun e he => (by simp [clientNotes, hmem] at he)
    exact .enqueue fun _ => Nat.le_add_right _ _
  | drain =>
    obtain rfl : n' = n := funext hn
    exact .drain
  | release hpc' =>
    obtain rfl : n' = n := funext hn
    exact .release rfl (by rcases hpc' with rfl | rfl <;> rfl) fun _ => Nat.le_refl _
  | clear | quit | join =>
    obtain rfl : n' = n := funext hn
    exact .release rfl rfl fun _ => Nat.le_refl _

/-- The manager's view of a step, with the jobs that the history enqueues and completes. -/
theorem NoteStep.view (h : NoteStep m a c c' ns)
    (hn : ∀ p, n' p + ns.countP (Note.completes m p) = n p + ns.countP (Note.enqueues m p)) :
    ViewStep m a c n c' n' := by
  cases h with
  | frame ha hns =>
    obtain rfl := jobs_kept hn fun e he => .inr (hns e he)
    exact .frame ha fun _ => Nat.le_refl _
  | call hs =>
    obtain rfl := jobs_kept hn fun e he => .inl (callNotes_queued e he)
    exact .call hs
  | client hs =>
    obtain rfl := jobs_kept hn fun e he => .inl (clientNotes_queued hs e he)
    exact .client hs
  | pool hs => exact (poolStep_cases hs).view hn
  | taken =>
    obtain rfl : n' = n := funext hn
    exact .taken
  | returned hup =>
    obtain rfl : n' = n := funext hn
    exact .returned hup
  | completed hpc hdone =>
    refine .completed hpc hdone fun q => ?_
    have hq := hn q
    rw [completes_completionNotes, enqueues_completionNotes] at hq
    simpa [eq_comm] using hq

/-- What is known in the runs in which `resman_reload` always finds `pending` clear: the replay is
where the pool is, and every manager is safe with its unfinished jobs. -/
structure Tracked (x : Sys × List Note) : Prop where
  pool : Matches x.1.pool (jobs x.2)
  safe : ∀ m c, x.1.clients m = some c → Safe c (unfinished m x.2)
  absent : ∀ m, x.1.clients m = none → ∀ p, unfinished m x.2 p = 0

theorem Tracked.initial (numThreads : Nat) : Tracked (.initial numThreads, []) where
  pool := .initial numThreads
  safe m c hc := by cases hc
  absent m _ p := rfl

theorem Tracked.step (h : Tracked x) (hC : OnClient ReloadsClear x.1 a) (hs : trace x a = some x') :
    Tracked x' := by
  obtain ⟨s, es⟩ := x
  obtain ⟨s', es'⟩ := x'
  obtain ⟨hs', rfl⟩ := record_eq_some.1 hs
  have hq := step_queue hs'
  have hzero : ∀ m, s.clients m = none → ∀ p, unfinished m (notes s a s' ++ es) p = 0 := by
    intro m hc p
    have hcount := unfinished_step (m := m) h.pool hq p
    obtain ⟨hcompletes, henqueues⟩ := countP_of_not_queued (p := p) fun n hn =>
      .inr ((step_notes_absent hs' hc).1 n hn)
    rwa [hcompletes, henqueues, h.absent m hc p] at hcount
  refine ⟨h.pool.step hq, fun m c' hc' => ?_, fun m hc' => ?_⟩
  · cases hc : s.clients m with
    | none =>
      obtain ⟨d, f, rfl⟩ := (step_notes_absent hs' hc).2 c' hc'
      exact Safe.init d f (hzero m hc)
    | some c =>
      obtain ⟨c₁, hc₁, hv⟩ := step_notes hs' hc
      obtain rfl : c₁ = c' := Option.some.inj (hc₁.symm.trans hc')
      refine (h.safe m c hc).step (fun o ho => ?_) (hv.view (unfinished_step h.pool hq))
      subst ho
      exact hC c hc
  · refine hzero m ?_
    by_contra hc
    obtain ⟨c, hc⟩ := Option.ne_none_iff_exists'.1 hc
    obtain ⟨c', hc₁, -⟩ := step_notes hs' hc
    exact absurd (hc₁.symm.trans hc') (Option.some_ne_none c')

/-! ## Calls of `resman_wait_job` -/

/-- Every job for the resource in the history `since` has finished its call of
`load_func` in the history `es`. -/
def LoadedSince (since es : List Note) (m : MgrPtr) (p : ResPtr) : Prop :=
  ∀ id, .linked id [(m, p)] ∈ (jobs since).log → ∃ w, .called id w (m, p) ∈ (jobs es).log

/-- A thread returns from `resman_wait_job` only when every load job that had been enqueued for the
resource when it called has finished its call of `load_func`. -/
def Barrier (y : Waiting) : Prop :=
  ∀ t w w' m p, y.threads t = some w → w.res = some (m, p) → w.step y.base.1 = some w' →
    w'.pc = .returned → LoadedSince w.since y.base.2 m p

/-- A condition on the steps of the system. -/
def OnBase (C : Sys → Action → Prop) (y : Waiting) : WaitAction → Prop
  | .base a => C y.base.1 a
  | .waitJob .. | .waitAny .. | .thread _ => True

instance {C : Sys → Action → Prop} [∀ s a, Decidable (C s a)] (y : Waiting) :
    ∀ a, Decidable (OnBase C y a)
  | .base a => inferInstanceAs (Decidable (C y.base.1 a))
  | .waitJob .. | .waitAny .. | .thread _ => isTrue trivial

theorem WaiterStep.since {s : Sys} {w w' : Waiter} (h : WaiterStep s w w') :
    w'.since = w.since := by
  cases h <;> rfl

/-- The invariant: the history of the system goes on from where it was when a thread called. -/
structure WaitTracked (y : Waiting) : Prop where
  base : Tracked y.base
  since : ∀ t w, y.threads t = some w → w.since <:+ y.base.2

theorem WaitTracked.step {a : WaitAction} (h : WaitTracked y)
    (hC : OnBase (OnClient ReloadsClear) y a) (hs : waitStep y a = some y') : WaitTracked y' := by
  cases waitStep_cases hs with
  | @base a base hbase =>
    refine ⟨h.base.step hC hbase, fun t w ht => (h.since t w ht).trans ?_⟩
    obtain ⟨-, heq⟩ := record_eq_some.1 hbase
    exact heq ▸ List.suffix_append _ _
  | waitJob | waitAny =>
    refine ⟨h.base, fun t w ht => ?_⟩
    rcases setThread_eq_some ht with ⟨-, rfl⟩ | hold
    · exact List.suffix_rfl
    · exact h.since t w hold
  | thread ht hw =>
    refine ⟨h.base, fun t w ht' => ?_⟩
    rcases setThread_eq_some ht' with ⟨-, rfl⟩ | hold
    · exact hw.since ▸ h.since _ _ ht
    · exact h.since t w hold

/-- When `pending` is clear, every job for the resource has finished its call of `load_func`. -/
theorem Tracked.loaded (h : Tracked x) (htest : testPending x.1 m p = some false) :
    LoadedSince x.2 x.2 m p := by
  simp only [testPending, Option.bind_eq_bind, Option.bind_eq_some_iff] at htest
  obtain ⟨c, hc, htest⟩ := htest
  split at htest
  · cases htest
  · obtain ⟨r, hr, hpend⟩ := Option.bind_eq_some_iff.1 htest
    have hle := (h.safe m c hc).pend p r hr
    rw [Option.some.inj hpend, Bool.toNat_false, inFlight] at hle
    intro id hl
    exact (jobs_ok x.2).called_of_card_eq_zero (Nat.le_zero.1 ((Nat.le_add_right _ _).trans hle)) hl
      List.mem_cons_self

theorem WaitTracked.barrier (h : WaitTracked y) : Barrier y := by
  intro t w w' m p ht hres hw hret
  cases waiter_step_cases hw with
  | pending | count => cases hret
  | ended _ _ hpc' =>
    rw [hres] at hpc'
    cases hpc'.symm.trans hret
  | clear hpc hres' htest =>
    obtain ⟨rfl, rfl⟩ := Prod.mk.inj (Option.some.inj (hres'.symm.trans hres))
    obtain ⟨ns, hns⟩ := h.since t w ht
    intro id hl
    refine h.base.loaded htest id ?_
    rw [← hns]
    exact (WorkQueue.Steps.log_suffix (jobs_append ns)).subset hl

/-- **`resman_wait_job` is a barrier**, in every run in which `resman_reload` always finds the flag
`pending` of the resource clear. -/
theorem barrier_of_run {numThreads : Nat} {as : List WaitAction}
    (hC : Along waitStep (OnBase (OnClient ReloadsClear)) (.initial numThreads) as)
    (h : exec waitStep (.initial numThreads) as = some y) : Barrier y := by
  have hI : WaitTracked y := by
    refine exec_invariant ⟨.initial numThreads, fun t w ht => (by cases ht)⟩ ?_ hC h
    exact fun y a y' hI hC hs => hI.step hC hs
  exact hI.barrier

/-- A thread waits for the reload of a file that was modified, and the reload ends. -/
def waitsForReload (as : List Action) : List WaitAction :=
  as.map .base ++ .waitJob 0 0 0 :: (workerSteps 0 {} 2).map .base

theorem barrier_of_run_modifiedOnce :
    Barrier ((exec waitStep (.initial 2) (waitsForReload modifiedOnce)).get (by decide +kernel)) :=
  barrier_of_run (by decide +kernel) (Option.some_get _).symm

/-- The file was modified again while it was loaded: one reload has ended, and the thread returns
while the other one is under way. -/
theorem not_barrier_modifiedTwice :
    ¬ ∀ numThreads as y, exec waitStep (.initial numThreads) as = some y → Barrier y := by
  intro hall
  have hrun : ((exec waitStep (.initial 2) (waitsForReload modifiedTwice)).any fun y =>
      (y.threads 0).any fun w => (w.step y.base.1).any fun w' =>
        decide (w.res = some (0, 0) ∧ w'.pc = .returned ∧ .linked 2 [(0, 0)] ∈ (jobs w.since).log ∧
          history 2 (jobs y.base.2).log = [.linked 2 [(0, 0)], .taken 2 1])) = true := by
    decide +kernel
  obtain ⟨y, hy, hrun⟩ := (Option.any_eq_true _ _).1 hrun
  obtain ⟨w, ht, hrun⟩ := (Option.any_eq_true _ _).1 hrun
  obtain ⟨w', hw, hrun⟩ := (Option.any_eq_true _ _).1 hrun
  obtain ⟨hres, hret, hl, hhist⟩ := of_decide_eq_true hrun
  obtain ⟨v, hcalled⟩ := hall 2 _ y hy 0 w w' 0 0 ht hres hw hret 2 hl
  have hmem : .called 2 v (0, 0) ∈ history 2 (jobs y.base.2).log :=
    mem_history.2 ⟨hcalled, rfl⟩
  simp [hhist] at hmem

end Resman.Manager
