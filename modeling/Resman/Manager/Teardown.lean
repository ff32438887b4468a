import Resman.Manager.View

/-!
# Teardown of a manager

`resman_destroy` frees the resources of a manager and gives its reference to the pool back, without
waiting for its jobs. From the start of its loop on the client enqueues nothing, so whether jobs of
the manager are left is decided when `resman_destroy` is called (`cleanTeardown_iff`).
-/

namespace Resman.Manager

open Lib

variable {m : MgrPtr} {pool : Pool} {s s' : Sys} {a : Action}

theorem Cont.destroying_resume (k : Cont) : k.resume.destroying = false := by cases k <;> rfl

/-- No job refers to the manager, whether queued or executed by a worker. -/
def NoJobs (pool : Pool) (m : MgrPtr) : Prop :=
  (∀ j ∈ pool.queue, j.rman ≠ m) ∧ ∀ wk ∈ pool.workers, ∀ j ∈ wk.job, j.rman ≠ m

instance : Decidable (NoJobs pool m) := inferInstanceAs (Decidable (_ ∧ _))

theorem noJobs_iff : NoJobs pool m ↔ ∀ p, pool.njobs m p = 0 := by
  simp only [NoJobs, Pool.njobs, Nat.add_eq_zero_iff, List.countP_eq_zero]
  constructor
  · rintro ⟨hqueue, hworkers⟩ p
    refine ⟨fun j hj href => ?_, fun wk hwk href => ?_⟩
    · simp only [Job.refers, decide_eq_true_eq] at href
      exact hqueue j hj href.1
    · obtain ⟨j, hj, href⟩ := Option.any_eq_true _ _ |>.1 href
      simp only [Job.refers, decide_eq_true_eq] at href
      exact hworkers wk hwk j hj href.1
  · intro h
    refine ⟨fun j hj hm => (h j.res).1 j hj ?_, fun wk hwk j hj hm => (h j.res).2 wk hwk ?_⟩
    · simp [Job.refers, hm]
    · rw [show wk.job = some j from hj]
      simp [Job.refers, hm]

/-- A client that is in `resman_destroy` after an action was there before, and no job was added, or
the action is the call. -/
theorem destroying_cases {c c' : Client} {n n' : ResPtr → Nat} (hv : ViewStep m a c n c' n')
    (h : c'.pc.destroying = true) :
    (c.pc.destroying = true ∧ ∀ p, n' p ≤ n p) ∨ a = .call m .destroy ∧ n' = n := by
  have hrefl : ∀ p, n p ≤ n p := fun p => le_rfl
  cases hv with
  | frame _ hn => exact .inl ⟨h, hn⟩
  | call hs =>
    cases callStep_cases hs with
    | destroy => exact .inr ⟨rfl, rfl⟩
    | setopt | stay | added | remove | poll => cases h
  | client hs =>
    cases localStep_cases hs with
    | destroyEnd | destroySkip | destroyFound | destroyCall | destroyFree => exact .inl ⟨rfl, hrefl⟩
    | @rmFree _ _ _ k =>
      rw [k.destroying_resume] at h
      cases h
    | doneOk _ _ hpc' => rcases hpc' with rfl | rfl <;> cases h
    | _ => cases h
  | @enqueue _ _ _ _ k =>
    rw [k.destroying_resume] at h
    cases h
  | drain => cases h
  | @release _ _ pc _ _ _ hpc _ hn =>
    refine .inl ⟨?_, hn⟩
    cases pc <;> first | rfl | cases hpc
  | taken => exact .inl ⟨h, hrefl⟩
  | returned => exact .inl ⟨h, hrefl⟩
  | completed _ _ hn => exact .inl ⟨h, fun p => by have := hn p; omega⟩

/-! ## Runs -/

/-- `resman_destroy` is called when no job of the manager is left. -/
def DestroysIdle (s : Sys) : Action → Prop
  | .call m .destroy => NoJobs s.pool m
  | _ => True

instance (s : Sys) : ∀ a, Decidable (DestroysIdle s a)
  | .call m .destroy => inferInstanceAs (Decidable (NoJobs s.pool m))
  | .call _ (.setopt _) | .call _ (.add ..) | .call _ (.find _) | .call _ (.remove _)
  | .call _ .poll | .create .. | .client .. | .worker .. => isTrue trivial

/-- From the start of `resman_destroy` on, no job refers to the manager. -/
def CleanTeardown (s : Sys) : Prop :=
  ∀ m, ∀ c ∈ s.clients m, c.pc.destroying = true → NoJobs s.pool m

/-- **Teardown leaves no job behind exactly when `resman_destroy` is only called for managers
without jobs**, in every run of any number of managers and workers. -/
theorem cleanTeardown_iff {numThreads : Nat} {as : List Action}
    (h : exec step (.initial numThreads) as = some s) :
    (∀ pre m, pre <+: as → exec step (.initial numThreads) pre = some m → CleanTeardown m) ↔
      Along step DestroysIdle (.initial numThreads) as := by
  refine forall_prefix_iff_along (D := fun _ _ => True)
    (I := fun s => CleanTeardown s ∧ ∀ m, s.clients m = none → NoJobs s.pool m)
    (fun s hs => hs.1) ?_ ?_ ?_ (along_true _ _) h
  · rintro s a s' ⟨hclean, habsent⟩ - hidle hstep
    refine ⟨fun m c' hc' hdestroying => ?_, fun m hc' => ?_⟩
    · cases hc : s.clients m with
      | none =>
        obtain ⟨hn, -⟩ := step_absent hstep hc (noJobs_iff.1 (habsent m hc))
        exact noJobs_iff.2 hn
      | some c =>
        obtain ⟨c₁, hc₁, hv⟩ := step_view hstep hc
        obtain rfl : c₁ = c' := Option.some.inj (hc₁.symm.trans hc')
        rcases destroying_cases hv hdestroying with ⟨hbefore, hn⟩ | ⟨rfl, hn⟩
        · have hzero := noJobs_iff.1 (hclean m c hc hbefore)
          exact noJobs_iff.2 fun p => Nat.le_zero.1 ((hn p).trans (hzero p).le)
        · rw [noJobs_iff, hn]
          exact noJobs_iff.1 hidle
    · cases hc : s.clients m with
      | none =>
        obtain ⟨hn, -⟩ := step_absent hstep hc (noJobs_iff.1 (habsent m hc))
        exact noJobs_iff.2 hn
      | some c =>
        obtain ⟨c₁, hc₁, -⟩ := step_view hstep hc
        exact absurd (hc₁.symm.trans hc') (by simp)
  · rintro s a s' - - hbusy hstep hclean
    match a, hbusy, hstep with
    | .call m .destroy, hbusy, hstep =>
      rcases client_step_cases hstep rfl with
        ⟨d, f, ha, -⟩ | ⟨f, c, rman', pc', ha, hc, -, hcall, rfl⟩ | ⟨o, c, ha, -⟩
      · cases ha
      · obtain rfl : .destroy = f := (Action.call.inj ha).2
        obtain ⟨rfl, rfl⟩ := Prod.mk.inj (Option.some.inj hcall)
        exact hbusy (hclean m _ (Function.update_self m _ s.clients) rfl)
      · cases ha
    | .call _ (.setopt _), hbusy, _ | .call _ (.add ..), hbusy, _ | .call _ (.find _), hbusy, _
    | .call _ (.remove _), hbusy, _ | .call _ .poll, hbusy, _ | .create .., hbusy, _
    | .client .., hbusy, _ | .worker .., hbusy, _ => exact hbusy trivial
  · refine ⟨fun m c hc => (by cases hc), fun m _ => noJobs_iff.2 fun p => ?_⟩
    simp [Sys.initial, Pool.njobs, Worker.job]

/-- Two managers share the pool; the first is destroyed after its load, while
one of the second runs. -/
def destroyedAfterLoad : List Action :=
  [.create 0 true true, .create 1 true true, .call 0 (.add "a" 0 {})] ++ clientSteps 0 {} 3 ++
  workerSteps 0 {} 5 ++ .call 1 (.add "b" 0 {}) :: clientSteps 1 {} 3 ++ workerSteps 0 {} 2 ++
  .call 0 .destroy :: clientSteps 0 {} 5

theorem cleanTeardown_iff_destroyedAfterLoad :
    (∀ pre m, pre <+: destroyedAfterLoad → exec step (.initial 2) pre = some m → CleanTeardown m) ↔
      Along step DestroysIdle (.initial 2) destroyedAfterLoad :=
  cleanTeardown_iff (s := (exec step (.initial 2) destroyedAfterLoad).get (by decide +kernel))
    (Option.some_get _).symm

/-- The manager is destroyed while a worker loads its only resource. -/
def destroyedWhileLoading : List Action :=
  [.create 0 true true, .call 0 (.add "a" 0 {})] ++ clientSteps 0 {} 3 ++ workerSteps 0 {} 2 ++
  .call 0 .destroy :: clientSteps 0 {} 2

/-- The resource is about to be freed, and a worker is loading it. -/
theorem not_cleanTeardown_destroyedWhileLoading :
    ¬ ∀ numThreads as s, exec step (.initial numThreads) as = some s → CleanTeardown s := by
  intro hall
  have hclean : CleanTeardown
      ((exec step (.initial 1) destroyedWhileLoading).get (by decide +kernel)) :=
    hall 1 destroyedWhileLoading _ (Option.some_get _).symm
  have hpc :
      (((exec step (.initial 1) destroyedWhileLoading).get (by decide +kernel)).clients 0).map
      Client.pc = some (.destroyFree 0 0) := by decide +kernel
  obtain ⟨c, hc, hpc⟩ := Option.map_eq_some_iff.1 hpc
  have hjobs := (hclean 0 c hc (by rw [hpc]; rfl)).2 (.loading ⟨0, 0, 0⟩) (by decide +kernel)
    ⟨0, 0, 0⟩ rfl
  exact hjobs rfl

end Resman.Manager
