import Resman.Manager.History

/-!
# The event pipe

All managers share the pipe to which a worker writes an event after each job. `pipeEvents` reads
from the history whose jobs the events in the pipe are about, and `pipe_of_run` says that there are
as many bytes in the pipe. `resman_poll` empties it for everybody: `neverSteals_iff` says when no
other manager loses an event that it still needs.
-/

namespace Resman.Manager

open Lib

variable {s s' : Sys} {a : Action} {m b : MgrPtr} {es ns : List Note}

/-! ## Steps -/

/-- The note is about the pipe. -/
def Note.piped : Note → Bool
  | sent _ | drained _ => true
  | _ => false

/-- What an action does to the pipe, with its notes. -/
inductive PipeStep (s : Sys) : Action → Sys → List Note → Prop where
  | quiet {a : Action} {s' : Sys} {ns : List Note} (hpipe : s'.pool.pipe = s.pool.pipe)
      (hns : ∀ n ∈ ns, n.piped = false) : PipeStep s a s' ns
  | sent {w : Nat} {o : Oracle} {s' : Sys} (hw : s.pool.workers[w]? = some .finishing)
      (hcl : s'.clients = s.clients) (hpipe : s'.pool.pipe = s.pool.pipe + 1) :
      PipeStep s (.worker w o) s' [.sent w]
  | drained {m : MgrPtr} {o : Oracle} {c : Client} {s' : Sys} (hc : s.clients m = some c)
      (hpc : c.pc = .drain)
      (hcl : s'.clients = Function.update s.clients m (some { c with pc := .doneStart }))
      (hpipe : s'.pool.pipe = 0) : PipeStep s (.client m o) s' [.drained m]

theorem callNotes_piped {rman : Rman} {f : Call} {pc' : Pc} :
    ∀ n ∈ callNotes m rman f pc', n.piped = false := by
  intro n hn
  cases callNotes_cases hn <;> rfl

theorem clientNotes_piped {o : Oracle} {pc pc' : Pc} (hpc : pc ≠ .drain) :
    ∀ n ∈ clientNotes m o pc pc', n.piped = false := by
  intro n hn
  cases clientNotes_cases hn with
  | drained => exact absurd rfl hpc
  | _ => rfl

theorem workerStep_pipe {w : Nat} {o : Oracle} (h : workerStep s w o = some s') :
    PipeStep s (.worker w o) s' (workerNotes s w o) := by
  cases workerStep_cases h with
  | exit hw hquit => exact .quiet rfl (by simp [workerNotes, hw, hquit])
  | take hw hquit => exact .quiet rfl (by simp [workerNotes, hw, hquit, Note.piped])
  | sent hw =>
    rw [workerNotes, hw]
    exact .sent hw rfl rfl
  | taken hw => exact .quiet rfl (by simp [workerNotes, hw])
  | returned hw => exact .quiet rfl (by simp [workerNotes, hw, Note.piped])
  | completed hw hc =>
    refine .quiet rfl fun n hn => ?_
    simp only [workerNotes, hw, hc] at hn
    rcases completionNotes_cases hn with rfl | ⟨rfl, -⟩ <;> rfl

theorem step_pipe (h : step s a = some s') : PipeStep s a s' (notes s a s') := by
  cases ha : a.client? with
  | none =>
    cases a with
    | worker w o => exact workerStep_pipe h
    | create | call | client => cases ha
  | some m =>
    rcases client_step_cases h ha with
      ⟨d, f, rfl, -, rfl⟩ | ⟨f, c, rman', pc', rfl, hc, -, -, rfl⟩ |
      ⟨o, c, rfl, hc, ⟨rman', pc', hlocal, rfl⟩ | ⟨pool', pc', hpool, rfl⟩⟩
    · exact .quiet rfl fun n hn => (by cases hn)
    · simp only [notes, hc, Function.update_self]
      exact .quiet rfl callNotes_piped
    · simp only [notes, hc, Function.update_self]
      refine .quiet rfl (clientNotes_piped ?_)
      intro hpc
      rw [hpc] at hlocal
      cases hlocal
    · simp only [notes, hc, Function.update_self]
      obtain ⟨rman, pc⟩ := c
      cases poolStep_cases hpool with
      | drain => exact .drained hc rfl rfl rfl
      | enqueue | lost | release | clear | quit | join =>
        exact .quiet rfl (clientNotes_piped (by simp))

/-! ## The events in the pipe -/

/-- The manager of the job that the worker has executed last. -/
def lastCompleted (w : Nat) : List Note → Option MgrPtr
  | [] => none
  | .completed w' m _ :: es => if w' = w then some m else lastCompleted w es
  | _ :: es => lastCompleted w es

/-- The events in the pipe, newest first: for each one the manager of the job that it reports. -/
def pipeEvents : List Note → List (Option MgrPtr)
  | [] => []
  | .sent w :: es => lastCompleted w es :: pipeEvents es
  | .drained _ :: _ => []
  | _ :: es => pipeEvents es

theorem pipeEvents_append (h : ∀ n ∈ ns, n.piped = false) :
    pipeEvents (ns ++ es) = pipeEvents es := by
  induction ns with
  | nil => rfl
  | cons n ns ih =>
    obtain ⟨hn, hns⟩ := List.forall_mem_cons.1 h
    rw [← ih hns]
    cases n with
    | sent | drained => cases hn
    | _ => rfl

/-- The pipe holds a byte for each event. -/
theorem pipe_of_run {numThreads : Nat} {as : List Action}
    (h : exec trace (.initial numThreads, []) as = some (s, es)) :
    s.pool.pipe = (pipeEvents es).length := by
  refine exec_invariant' (I := fun x : Sys × List Note => x.1.pool.pipe = (pipeEvents x.2).length)
    rfl ?_ h
  rintro ⟨s, es⟩ a ⟨s', es'⟩ hI hs
  obtain ⟨hs', rfl⟩ := record_eq_some.1 hs
  have hI : s.pool.pipe = (pipeEvents es).length := hI
  have hv := step_pipe hs'
  simp only
  generalize notes s a s' = ns at hv ⊢
  cases hv with
  | quiet hpipe hns => rw [hpipe, hI, pipeEvents_append hns]
  | sent _ _ hpipe =>
    rw [hpipe, hI]
    rfl
  | drained _ _ _ hpipe => exact hpipe

/-! ## Events of other managers -/

/-- No resource waits for its `done_func` call. -/
def NoneDue (rman : Rman) : Prop :=
  ∀ slot ∈ rman.res, ∀ p ∈ slot, ∀ r ∈ rman.heap p, r.donePending = false

instance (rman : Rman) : Decidable (NoneDue rman) :=
  inferInstanceAs (Decidable (∀ slot ∈ rman.res, ∀ p ∈ slot, ∀ r ∈ rman.heap p,
    r.donePending = false))

/-- The step of `m` does not turn a state in which the pipe holds an event for a job of
another manager into one in which the pipe is empty while this manager has a resource that
waits for its `done_func` call. -/
def NoSteal (m : MgrPtr) (x x' : Sys × List Note) : Prop :=
  ∀ b, b ≠ m → some b ∈ pipeEvents x.2 → x'.1.pool.pipe = 0 → ∀ c ∈ x'.1.clients b, NoneDue c.rman

/-- `resman_poll` empties the pipe only when no other manager with an event in it has a resource
that waits for its `done_func` call. -/
def DrainsOwn (x : Sys × List Note) : Action → Prop
  | .client m _ => (∃ c ∈ x.1.clients m, c.pc = .drain) → ∀ e ∈ pipeEvents x.2, ∀ b ∈ e, b ≠ m →
      ∀ c ∈ x.1.clients b, NoneDue c.rman
  | .create .. | .call .. | .worker .. => True

instance (x : Sys × List Note) : ∀ a, Decidable (DrainsOwn x a)
  | .client m _ => inferInstanceAs (Decidable ((∃ c ∈ x.1.clients m, c.pc = .drain) →
      ∀ e ∈ pipeEvents x.2, ∀ b ∈ e, b ≠ m → ∀ c ∈ x.1.clients b, NoneDue c.rman))
  | .create .. | .call .. | .worker .. => isTrue trivial

/-- A step of a client steals no event if and only if it does not empty the pipe, or may do so. -/
theorem noSteal_iff {o : Oracle} (hlen : s.pool.pipe = (pipeEvents es).length)
    (h : trace (s, es) (.client m o) = some (s', ns)) :
    NoSteal m (s, es) (s', ns) ↔ DrainsOwn (s, es) (.client m o) := by
  obtain ⟨hs, rfl⟩ := record_eq_some.1 h
  have hv := step_pipe hs
  generalize hnotes : notes s (.client m o) s' = ns at hv ⊢
  cases hv with
  | quiet hpipe hns =>
    refine ⟨fun _ ⟨c, hc, hpc⟩ => ?_, fun _ b _ he hzero => ?_⟩
    · obtain ⟨c', hc', -⟩ := step_notes hs hc
      have hdrain : .drained m ∈ ns := by
        simp [← hnotes, notes, show s.clients m = some c from hc, hc', hpc, clientNotes]
      cases hns _ hdrain
    · have hpos : 0 < (pipeEvents es).length := List.length_pos_of_mem he
      exact absurd hzero (by rw [hpipe, hlen]; exact hpos.ne')
  | drained hc hpc hcl hpipe =>
    have hother : ∀ b, b ≠ m → s'.clients b = s.clients b := fun b hb => by
      rw [hcl, Function.update_of_ne hb]
    constructor
    · intro hns _ e he b hb hne c hcb
      obtain rfl := hb
      exact hns b hne he hpipe c ((hother b hne).trans hcb)
    · intro hd b hne he _ c hcb
      exact hd ⟨_, hc, hpc⟩ _ he b rfl hne c ((hother b hne).symm.trans hcb)

/-- **No manager takes away another manager's events**, in the runs, and only in the runs, in which
`resman_poll` empties the pipe only when no other manager still needs an event in it. -/
theorem neverSteals_iff {numThreads : Nat} {as : List Action}
    (h : exec trace (.initial numThreads, []) as = some (s, es)) :
    (∀ pre m o x x', pre ++ [.client m o] <+: as →
      exec trace (.initial numThreads, []) pre = some x →
        trace x (.client m o) = some x' → NoSteal m x x') ↔
      Along trace DrainsOwn (.initial numThreads, []) as := by
  rw [along_iff_forall]
  constructor
  · rintro hall pre a ⟨s₁, es₁⟩ ⟨post, rfl⟩ hpre
    cases a with
    | create | call | worker => trivial
    | client m o =>
      rw [exec_append, Option.bind_eq_some_iff] at h
      obtain ⟨⟨s₂, es₂⟩, hx', -⟩ := h
      obtain ⟨x, hx, hstep⟩ := exec_snoc.1 hx'
      obtain rfl := Option.some.inj (hpre.symm.trans hx)
      exact (noSteal_iff (pipe_of_run hpre) hstep).1
        (hall pre m o _ _ (List.prefix_append _ _) hpre hstep)
  · rintro hC pre m o ⟨s₁, es₁⟩ ⟨s₂, es₂⟩ hpre hx hstep
    exact (noSteal_iff (pipe_of_run hx) hstep).2 (hC pre _ _ hpre hx)

/-- A file of manager 1 is loaded, and manager `m` takes `k` steps of `resman_poll`. -/
def pollsShared (m : MgrPtr) (k : Nat) : List Action :=
  [.create 0 true false, .create 1 true false, .call 1 (.add "a" 0 {})] ++ clientSteps 1 {} 3 ++
  workerSteps 0 {} 5 ++ .call m .poll :: clientSteps m {} k

theorem neverSteals_iff_pollsShared :
    Along trace DrainsOwn (.initial 1, []) (pollsShared 1 8) ∧
      ∀ pre m o x x', pre ++ [.client m o] <+: pollsShared 1 8 →
        exec trace (.initial 1, []) pre = some x → trace x (.client m o) = some x' →
          NoSteal m x x' := by
  have hC : Along trace DrainsOwn (.initial 1, []) (pollsShared 1 8) := by decide +kernel
  have h := (Option.some_get
    (by decide +kernel : (exec trace (.initial 1, []) (pollsShared 1 8)).isSome)).symm
  exact ⟨hC, (neverSteals_iff h).2 hC⟩

/-- The poll of manager 0 takes the event of manager 1 away. -/
theorem not_neverSteals_pollsShared :
    ¬ ∀ numThreads as s es, exec trace (.initial numThreads, []) as = some (s, es) →
      ∀ pre m o x x', pre ++ [.client m o] <+: as →
        exec trace (.initial numThreads, []) pre = some x →
        trace x (.client m o) = some x' → NoSteal m x x' := by
  intro hall
  have hrun : ((exec trace (.initial 1, []) (pollsShared 0 3)).any fun x =>
      (trace x (.client 0 {})).any fun x' => some 1 ∈ pipeEvents x.2 ∧ x'.1.pool.pipe = 0 ∧
        (x'.1.clients 1).any fun c => ¬ NoneDue c.rman) = true := by
    decide +kernel
  obtain ⟨x, hx, hrun⟩ := (Option.any_eq_true _ _).1 hrun
  obtain ⟨x', hx', hrun⟩ := (Option.any_eq_true _ _).1 hrun
  obtain ⟨hmem, hpipe, hany⟩ := of_decide_eq_true hrun
  obtain ⟨c, hc, hdue⟩ := (Option.any_eq_true _ _).1 hany
  have hsteal := hall 1 (pollsShared 0 3 ++ [.client 0 {}]) x'.1 x'.2 (exec_snoc.2 ⟨x, hx, hx'⟩)
    (pollsShared 0 3) 0 {} x x' List.prefix_rfl hx hx'
  exact of_decide_eq_true hdue (hsteal 1 (by decide) hmem hpipe c hc)

end Resman.Manager
