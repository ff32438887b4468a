import Resman.Lib.Outstanding
import Resman.Manager.Completion

/-!
# The load jobs in the history

The history of a system names the jobs only by their order: `jobs` replays it on an abstract work
queue, in which they are numbered and a job is one call, that of `load_func` for a resource.
`QueueStep` lists what one action does to the queue and the workers of the pool together with the
notes that it adds; `Matches` relates the pool to the replayed queue, and is kept by every step
(`Matches.step`), so in every run the pool has the jobs of the replay (`matches_of_run`).
`unfinished_step` counts the jobs for a resource that have been enqueued and not completed.
-/

namespace Resman.Manager

open Lib

/-- The replayed queue: what a job has to do is the call of `load_func` for a resource. -/
abbrev Jobs := WorkQueue (MgrPtr × ResPtr) Nat

/-! ## Replaying the history -/

def Note.replay (q : Jobs) : Note → Jobs
  | enqueued m p => q.link [(m, p)]
  | taken w => q.take w
  | loadReturned w _ _ _ => q.call w
  | completed w _ _ => q.finish w
  | cleared => q.clear
  | added _ _ _ _ | removed _ _ | destroyed _ | sent _ | drained _ | doneBegan _ _
  | doneReturned _ _ _ | condemned _ _ => q

/-- The jobs of the history. -/
def jobs (es : List Note) : Jobs := es.foldr (fun n q => n.replay q) .empty

/-- The note is about a job. -/
def Note.queued : Note → Bool
  | enqueued _ _ | taken _ | loadReturned _ _ _ _ | completed _ _ _ | cleared => true
  | _ => false

section Replay

variable {n : Note} {ns es : List Note} {q : Jobs}

theorem Note.replay_steps (n : Note) (q : Jobs) : WorkQueue.Steps q (n.replay q) := by
  cases n with
  | enqueued m p => exact q.link_steps _
  | taken w => exact q.take_steps w
  | loadReturned w => exact q.call_steps w
  | completed w => exact q.finish_steps w
  | cleared => exact q.clear_steps
  | _ => exact .refl

theorem Note.replay_of_not_queued (h : n.queued = false) : n.replay q = q := by
  cases n <;> first | rfl | cases h

theorem jobs_append : ∀ ns : List Note, WorkQueue.Steps (jobs es) (jobs (ns ++ es))
  | [] => .refl
  | n :: ns => (jobs_append ns).trans (n.replay_steps _)

theorem jobs_append_of_not_queued (h : ∀ n ∈ ns, n.queued = false) : jobs (ns ++ es) = jobs es := by
  induction ns with
  | nil => rfl
  | cons n ns ih =>
    obtain ⟨hn, hns⟩ := List.forall_mem_cons.1 h
    rw [← ih hns]
    exact n.replay_of_not_queued hn

/-- Whatever happened, the replayed queue is in order. -/
theorem jobs_ok (es : List Note) : (jobs es).Ok := by
  have hsteps : WorkQueue.Steps (jobs []) (jobs (es ++ [])) := jobs_append es
  rw [List.append_nil] at hsteps
  exact WorkQueue.Ok.empty.steps hsteps

end Replay

/-! ## Steps of the pool with their notes -/

/-- The calls that a worker has made for its job, and those that are left. -/
def Worker.run : Worker → Option (List (MgrPtr × ResPtr) × List (MgrPtr × ResPtr))
  | taken j | loading j => some ([], [(j.rman, j.res)])
  | loaded j => some ([(j.rman, j.res)], [])
  | idle | finishing | exited => none

/-- What the worker `w` does for its job. -/
def Pool.run (pool : Pool) (w : Nat) : Option (List (MgrPtr × ResPtr) × List (MgrPtr × ResPtr)) :=
  pool.workers[w]?.bind Worker.run

/-- What an action does to the queue and the workers, with its notes. -/
inductive QueueStep (pool : Pool) : Pool → List Note → Prop where
  | quiet {pool' : Pool} {ns : List Note} (hqueue : pool'.queue = pool.queue)
      (hrun : pool'.run = pool.run) (hns : ∀ n ∈ ns, n.queued = false) : QueueStep pool pool' ns
  | enqueued {pool' : Pool} {m : MgrPtr} {p : ResPtr} {t : TaskPtr}
      (hqueue : pool'.queue = pool.queue ++ [⟨t, m, p⟩]) (hrun : pool'.run = pool.run) :
      QueueStep pool pool' [.enqueued m p]
  | cleared {pool' : Pool} (hqueue : pool'.queue = []) (hrun : pool'.run = pool.run) :
      QueueStep pool pool' [.cleared]
  | taken {pool' : Pool} {w : Nat} {j : Job} (hw : pool.run w = none)
      (hqueue : pool.queue = j :: pool'.queue)
      (hrun : pool'.run = Function.update pool.run w (some ([], [(j.rman, j.res)]))) :
      QueueStep pool pool' [.taken w]
  | returned {pool' : Pool} {w : Nat} {j : Job} {ret : Int}
      (hw : pool.run w = some ([], [(j.rman, j.res)])) (hqueue : pool'.queue = pool.queue)
      (hrun : pool'.run = Function.update pool.run w (some ([(j.rman, j.res)], []))) :
      QueueStep pool pool' [.loadReturned w j.rman j.res ret]
  | completed {pool' : Pool} {w : Nat} {j : Job} {rman : Rman}
      (hw : pool.run w = some ([(j.rman, j.res)], [])) (hqueue : pool'.queue = pool.queue)
      (hrun : pool'.run = Function.update pool.run w none) :
      QueueStep pool pool' (completionNotes w j.rman rman j.res)

section Cases

variable {s s' : Sys} {a : Action} {pool : Pool} {w : Nat} {wk wk' : Worker} {o : Oracle}

theorem run_setWorker (pool : Pool) (wk' : Worker) (h : pool.workers[w]? = some wk) :
    (pool.setWorker w wk').run = Function.update pool.run w wk'.run := by
  funext w'
  rw [Pool.run, Pool.setWorker, List.getElem?_set]
  by_cases hw : w = w'
  · subst hw
    obtain ⟨hlt, -⟩ := List.getElem?_eq_some_iff.1 h
    simp [hlt]
  · simp [hw, Ne.symm hw, Pool.run]

theorem run_setWorker_same (pool : Pool) (h : pool.workers[w]? = some wk)
    (hrun : wk'.run = wk.run) :
    (pool.setWorker w wk').run = pool.run := by
  rw [run_setWorker pool wk' h, hrun, Function.update_eq_self_iff, Pool.run, h]
  rfl

theorem run_eq (h : pool.workers[w]? = some wk) : pool.run w = wk.run := by
  rw [Pool.run, h]
  rfl

theorem workerStep_queue (h : workerStep s w o = some s') :
    QueueStep s.pool s'.pool (workerNotes s w o) := by
  cases workerStep_cases h with
  | exit hw hquit =>
    exact .quiet rfl (run_setWorker_same _ hw rfl) (by simp [workerNotes, hw, hquit])
  | @take j queue hw hquit hqueue =>
    have hns : workerNotes s w o = [.taken w] := by simp [workerNotes, hw, hquit]
    rw [hns]
    exact .taken (run_eq hw) hqueue (run_setWorker { s.pool with queue } _ hw)
  | sent hw =>
    exact .quiet rfl (run_setWorker_same { s.pool with pipe := _ } hw rfl)
      (by simp [workerNotes, hw, Note.queued])
  | taken hw => exact .quiet rfl (run_setWorker_same _ hw rfl) (by simp [workerNotes, hw])
  | returned hw =>
    rw [workerNotes, hw]
    exact .returned (run_eq hw) rfl (run_setWorker _ _ hw)
  | completed hw hc =>
    simp only [workerNotes, hw, hc]
    exact .completed (run_eq hw) rfl (run_setWorker _ _ hw)

theorem callNotes_queued {m : MgrPtr} {rman : Rman} {f : Call} {pc' : Pc} :
    ∀ n ∈ callNotes m rman f pc', n.queued = false := by
  intro n hn
  cases callNotes_cases hn <;> rfl

theorem clientNotes_queued {m : MgrPtr} {rman rman' : Rman} {pc pc' : Pc}
    (h : localStep rman o pc = some (rman', pc')) :
    ∀ n ∈ clientNotes m o pc pc', n.queued = false := by
  intro n hn
  cases clientNotes_cases hn with
  | enqueued | drained | cleared => cases h
  | doneBegan | condemned | doneReturned => rfl

/-- **The cases of an action for the pool.** -/
theorem step_queue (h : step s a = some s') : QueueStep s.pool s'.pool (notes s a s') := by
  cases ha : a.client? with
  | none =>
    cases a with
    | worker w o => exact workerStep_queue h
    | create | call | client => cases ha
  | some m =>
    rcases client_step_cases h ha with
      ⟨d, f, rfl, -, rfl⟩ | ⟨f, c, rman', pc', rfl, hc, -, -, rfl⟩ |
      ⟨o, c, rfl, hc, ⟨rman', pc', hlocal, rfl⟩ | ⟨pool', pc', hpool, rfl⟩⟩
    · exact .quiet rfl rfl fun n hn => (by cases hn)
    · simp only [notes, hc, Function.update_self]
      exact .quiet rfl rfl callNotes_queued
    · simp only [notes, hc, Function.update_self]
      exact .quiet rfl rfl (clientNotes_queued hlocal)
    · simp only [notes, hc, Function.update_self]
      obtain ⟨rman, pc⟩ := c
      cases poolStep_cases hpool with
      | enqueue hmem =>
        rw [clientNotes, if_pos hmem]
        exact .enqueued rfl rfl
      | lost hmem =>
        rw [clientNotes, if_neg (by simp [hmem])]
        exact .quiet rfl rfl fun n hn => (by cases hn)
      | clear => exact .cleared rfl rfl
      | drain => exact .quiet rfl rfl fun n hn => List.mem_singleton.1 hn ▸ rfl
      | release | quit | join => exact .quiet rfl rfl fun n hn => (by cases clientNotes_cases hn)

end Cases

/-! ## The pool and the replay -/

/-- The replay has the jobs of the pool in its queue and in its workers. -/
structure Matches (pool : Pool) (q : Jobs) : Prop where
  queue : q.queue.map Prod.snd = pool.queue.map fun j => [(j.rman, j.res)]
  run : ∀ w, (q.running w).map (fun r => (r.made, r.rest)) = pool.run w

section Matches

variable {pool pool' : Pool} {es ns : List Note} {q : Jobs} {w : Nat} {m : MgrPtr} {p : ResPtr}

theorem jobs_completionNotes {rman : Rman} :
    jobs (completionNotes w m rman p ++ es) = (jobs es).finish w := by
  unfold completionNotes
  split <;> rfl

/-- One worker goes on, in the pool and in the replay. -/
theorem Matches.run_update {r : Option (Running (MgrPtr × ResPtr))} (h : Matches pool q)
    (w' : Nat) : (Function.update q.running w r w').map (fun r => (r.made, r.rest)) =
      Function.update pool.run w (r.map fun r => (r.made, r.rest)) w' := by
  by_cases hw : w' = w
  · subst hw
    simp
  · simp [hw, h.run]

/-- The worker executes a job in the replay. -/
theorem Matches.running (h : Matches pool q) {made rest : List (MgrPtr × ResPtr)}
    (hw : pool.run w = some (made, rest)) : ∃ id, q.running w = some ⟨id, made, rest⟩ := by
  obtain ⟨⟨id, made', rest'⟩, hr, heq⟩ := Option.map_eq_some_iff.1 ((h.run w).trans hw)
  obtain ⟨rfl, rfl⟩ := Prod.mk.inj heq
  exact ⟨id, hr⟩

/-- Every step keeps the pool and the replay together. -/
theorem Matches.step (h : Matches pool (jobs es)) (hs : QueueStep pool pool' ns) :
    Matches pool' (jobs (ns ++ es)) := by
  cases hs with
  | quiet hqueue hrun hns =>
    rw [jobs_append_of_not_queued hns]
    exact ⟨hqueue ▸ h.queue, hrun ▸ h.run⟩
  | @enqueued m p t hqueue hrun =>
    refine ⟨?_, hrun ▸ h.run⟩
    show ((jobs es).queue ++ [((jobs es).nlinked, [(m, p)])]).map Prod.snd = _
    rw [List.map_append, h.queue, hqueue, List.map_append]
    rfl
  | cleared hqueue hrun => exact ⟨by rw [hqueue]; rfl, hrun ▸ h.run⟩
  | @taken w j hw hqueue hrun =>
    have hrunning : (jobs es).running w = none := Option.map_eq_none_iff.1 ((h.run w).trans hw)
    have hhead := h.queue
    rw [hqueue, List.map_cons] at hhead
    obtain ⟨⟨id, job⟩, queue, hq, rfl, hqueue'⟩ := List.map_eq_cons_iff.1 hhead
    have htake : jobs ([.taken w] ++ es) = { jobs es with
        queue
        running := Function.update (jobs es).running w (some ⟨id, [], [(j.rman, j.res)]⟩)
        log := .taken id w :: (jobs es).log } := by
      show (jobs es).take w = _
      rw [WorkQueue.take, hq, hrunning]
    rw [htake]
    exact ⟨hqueue', fun w' => by rw [h.run_update, hrun]; rfl⟩
  | @returned w j ret hw hqueue hrun =>
    obtain ⟨id, hrunning⟩ := h.running hw
    have hcall : jobs ([.loadReturned w j.rman j.res ret] ++ es) = { jobs es with
        running := Function.update (jobs es).running w (some ⟨id, [(j.rman, j.res)], []⟩)
        log := .called id w (j.rman, j.res) :: (jobs es).log } := by
      show (jobs es).call w = _
      rw [WorkQueue.call, hrunning]
      rfl
    rw [hcall]
    exact ⟨hqueue ▸ h.queue, fun w' => by rw [h.run_update, hrun]; rfl⟩
  | @completed w j rman hw hqueue hrun =>
    obtain ⟨id, hrunning⟩ := h.running hw
    rw [jobs_completionNotes, WorkQueue.finish, hrunning]
    exact ⟨hqueue ▸ h.queue, fun w' => by rw [h.run_update, hrun]; rfl⟩

theorem Matches.initial (numThreads : Nat) : Matches (Sys.initial numThreads).pool (jobs []) := by
  refine ⟨rfl, fun w => ?_⟩
  show none = ((List.replicate numThreads Worker.idle)[w]?).bind Worker.run
  rw [List.getElem?_replicate]
  split <;> rfl

/-- **The pool refines the replayed queue**, in every run. -/
theorem matches_of_run {numThreads : Nat} {as : List Action} {s : Sys}
    (h : exec trace (.initial numThreads, []) as = some (s, es)) : Matches s.pool (jobs es) := by
  refine exec_invariant' (I := fun x : Sys × List Note => Matches x.1.pool (jobs x.2))
    (.initial numThreads) ?_ h
  rintro ⟨s, es⟩ a ⟨s', es'⟩ hI hs
  obtain ⟨hs', rfl⟩ := record_eq_some.1 hs
  exact hI.step (step_queue hs')

end Matches

/-! ## Unfinished jobs -/

/-- The number of jobs for a resource that have been enqueued, and that no worker has completed. -/
def unfinished (m : MgrPtr) (es : List Note) (p : ResPtr) : Nat :=
  (WorkQueue.unfinished [(m, p)] (jobs es)).card

/-- A job for the resource is enqueued. -/
def Note.enqueues (m : MgrPtr) (p : ResPtr) : Note → Bool
  | enqueued m' p' => m' = m ∧ p' = p
  | _ => false

section Unfinished

variable {pool pool' : Pool} {es ns : List Note} {m : MgrPtr} {p : ResPtr}

/-- Notes that are not about jobs of `m` neither enqueue nor complete one. -/
theorem countP_of_not_queued (h : ∀ n ∈ ns, n.queued = false ∨ n.rman ≠ some m) :
    ns.countP (Note.completes m p) = 0 ∧ ns.countP (Note.enqueues m p) = 0 := by
  rw [List.countP_eq_zero, List.countP_eq_zero]
  refine ⟨fun n hn hc => ?_, fun n hn hc => ?_⟩
  · cases n with
    | completed w m' p' =>
      have heq : m' = m ∧ p' = p := by simpa [Note.completes] using hc
      exact (h _ hn).elim (fun hq => by cases hq) fun hne => hne (congrArg some heq.1)
    | _ => cases hc
  · cases n with
    | enqueued m' p' =>
      have heq : m' = m ∧ p' = p := by simpa [Note.enqueues] using hc
      exact (h _ hn).elim (fun hq => by cases hq) fun hne => hne (congrArg some heq.1)
    | _ => cases hc

theorem completes_completionNotes {w : Nat} {m' : MgrPtr} {p' : ResPtr} {rman : Rman} :
    (completionNotes w m' rman p').countP (Note.completes m p) =
      if m' = m ∧ p' = p then 1 else 0 := by
  unfold completionNotes
  split <;> simp [Note.completes, List.countP_cons]

theorem enqueues_completionNotes {w : Nat} {m' : MgrPtr} {p' : ResPtr} {rman : Rman} :
    (completionNotes w m' rman p').countP (Note.enqueues m p) = 0 := by
  unfold completionNotes
  split <;> rfl

/-- **Every unfinished job is accounted for**: a step adds those that it enqueues and subtracts
those that it completes. -/
theorem unfinished_step (h : Matches pool (jobs es)) (hs : QueueStep pool pool' ns) (p : ResPtr) :
    unfinished m (ns ++ es) p + ns.countP (Note.completes m p) =
      unfinished m es p + ns.countP (Note.enqueues m p) := by
  cases hs with
  | quiet hqueue hrun hns =>
    obtain ⟨hc, he⟩ := countP_of_not_queued (m := m) (p := p) fun n hn => .inl (hns n hn)
    rw [hc, he, unfinished, jobs_append_of_not_queued hns]
    rfl
  | @enqueued m' p' t hqueue hrun =>
    refine (WorkQueue.card_unfinished_link (jobs_ok es) [(m', p')]).trans ?_
    simp [unfinished, Note.enqueues]
  | cleared => exact congrArg Finset.card WorkQueue.unfinished_clear
  | taken => exact congrArg Finset.card WorkQueue.unfinished_take
  | returned => exact congrArg Finset.card WorkQueue.unfinished_call
  | @completed w j rman hw hqueue hrun =>
    obtain ⟨id, hrunning⟩ := h.running hw
    have hcard := WorkQueue.card_unfinished_finish (jobs_ok es) hrunning [(m, p)]
    rw [completes_completionNotes, enqueues_completionNotes, unfinished, jobs_completionNotes]
    simpa [unfinished] using hcard

end Unfinished

end Resman.Manager
