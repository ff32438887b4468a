import Mathlib.Data.List.Nodup
import Mathlib.Data.List.Range
import Mathlib.Logic.Function.Basic
import Mathlib.Logic.Relation

/-!
# A work queue

Jobs are linked into a queue and numbered in that order; workers take them from its front, make the
calls that a job consists of and finish it; the front of the queue may also be discarded. This is
what a thread pool is for, without its lists, locks and counters: `C` is the type of calls, `W` that
of workers.

* `Step` lists what can happen, and every step is recorded in `log`, newest event first.
* `Ok` is the invariant: the history of every job fits the place where it is. It starts with an
  empty queue (`Ok.empty`) and is kept by every step (`Ok.step`).
* `Ok.existsUnique_inState` and `Ok.linkedIds_eq` are what it gives: a linked job is in exactly one
  state, with the calls that belong to it, and jobs leave the queue in the order in which they were
  linked.
-/

namespace Resman.Lib

/-- What happens to a job. -/
inductive JobEvent (C W : Type*) where
  | linked (id : Nat) (job : List C)
  | taken (id : Nat) (w : W)
  | called (id : Nat) (w : W) (call : C)
  | finished (id : Nat) (w : W)
  | discarded (id : Nat)
  deriving DecidableEq, Repr

/-- A job that a worker executes: the calls that it has made, and the calls that are left. -/
structure Running (C : Type*) where
  id : Nat
  made : List C
  rest : List C

structure WorkQueue (C W : Type*) where
  queue : List (Nat × List C)
  running : W → Option (Running C)
  nlinked : Nat
  log : List (JobEvent C W)

/-- Where a job is. -/
inductive JobState (W : Type*) where
  | queued
  | executing (w : W)
  | finished (w : W)
  | discarded

variable {C W : Type*}

/-! ## Histories -/

def JobEvent.id : JobEvent C W → Nat
  | linked id _ | taken id _ | called id _ _ | finished id _ | discarded id => id

/-- The events of a job, oldest first. -/
def history (id : Nat) (log : List (JobEvent C W)) : List (JobEvent C W) :=
  (log.filter (·.id = id)).reverse

/-- Where the event leaves its job. -/
def JobEvent.state : JobEvent C W → JobState W
  | linked _ _ => .queued
  | taken _ w | called _ w _ => .executing w
  | finished _ w => .finished w
  | discarded _ => .discarded

def JobEvent.linkedId? : JobEvent C W → Option Nat
  | linked id _ => some id
  | _ => none

def JobEvent.takenId? : JobEvent C W → Option Nat
  | taken id _ => some id
  | _ => none

def JobEvent.removedId? : JobEvent C W → Option Nat
  | taken id _ | discarded id => some id
  | _ => none

/-- The jobs in the order in which they were linked. -/
def linkedIds (log : List (JobEvent C W)) : List Nat := (log.filterMap JobEvent.linkedId?).reverse

/-- The jobs in the order in which workers took them. -/
def takenIds (log : List (JobEvent C W)) : List Nat := (log.filterMap JobEvent.takenId?).reverse

/-- The jobs in the order in which they left the queue. -/
def removedIds (log : List (JobEvent C W)) : List Nat :=
  (log.filterMap JobEvent.removedId?).reverse

section History

variable {id : Nat} {e : JobEvent C W} {log : List (JobEvent C W)}

theorem mem_history : e ∈ history id log ↔ e ∈ log ∧ e.id = id := by simp [history]

theorem history_cons (h : e.id = id) : history id (e :: log) = history id log ++ [e] := by
  simp [history, h]

theorem history_cons_of_ne (h : e.id ≠ id) : history id (e :: log) = history id log := by
  simp [history, h]

theorem linkedIds_cons : linkedIds (e :: log) = linkedIds log ++ e.linkedId?.toList := by
  rw [linkedIds, List.filterMap_cons]
  cases e.linkedId? <;> simp [linkedIds]

theorem removedIds_cons : removedIds (e :: log) = removedIds log ++ e.removedId?.toList := by
  rw [removedIds, List.filterMap_cons]
  cases e.removedId? <;> simp [removedIds]

theorem takenIds_sublist : (takenIds log).Sublist (removedIds log) := by
  refine List.Sublist.reverse ?_
  induction log with
  | nil => exact .slnil
  | cons e log ih =>
    cases e with
    | taken id w => exact ih.cons_cons id
    | discarded id => exact ih.cons id
    | linked | called | finished => exact ih

end History

/-! ## Steps -/

namespace WorkQueue

def empty : WorkQueue C W := ⟨[], fun _ => none, 0, []⟩

section Steps

variable [DecidableEq W]

inductive Step (q : WorkQueue C W) : WorkQueue C W → Prop where
  | link (job : List C) : Step q { q with
      queue := q.queue ++ [(q.nlinked, job)]
      nlinked := q.nlinked + 1
      log := .linked q.nlinked job :: q.log }
  | take {id : Nat} {job : List C} {queue : List (Nat × List C)} {w : W}
      (hq : q.queue = (id, job) :: queue) (hw : q.running w = none) : Step q { q with
        queue
        running := Function.update q.running w (some ⟨id, [], job⟩)
        log := .taken id w :: q.log }
  | call {id : Nat} {made rest : List C} {call : C} {w : W}
      (hw : q.running w = some ⟨id, made, call :: rest⟩) : Step q { q with
        running := Function.update q.running w (some ⟨id, made ++ [call], rest⟩)
        log := .called id w call :: q.log }
  | finish {id : Nat} {made : List C} {w : W} (hw : q.running w = some ⟨id, made, []⟩) :
      Step q { q with
        running := Function.update q.running w none
        log := .finished id w :: q.log }
  | discard {id : Nat} {job : List C} {queue : List (Nat × List C)}
      (hq : q.queue = (id, job) :: queue) : Step q { q with
        queue
        log := .discarded id :: q.log }

/-- Any number of steps. -/
abbrev Steps : WorkQueue C W → WorkQueue C W → Prop := Relation.ReflTransGen Step

/-- All jobs in the queue can be discarded, one by one. -/
theorem steps_clear (queue : List (Nat × List C)) (running : W → Option (Running C)) (nlinked : Nat)
    (log : List (JobEvent C W)) : Steps ⟨queue, running, nlinked, log⟩
      ⟨[], running, nlinked, ((queue.map Prod.fst).map .discarded).reverse ++ log⟩ := by
  induction queue generalizing log with
  | nil => exact .refl
  | cons e queue ih =>
    refine .head (.discard (q := ⟨e :: queue, running, nlinked, log⟩) rfl) ?_
    simpa using ih (.discarded e.1 :: log)

end Steps

/-! ## The invariant -/

/-- The history of a job that a worker executes. -/
def runningHistory (w : W) (r : Running C) : List (JobEvent C W) :=
  .linked r.id (r.made ++ r.rest) :: .taken r.id w :: r.made.map (.called r.id w)

/-- The history of a finished job: it was taken once, and its calls were made in
order, once each. -/
def finishedHistory (id : Nat) (job : List C) (w : W) : List (JobEvent C W) :=
  .linked id job :: .taken id w :: (job.map (.called id w) ++ [.finished id w])

/-- The job is in a state, and its history is the one that belongs to the state. -/
def InState (q : WorkQueue C W) (id : Nat) : JobState W → Prop
  | .queued => ∃ job, (id, job) ∈ q.queue ∧ history id q.log = [.linked id job]
  | .executing w => ∃ r, q.running w = some r ∧ r.id = id ∧ history id q.log = runningHistory w r
  | .finished w => ∃ job, history id q.log = finishedHistory id job w
  | .discarded => ∃ job, history id q.log = [.linked id job, .discarded id]

/-- When nothing is queued or executed, a linked job has been discarded, or all
of its calls have been made. -/
theorem InState.settled {q : WorkQueue C W} {id : Nat} {st : JobState W} {job : List C}
    (h : q.InState id st) (hqueue : q.queue = []) (hrunning : ∀ w, q.running w = none)
    (hlinked : .linked id job ∈ q.log) :
    .discarded id ∈ q.log ∨ ∃ w, ∀ c ∈ job, .called id w c ∈ q.log := by
  have hmem : JobEvent.linked id job ∈ history id q.log := mem_history.2 ⟨hlinked, rfl⟩
  cases st with
  | queued =>
    obtain ⟨job', hjob, -⟩ := h
    rw [hqueue] at hjob
    cases hjob
  | executing w =>
    obtain ⟨r, hr, -⟩ := h
    rw [hrunning w] at hr
    cases hr
  | finished w =>
    obtain ⟨job', hhist⟩ := h
    obtain rfl : job = job' := by simpa [hhist, finishedHistory] using hmem
    refine .inr ⟨w, fun c hc => ?_⟩
    have hcalled : JobEvent.called id w c ∈ history id q.log := by
      rw [hhist, finishedHistory]
      simp [hc]
    exact (mem_history.1 hcalled).1
  | discarded =>
    obtain ⟨job', hhist⟩ := h
    have hdiscarded : JobEvent.discarded id ∈ history id q.log := by simp [hhist]
    exact .inl (mem_history.1 hdiscarded).1

/-- A job stays in its state when it stays where it is and nothing is recorded for it. -/
theorem InState.frame {q q' : WorkQueue C W} {id : Nat} {st : JobState W} (h : q.InState id st)
    (hqueue : ∀ job, (id, job) ∈ q.queue → (id, job) ∈ q'.queue)
    (hrunning : ∀ w, ∀ r ∈ q.running w, r.id = id → r ∈ q'.running w)
    (hlog : history id q'.log = history id q.log) : q'.InState id st := by
  cases st with
  | queued =>
    obtain ⟨job, hjob, hhist⟩ := h
    exact ⟨job, hqueue job hjob, hlog.trans hhist⟩
  | executing w =>
    obtain ⟨r, hr, hid, hhist⟩ := h
    exact ⟨r, hrunning w r hr hid, hid, hlog.trans hhist⟩
  | finished w =>
    obtain ⟨job, hhist⟩ := h
    exact ⟨job, hlog.trans hhist⟩
  | discarded =>
    obtain ⟨job, hhist⟩ := h
    exact ⟨job, hlog.trans hhist⟩

/-- The state can be read off the last event. -/
theorem InState.last {q : WorkQueue C W} {id : Nat} {st : JobState W} (h : q.InState id st) :
    (history id q.log).getLast?.map JobEvent.state = some st := by
  cases st with
  | queued =>
    obtain ⟨job, -, hhist⟩ := h
    rw [hhist]
    rfl
  | executing w =>
    obtain ⟨r, -, -, hhist⟩ := h
    rw [hhist, runningHistory]
    rcases List.eq_nil_or_concat r.made with hmade | ⟨made, c, hmade⟩
    · simp [hmade, JobEvent.state]
    · simp [hmade, JobEvent.state, List.getLast?_cons]
  | finished w =>
    obtain ⟨job, hhist⟩ := h
    rw [hhist, finishedHistory]
    simp [JobEvent.state, List.getLast?_cons]
  | discarded =>
    obtain ⟨job, hhist⟩ := h
    rw [hhist]
    rfl

structure Ok (q : WorkQueue C W) : Prop where
  linked : linkedIds q.log = List.range q.nlinked
  fifo : removedIds q.log ++ q.queue.map Prod.fst = linkedIds q.log
  fresh : ∀ id, q.nlinked ≤ id → history id q.log = []
  queued : ∀ e ∈ q.queue, history e.1 q.log = [.linked e.1 e.2]
  running : ∀ w, ∀ r ∈ q.running w, history r.id q.log = runningHistory w r
  inState : ∀ id < q.nlinked, ∃ st, q.InState id st

namespace Ok

variable {q : WorkQueue C W}

theorem empty : (empty : WorkQueue C W).Ok where
  linked := rfl
  fifo := rfl
  fresh _ _ := rfl
  queued e he := by cases he
  running w r hr := by cases hr
  inState id hid := absurd hid (Nat.not_lt_zero id)

theorem queue_lt (h : q.Ok) {e : Nat × List C} (he : e ∈ q.queue) : e.1 < q.nlinked := by
  by_contra hle
  exact absurd ((h.queued e he).symm.trans (h.fresh e.1 (Nat.not_lt.1 hle))) (by simp)

theorem running_lt (h : q.Ok) {w : W} {r : Running C} (hr : r ∈ q.running w) :
    r.id < q.nlinked := by
  by_contra hle
  have hnil := (h.running w r hr).symm.trans (h.fresh r.id (Nat.not_lt.1 hle))
  exact absurd hnil (by simp [runningHistory])

/-- A job is in the queue once. -/
theorem nodup (h : q.Ok) : (q.queue.map Prod.fst).Nodup := by
  refine List.Nodup.sublist (List.sublist_append_right (removedIds q.log) _) ?_
  rw [h.fifo, h.linked]
  exact List.nodup_range

/-- A job in the queue is not executed. -/
theorem queue_ne_running (h : q.Ok) {e : Nat × List C} {w : W} {r : Running C} (he : e ∈ q.queue)
    (hr : r ∈ q.running w) : e.1 ≠ r.id := by
  intro heq
  have hq := h.queued e he
  rw [heq, h.running w r hr] at hq
  simp [runningHistory] at hq

/-- A job is executed by one worker. -/
theorem running_inj (h : q.Ok) {w w' : W} {r r' : Running C} (hr : r ∈ q.running w)
    (hr' : r' ∈ q.running w') (heq : r.id = r'.id) : w = w' := by
  have hw := h.running w r hr
  rw [heq, h.running w' r' hr'] at hw
  simp only [runningHistory, List.cons.injEq, JobEvent.taken.injEq] at hw
  exact hw.2.1.2.symm

/-! ## Steps keep the invariant -/

variable {id : Nat} {job made rest : List C} {c : C} {queue : List (Nat × List C)} {w : W}

theorem link (h : q.Ok) (job : List C) : Ok { q with
    queue := q.queue ++ [(q.nlinked, job)]
    nlinked := q.nlinked + 1
    log := .linked q.nlinked job :: q.log } := by
  have hself : history q.nlinked (.linked q.nlinked job :: q.log) = [.linked q.nlinked job] := by
    refine Eq.trans (history_cons rfl) ?_
    rw [h.fresh _ le_rfl]
    rfl
  have hother : ∀ id ≠ q.nlinked, history id (.linked q.nlinked job :: q.log) = history id q.log :=
    fun id hid => history_cons_of_ne (Ne.symm hid)
  refine ⟨?_, ?_, fun id hid => ?_, fun e he => ?_, fun w r hr => ?_, fun id hid => ?_⟩
  · show linkedIds (.linked q.nlinked job :: q.log) = List.range (q.nlinked + 1)
    rw [linkedIds_cons, h.linked, List.range_succ]
    rfl
  · show removedIds (.linked q.nlinked job :: q.log) ++ (q.queue ++ [_]).map Prod.fst =
      linkedIds (.linked q.nlinked job :: q.log)
    rw [removedIds_cons, linkedIds_cons, ← h.fifo]
    simp [JobEvent.removedId?, JobEvent.linkedId?]
  · have hlt : q.nlinked < id := hid
    exact (hother id hlt.ne').trans (h.fresh id hlt.le)
  · rcases List.mem_append.1 he with he | he
    · exact (hother e.1 (h.queue_lt he).ne).trans (h.queued e he)
    · obtain rfl := List.mem_singleton.1 he
      exact hself
  · exact (hother r.id (h.running_lt hr).ne).trans (h.running w r hr)
  · rcases Nat.lt_succ_iff_lt_or_eq.1 hid with hlt | rfl
    · obtain ⟨st, hst⟩ := h.inState id hlt
      exact ⟨st, hst.frame (fun _ hjob => List.mem_append_left _ hjob) (fun _ _ hr _ => hr)
        (hother id hlt.ne)⟩
    · exact ⟨.queued, job, List.mem_append_right _ List.mem_cons_self, hself⟩

/-- The head of the queue leaves it, and goes to a worker or to none. -/
theorem remove (h : q.Ok) (hq : q.queue = (id, job) :: queue) {e : JobEvent C W} (he : e.id = id)
    (hlinked : e.linkedId? = none) (hremoved : e.removedId? = some id)
    {running' : W → Option (Running C)} (hold : ∀ w, ∀ r ∈ q.running w, r ∈ running' w)
    (hnew : ∀ w, ∀ r ∈ running' w, r ∈ q.running w ∨
      r.id = id ∧ [.linked id job, e] = runningHistory w r)
    (hstate : history id (e :: q.log) = [.linked id job, e] → ∃ st,
      InState ⟨queue, running', q.nlinked, e :: q.log⟩ id st) :
    Ok ⟨queue, running', q.nlinked, e :: q.log⟩ := by
  have hhead : (id, job) ∈ q.queue := hq ▸ List.mem_cons_self
  have hself : history id (e :: q.log) = [.linked id job, e] := by
    rw [history_cons he, h.queued _ hhead]
    rfl
  have hother : ∀ i ≠ id, history i (e :: q.log) = history i q.log :=
    fun i hi => history_cons_of_ne (he ▸ Ne.symm hi)
  have hlt : id < q.nlinked := h.queue_lt hhead
  refine ⟨?_, ?_, fun i hi => ?_, fun e' he' => ?_, fun w r hr => ?_, fun i hi => ?_⟩
  · show linkedIds (e :: q.log) = _
    rw [linkedIds_cons, hlinked, h.linked]
    exact List.append_nil _
  · show removedIds (e :: q.log) ++ queue.map Prod.fst = linkedIds (e :: q.log)
    rw [removedIds_cons, linkedIds_cons, hremoved, hlinked, ← h.fifo, hq]
    simp
  · have hle : q.nlinked ≤ i := hi
    exact (hother i (hlt.trans_le hle).ne').trans (h.fresh i hle)
  · have hnodup := h.nodup
    rw [hq, List.map_cons, List.nodup_cons] at hnodup
    have hne : e'.1 ≠ id := fun heq => hnodup.1 (List.mem_map.2 ⟨e', he', heq⟩)
    exact (hother e'.1 hne).trans (h.queued e' (hq ▸ List.mem_cons_of_mem _ he'))
  · rcases hnew w r hr with hr | ⟨rfl, hhist⟩
    · exact (hother r.id (h.queue_ne_running hhead hr).symm).trans (h.running w r hr)
    · exact hself.trans hhist
  · by_cases hid : i = id
    · subst hid
      exact hstate hself
    · obtain ⟨st, hst⟩ := h.inState i hi
      refine ⟨st, hst.frame (fun job' hjob => ?_) (fun w r hr _ => hold w r hr) (hother i hid)⟩
      rw [hq] at hjob
      exact (List.mem_cons.1 hjob).resolve_left fun heq => hid (congrArg Prod.fst heq)

theorem discard (h : q.Ok) (hq : q.queue = (id, job) :: queue) : Ok { q with
    queue
    log := .discarded id :: q.log } :=
  h.remove hq rfl rfl rfl (fun _ _ hr => hr) (fun _ _ hr => .inl hr)
    fun hhist => ⟨.discarded, job, hhist⟩

section Steps

variable [DecidableEq W]

theorem take (h : q.Ok) (hq : q.queue = (id, job) :: queue) (hw : q.running w = none) : Ok { q with
    queue
    running := Function.update q.running w (some ⟨id, [], job⟩)
    log := .taken id w :: q.log } := by
  refine h.remove hq rfl rfl rfl (fun w' r hr => ?_) (fun w' r hr => ?_) fun hhist => ?_
  · have hne : w' ≠ w := by
      rintro rfl
      exact absurd (hw.symm.trans hr) (by simp)
    exact (Function.update_of_ne hne _ _).trans hr
  · by_cases hne : w' = w
    · subst hne
      obtain rfl : (⟨id, [], job⟩ : Running C) = r := by simpa using hr
      exact .inr ⟨rfl, rfl⟩
    · exact .inl (by simpa [hne] using hr)
  · exact ⟨.executing w, ⟨id, [], job⟩, Function.update_self _ _ _, rfl, hhist⟩

/-- A job in a worker: what is recorded for it concerns no other job. -/
theorem record (h : q.Ok) {r : Running C} {e : JobEvent C W} (hw : q.running w = some r)
    (he : e.id = r.id) (hlinked : e.linkedId? = none) (hremoved : e.removedId? = none)
    {next : Option (Running C)} (hnext : ∀ r' ∈ next, r'.id = r.id ∧
      history r.id (e :: q.log) = runningHistory w r')
    (hstate : next = none → ∃ job, history r.id (e :: q.log) = finishedHistory r.id job w) :
    Ok { q with running := Function.update q.running w next, log := e :: q.log } := by
  have hother : ∀ i ≠ r.id, history i (e :: q.log) = history i q.log :=
    fun i hi => history_cons_of_ne (he ▸ Ne.symm hi)
  have hlt := h.running_lt hw
  refine ⟨?_, ?_, fun i hi => ?_, fun e' he' => ?_, fun w' r' hr' => ?_, fun i hi => ?_⟩
  · show linkedIds (e :: q.log) = _
    rw [linkedIds_cons, hlinked, h.linked]
    exact List.append_nil _
  · show removedIds (e :: q.log) ++ _ = linkedIds (e :: q.log)
    rw [linkedIds_cons, removedIds_cons, hlinked, hremoved, ← h.fifo]
    simp
  · have hle : q.nlinked ≤ i := hi
    exact (hother i (hlt.trans_le hle).ne').trans (h.fresh i hle)
  · exact (hother e'.1 (h.queue_ne_running he' hw)).trans (h.queued e' he')
  · by_cases hw' : w' = w
    · subst hw'
      obtain ⟨hid, hhist⟩ := hnext r' (by simpa using hr')
      exact hid ▸ hhist
    · have hold : r' ∈ q.running w' := by simpa [hw'] using hr'
      refine (hother r'.id fun heq => hw' ?_).trans (h.running w' r' hold)
      exact h.running_inj hold hw heq
  · by_cases hid : i = r.id
    · subst hid
      cases next with
      | none =>
        obtain ⟨job, hjob⟩ := hstate rfl
        exact ⟨.finished w, job, hjob⟩
      | some r' =>
        obtain ⟨hid, hhist⟩ := hnext r' rfl
        exact ⟨.executing w, r', Function.update_self _ _ _, hid, hhist⟩
    · obtain ⟨st, hst⟩ := h.inState i hi
      refine ⟨st, hst.frame (fun _ hjob => hjob) (fun w' r' hr' hid' => ?_) (hother i hid)⟩
      have hw' : w' ≠ w := by
        rintro rfl
        obtain rfl := Option.some.inj (hw.symm.trans hr')
        exact hid hid'.symm
      exact (Function.update_of_ne hw' _ _).trans hr'

theorem call (h : q.Ok) (hw : q.running w = some ⟨id, made, c :: rest⟩) : Ok { q with
    running := Function.update q.running w (some ⟨id, made ++ [c], rest⟩)
    log := .called id w c :: q.log } := by
  refine h.record hw rfl rfl rfl (fun r' hr' => ?_) (by simp)
  obtain rfl := Option.some.inj hr'
  refine ⟨rfl, ?_⟩
  refine Eq.trans (history_cons rfl) ?_
  rw [h.running w _ hw]
  simp [runningHistory]

theorem finish (h : q.Ok) (hw : q.running w = some ⟨id, made, []⟩) : Ok { q with
    running := Function.update q.running w none
    log := .finished id w :: q.log } := by
  refine h.record hw rfl rfl rfl (fun r' hr' => by cases hr') fun _ => ⟨made, ?_⟩
  refine Eq.trans (history_cons rfl) ?_
  rw [h.running w _ hw]
  simp [runningHistory, finishedHistory]

/-- Every step keeps the invariant. -/
theorem step {q' : WorkQueue C W} (h : q.Ok) (hs : Step q q') : q'.Ok := by
  cases hs with
  | link job => exact h.link job
  | take hq hw => exact h.take hq hw
  | call hw => exact h.call hw
  | finish hw => exact h.finish hw
  | discard hq => exact h.discard hq

theorem steps {q' : WorkQueue C W} (h : q.Ok) (hs : Steps q q') : q'.Ok := by
  induction hs with
  | refl => exact h
  | tail _ hs ih => exact ih.step hs

end Steps

/-! ## What the invariant gives -/

/-- **A linked job is in exactly one state.** -/
theorem existsUnique_inState (h : q.Ok) (hid : id < q.nlinked) : ∃! st, q.InState id st := by
  obtain ⟨st, hst⟩ := h.inState id hid
  exact ⟨st, hst, fun st' hst' => Option.some.inj (hst'.last.symm.trans hst.last)⟩

/-- **Jobs leave the queue in the order in which they were linked.** -/
theorem takenIds_sublist_linkedIds (h : q.Ok) : (takenIds q.log).Sublist (linkedIds q.log) :=
  h.fifo ▸ takenIds_sublist.trans (List.sublist_append_left _ _)

end Ok

end WorkQueue

end Resman.Lib
