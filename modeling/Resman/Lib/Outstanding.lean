import Mathlib.Data.Finset.Card
import Mathlib.Data.Finset.Range
import Resman.Lib.WorkQueue

/-!
# Outstanding jobs of a work queue

The steps of a work queue as functions, so that a history can be replayed: `link`, `take`, `call`,
`finish` and `clear` do the step, or nothing where it is not possible, and each of them is a
sequence of steps. `unfinished job` are the jobs with the calls `job` that have been linked and not
finished. Only `link` and `finish` change their number; when there is none, every call of these jobs
has been made (`Ok.called_of_card_eq_zero`).
-/

namespace Resman.Lib

def JobEvent.finishedId? {C W : Type*} : JobEvent C W → Option Nat
  | finished id _ => some id
  | _ => none

namespace WorkQueue

variable {C W : Type*} {q q' : WorkQueue C W} {id : Nat} {job job' made : List C} {w : W}

/-! ## Steps as functions -/

section Replay

variable [DecidableEq W]

def link (q : WorkQueue C W) (job : List C) : WorkQueue C W :=
  { q with
    queue := q.queue ++ [(q.nlinked, job)]
    nlinked := q.nlinked + 1
    log := .linked q.nlinked job :: q.log }

def take (q : WorkQueue C W) (w : W) : WorkQueue C W :=
  match q.queue, q.running w with
  | (id, job) :: queue, none =>
    { q with
      queue
      running := Function.update q.running w (some ⟨id, [], job⟩)
      log := .taken id w :: q.log }
  | _, _ => q

def call (q : WorkQueue C W) (w : W) : WorkQueue C W :=
  match q.running w with
  | some ⟨id, made, c :: rest⟩ =>
    { q with
      running := Function.update q.running w (some ⟨id, made ++ [c], rest⟩)
      log := .called id w c :: q.log }
  | _ => q

def finish (q : WorkQueue C W) (w : W) : WorkQueue C W :=
  match q.running w with
  | some ⟨id, _, []⟩ =>
    { q with
      running := Function.update q.running w none
      log := .finished id w :: q.log }
  | _ => q

def clear (q : WorkQueue C W) : WorkQueue C W :=
  { q with
    queue := []
    log := ((q.queue.map Prod.fst).map .discarded).reverse ++ q.log }

theorem link_steps (q : WorkQueue C W) (job : List C) : Steps q (q.link job) := .single (.link job)

theorem take_steps (q : WorkQueue C W) (w : W) : Steps q (q.take w) := by
  unfold take
  split
  · next hq hw => exact .single (.take hq hw)
  · exact .refl

theorem call_steps (q : WorkQueue C W) (w : W) : Steps q (q.call w) := by
  unfold call
  split
  · next hw => exact .single (.call hw)
  · exact .refl

theorem finish_steps (q : WorkQueue C W) (w : W) : Steps q (q.finish w) := by
  unfold finish
  split
  · next hw => exact .single (.finish hw)
  · exact .refl

theorem clear_steps (q : WorkQueue C W) : Steps q q.clear :=
  steps_clear q.queue q.running q.nlinked q.log

/-- Nothing that has been recorded is lost. -/
theorem Steps.log_suffix (h : Steps q q') : q.log <:+ q'.log := by
  induction h with
  | refl => exact List.suffix_rfl
  | tail _ hs ih => cases hs <;> exact ih.trans (List.suffix_cons _ _)

end Replay

/-! ## Reading the log -/

theorem Ok.linked_lt (h : q.Ok) (hl : .linked id job ∈ q.log) : id < q.nlinked := by
  by_contra hle
  have hmem : .linked id job ∈ history id q.log := mem_history.2 ⟨hl, rfl⟩
  rw [h.fresh _ (Nat.not_lt.1 hle)] at hmem
  cases hmem

/-- A job that a worker executes was linked with its calls. -/
theorem Ok.linked_of_running (h : q.Ok) {r : Running C} (hw : q.running w = some r) :
    .linked r.id job ∈ q.log ↔ job = r.made ++ r.rest := by
  have hhist := h.running w r hw
  constructor
  · intro hl
    have hmem : .linked r.id job ∈ history r.id q.log := mem_history.2 ⟨hl, rfl⟩
    rw [hhist] at hmem
    simpa [runningHistory] using hmem
  · rintro rfl
    have hmem : .linked r.id (r.made ++ r.rest) ∈ history r.id q.log := by
      rw [hhist]
      exact List.mem_cons_self
    exact (mem_history.1 hmem).1

theorem Ok.not_finished_of_running (h : q.Ok) {r : Running C} {w' : W} (hw : q.running w = some r) :
    .finished r.id w' ∉ q.log := by
  intro hf
  have hmem : .finished r.id w' ∈ history r.id q.log := mem_history.2 ⟨hf, rfl⟩
  rw [h.running w r hw] at hmem
  simp [runningHistory] at hmem

/-- A finished job has made all its calls. -/
theorem Ok.called_of_finished (h : q.Ok) {c : C} (hl : .linked id job ∈ q.log)
    (hf : .finished id w ∈ q.log) (hc : c ∈ job) : ∃ w, .called id w c ∈ q.log := by
  obtain ⟨st, hst⟩ := h.inState id (h.linked_lt hl)
  have hl' : .linked id job ∈ history id q.log := mem_history.2 ⟨hl, rfl⟩
  have hf' : .finished id w ∈ history id q.log := mem_history.2 ⟨hf, rfl⟩
  cases st with
  | queued =>
    obtain ⟨job', -, hhist⟩ := hst
    simp [hhist] at hf'
  | executing w' =>
    obtain ⟨r, -, -, hhist⟩ := hst
    simp [hhist, runningHistory] at hf'
  | finished w' =>
    obtain ⟨job', hhist⟩ := hst
    rw [hhist] at hl'
    obtain rfl : job = job' := by simpa [finishedHistory] using hl'
    have hmem : .called id w' c ∈ history id q.log := by
      rw [hhist]
      simp [finishedHistory, hc]
    exact ⟨w', (mem_history.1 hmem).1⟩
  | discarded =>
    obtain ⟨job', hhist⟩ := hst
    simp [hhist] at hf'

/-! ## Unfinished jobs -/

section Unfinished

variable [DecidableEq C] [DecidableEq W]

/-- The jobs with the calls `job` that have been linked and not finished. -/
def unfinished (job : List C) (q : WorkQueue C W) : Finset Nat :=
  (Finset.range q.nlinked).filter fun id => .linked id job ∈ q.log ∧
    ∀ e ∈ q.log, e.finishedId? ≠ some id

theorem Ok.mem_unfinished (h : q.Ok) :
    id ∈ unfinished job q ↔ .linked id job ∈ q.log ∧ ∀ e ∈ q.log, e.finishedId? ≠ some id := by
  rw [unfinished, Finset.mem_filter, Finset.mem_range, and_iff_right_iff_imp]
  exact fun hid => h.linked_lt hid.1

/-- What is recorded neither links nor finishes a job. -/
theorem unfinished_of_log (hn : q'.nlinked = q.nlinked) (es : List (JobEvent C W))
    (hlog : q'.log = es ++ q.log)
    (hes : ∀ e ∈ es, e.linkedId? = none ∧ e.finishedId? = none) :
    unfinished job q' = unfinished job q := by
  ext id
  have hlinked : .linked id job ∉ es := fun hmem => by cases (hes _ hmem).1
  have hfinished : ∀ e ∈ es, e.finishedId? ≠ some id := fun e he heq => by
    cases (hes e he).2.symm.trans heq
  simp only [unfinished, Finset.mem_filter, hn, hlog, List.mem_append, hlinked, false_or, or_imp,
    forall_and]
  rw [and_iff_right hfinished]

theorem unfinished_take : unfinished job (q.take w) = unfinished job q := by
  unfold take
  split
  · refine unfinished_of_log rfl [.taken _ w] rfl fun e he => ?_
    obtain rfl := List.mem_singleton.1 he
    exact ⟨rfl, rfl⟩
  · rfl

theorem unfinished_call : unfinished job (q.call w) = unfinished job q := by
  unfold call
  split
  · refine unfinished_of_log rfl [.called _ w _] rfl fun e he => ?_
    obtain rfl := List.mem_singleton.1 he
    exact ⟨rfl, rfl⟩
  · rfl

theorem unfinished_clear : unfinished job q.clear = unfinished job q := by
  refine unfinished_of_log rfl _ rfl fun e he => ?_
  obtain ⟨id, -, rfl⟩ := List.mem_map.1 (List.mem_reverse.1 he)
  exact ⟨rfl, rfl⟩

/-- A job that is linked is one more of its kind. -/
theorem card_unfinished_link (h : q.Ok) (job' : List C) :
    (unfinished job (q.link job')).card =
      (unfinished job q).card + if job' = job then 1 else 0 := by
  have hfresh : q.nlinked ∉ unfinished job q := fun hmem =>
    absurd (Finset.mem_range.1 (Finset.mem_filter.1 hmem).1) (Nat.lt_irrefl _)
  have hnew : ∀ e ∈ q.log, e.finishedId? ≠ some q.nlinked := fun e he heq => by
    cases e with
    | finished id w =>
      obtain rfl := Option.some.inj heq
      exact absurd (mem_history.2 ⟨he, rfl⟩) (h.fresh _ (Nat.le_refl _) ▸ List.not_mem_nil)
    | linked | taken | called | discarded => cases heq
  have hmem : ∀ id, id ∈ unfinished job (q.link job') ↔
      job' = job ∧ id = q.nlinked ∨ id ∈ unfinished job q := by
    intro id
    have hok : (q.link job').Ok := h.link job'
    rw [hok.mem_unfinished, h.mem_unfinished, link, List.forall_mem_cons, List.mem_cons,
      JobEvent.linked.injEq]
    constructor
    · rintro ⟨⟨rfl, rfl⟩ | hl, -, hf⟩
      · exact .inl ⟨rfl, rfl⟩
      · exact .inr ⟨hl, hf⟩
    · rintro (⟨rfl, rfl⟩ | ⟨hl, hf⟩)
      · exact ⟨.inl ⟨rfl, rfl⟩, (by simp [JobEvent.finishedId?]), hnew⟩
      · exact ⟨.inr hl, (by simp [JobEvent.finishedId?]), hf⟩
  split
  · next hjob =>
    have hset : unfinished job (q.link job') = insert q.nlinked (unfinished job q) := by
      ext id
      rw [hmem, Finset.mem_insert, and_iff_right hjob]
    rw [hset, Finset.card_insert_of_notMem hfresh]
  · next hjob =>
    have hset : unfinished job (q.link job') = unfinished job q := by
      ext id
      rw [hmem, or_iff_right (mt And.left hjob)]
    rw [hset, Nat.add_zero]

/-- A job that is finished is one less of its kind. -/
theorem card_unfinished_finish (h : q.Ok) (hw : q.running w = some ⟨id, made, []⟩) (job : List C) :
    (unfinished job (q.finish w)).card + (if made = job then 1 else 0) =
      (unfinished job q).card := by
  have hfin : q.finish w = { q with
      running := Function.update q.running w none
      log := .finished id w :: q.log } := by rw [finish, hw]
  have hmem : ∀ i, i ∈ unfinished job (q.finish w) ↔ i ≠ id ∧ i ∈ unfinished job q := by
    intro i
    rw [(h.steps (finish_steps q w)).mem_unfinished, h.mem_unfinished, hfin]
    simp [JobEvent.finishedId?, and_left_comm, eq_comm]
  have hset : unfinished job (q.finish w) = (unfinished job q).erase id := by
    ext i
    rw [hmem, Finset.mem_erase]
  have hid : id ∈ unfinished job q ↔ made = job := by
    have hlinked : .linked id job ∈ q.log ↔ job = made ++ [] := h.linked_of_running hw
    rw [List.append_nil] at hlinked
    rw [h.mem_unfinished, hlinked, and_iff_left, eq_comm]
    rintro e he heq
    cases e with
    | finished i w' =>
      obtain rfl := Option.some.inj heq
      exact h.not_finished_of_running hw he
    | linked | taken | called | discarded => cases heq
  rw [hset]
  split
  · next hjob => exact Finset.card_erase_add_one (hid.2 hjob)
  · next hjob => rw [Finset.erase_eq_of_notMem (mt hid.1 hjob), Nat.add_zero]

/-- When no job of a kind is unfinished, all their calls have been made. -/
theorem Ok.called_of_card_eq_zero (h : q.Ok) (hnone : (unfinished job q).card = 0)
    (hl : .linked id job ∈ q.log) {c : C} (hc : c ∈ job) : ∃ w, .called id w c ∈ q.log := by
  have hid : id ∉ unfinished job q := Finset.card_eq_zero.1 hnone ▸ Finset.notMem_empty id
  rw [h.mem_unfinished, not_and] at hid
  obtain ⟨e, he, heq⟩ := by simpa using hid hl
  cases e with
  | finished i w =>
    obtain rfl := Option.some.inj heq
    exact h.called_of_finished hl he hc
  | linked | taken | called | discarded => cases heq

end Unfinished

end WorkQueue

end Resman.Lib
