import Mathlib.Data.List.Perm.Subperm
import Mathlib.Data.List.Pairwise
import Resman.Lib.History

/-!
# The calls of a history

Threads call one operation of an object, and return from it some steps later. A history of
`CallNote`s says when a call began, which events the steps of its thread added to a log of the
object, and what the call returned. `callRecords` reads the calls off the history, newest first. A
thread is in one call at a time (`OneEach`), so an event that a step of it adds is the event of one
call (`subperm_advance`).
-/

namespace Resman.Lib

/-- The object is new, a call begins, or a thread takes a step, with the events that it adds and the
result if it returns. -/
inductive CallNote (T R E V : Type*) where
  | created
  | began (t : T) (request : R)
  | stepped (t : T) (events : List E) (result : Option V)

/-- A call, with the events that its steps have added, and its result once it has returned. -/
structure CallRecord (T R E V : Type*) where
  thread : T
  request : R
  events : List E
  result : Option V

section Calls

variable {T R E V : Type*} [DecidableEq T] {t : T} {request : R} {events : List E}
  {result : Option V} {c : CallRecord T R E V} {cs : List (CallRecord T R E V)}

/-- A step of thread `t`, for a call that may be the one it is in. -/
def CallRecord.advance (t : T) (events : List E) (result : Option V) (c : CallRecord T R E V) :
    CallRecord T R E V :=
  if c.thread = t ∧ c.result.isNone then { c with events := events ++ c.events, result } else c

def callRecords : List (CallNote T R E V) → List (CallRecord T R E V)
  | [] | .created :: _ => []
  | .began t request :: ns => ⟨t, request, [], none⟩ :: callRecords ns
  | .stepped t events result :: ns => (callRecords ns).map (.advance t events result)

/-- No thread is in two calls. -/
def OneEach (cs : List (CallRecord T R E V)) : Prop :=
  cs.Pairwise fun c c' => c.result = none → c'.result = none → c.thread ≠ c'.thread

@[simp] theorem CallRecord.advance_thread : (c.advance t events result).thread = c.thread := by
  unfold advance
  split <;> rfl

@[simp] theorem CallRecord.advance_request : (c.advance t events result).request = c.request := by
  unfold advance
  split <;> rfl

theorem CallRecord.advance_self (hc : c.result = none) :
    c.advance c.thread events result = { c with events := events ++ c.events, result } :=
  if_pos ⟨rfl, by rw [hc]; rfl⟩

theorem CallRecord.advance_of_ne (hc : c.result = none → c.thread ≠ t) :
    c.advance t events result = c := by
  refine if_neg ?_
  rintro ⟨ht, hnone⟩
  exact hc (Option.isNone_iff_eq_none.1 hnone) ht

/-- A call that goes on after a step went on before it. -/
theorem CallRecord.result_of_advance (h : (c.advance t events result).result = none) :
    c.result = none := by
  unfold advance at h
  split at h
  · next hc => exact Option.isNone_iff_eq_none.1 hc.2
  · exact h

omit [DecidableEq T] in
theorem OneEach.cons (h : OneEach cs) (hfree : ∀ c ∈ cs, c.result = none → c.thread ≠ t) :
    OneEach (⟨t, request, [], none⟩ :: cs) := by
  refine List.pairwise_cons.2 ⟨fun c hc _ hnone => ?_, h⟩
  exact (hfree c hc hnone).symm

theorem OneEach.advance (h : OneEach cs) : OneEach (cs.map (.advance t events result)) := by
  refine List.pairwise_map.2 (List.Pairwise.imp (fun hne hc hc' => ?_) h)
  rw [CallRecord.advance_thread, CallRecord.advance_thread]
  exact hne (CallRecord.result_of_advance hc) (CallRecord.result_of_advance hc')

/-- The events of a step are those of one call at most. -/
theorem subperm_advance (h : OneEach cs) :
    List.Subperm ((cs.map (.advance t events result)).flatMap CallRecord.events)
      (events ++ cs.flatMap CallRecord.events) := by
  induction cs with
  | nil => simp
  | cons c cs ih =>
    obtain ⟨hhead, htail⟩ := List.pairwise_cons.1 h
    rw [List.map_cons, List.flatMap_cons, List.flatMap_cons]
    by_cases hc : c.result = none ∧ c.thread = t
    · obtain ⟨hnone, rfl⟩ := hc
      -- no other call is one of this thread
      have hrest : cs.map (.advance c.thread events result) = cs := by
        conv_rhs => rw [← List.map_id cs]
        refine List.map_congr_left fun c' hc' => CallRecord.advance_of_ne fun hnone' => ?_
        exact (hhead c' hc' hnone hnone').symm
      rw [hrest, CallRecord.advance_self hnone, List.append_assoc]
    · have hsame : c.advance t events result = c :=
        CallRecord.advance_of_ne fun hnone ht => hc ⟨hnone, ht⟩
      rw [hsame]
      refine ((List.subperm_append_left c.events).2 (ih htail)).trans (List.Perm.subperm ?_)
      rw [← List.append_assoc, ← List.append_assoc]
      exact List.perm_append_comm.append_right _

end Calls

end Resman.Lib
