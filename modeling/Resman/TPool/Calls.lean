import Resman.Lib.Calls
import Resman.TPool.ExactlyOnce
import Resman.TPool.Moves

/-!
# The calls of `resman_tpool_enqueue`

`callNotes` writes down, beside a run, when a thread calls `resman_tpool_enqueue` for a pool, what
each of its steps adds to the history of the pool, and what the call returns. `Underway` says how
far a call has come. `jobs_of_run` puts this together with the states of the jobs: a call that has
returned `0` has linked its job, once, and this job is in exactly one state; a call that has
returned `-1` has linked nothing.
-/

namespace Resman.TPool

open Lib

variable {own : ItemPtr → Option Owner} {items items' : Items} {s s' : World}
  {pool pool' : Pool} {P : PoolPtr} {a : ItemPtr} {capacity : Nat} {t : CallerId} {pos : Position}

/-- What has happened to the jobs of pool `P`, newest event first. -/
def World.log (s : World) (P : PoolPtr) : List Event := ((s.pools P).map Pool.log).getD []

/-- The events that a step has added. -/
def newEvents (P : PoolPtr) (s s' : World) : List Event :=
  (s'.log P).take ((s'.log P).length - (s.log P).length)

/-- What `resman_tpool_enqueue` returns from a position in it: `-1` when `malloc`
has failed, `0` at its end. -/
def Position.enqueueResult : Position → Int
  | enqMalloc _ => -1
  | _ => 0

/-- The result of thread `t`, if it returns with the step. -/
def enqueueResult (s s' : World) (t : CallerId) : Option Int :=
  if (s'.callers t).isNone then (s.callers t).map fun c => c.2.enqueueResult else none

abbrev EnqueueCall := CallRecord CallerId Job Event Int

/-- The calls of `resman_tpool_enqueue` for pool `P`. -/
def callNotes (P : PoolPtr) (s : World) (a : Action) (s' : World) :
    List (CallNote CallerId Job Event Int) :=
  match a with
  | .create P' _ => if P' = P then [.created] else []
  | .call t P' (.enqueue job) => if P' = P then [.began t job] else []
  | .caller t _ => [.stepped t (newEvents P s s') (enqueueResult s s' t)]
  | .call .. | .worker .. => []

/-- What holds of the calls for a pool: a call that has returned `0` has linked its job
once, and the job is in exactly one state; the other ones have returned `-1` and linked
nothing; no event is one of two calls. -/
structure CallsOk (heap : ItemPtr → Option WorkItem) (pool : Pool) (q : List ItemPtr)
    (calls : List EnqueueCall) : Prop where
  succeeded : ∀ c ∈ calls, c.result = some 0 → ∃ id, c.events = [.linked id c.request.calls] ∧
    ∃! st, (view heap pool q).InState id st
  failed : ∀ c ∈ calls, ∀ r, c.result = some r → r ≠ 0 → r = -1 ∧ c.events = []
  apart : List.Subperm (calls.flatMap CallRecord.events) pool.log

/-! ## The history of a pool -/

theorem log_eq (hP : s.pools P = some pool) : s.log P = pool.log := by
  rw [World.log, hP]
  rfl

theorem suffix_of_pools (h : s'.pools P = s.pools P) : s.log P <:+ s'.log P := by
  have heq : s'.log P = s.log P := by rw [World.log, World.log, h]
  exact heq ▸ List.suffix_rfl

theorem newEvents_eq {es : List Event} (h : s'.log P = es ++ s.log P) : newEvents P s s' = es := by
  rw [newEvents, h, List.length_append, Nat.add_sub_cancel]
  exact List.take_left

theorem append_newEvents (h : s.log P <:+ s'.log P) : newEvents P s s' ++ s.log P = s'.log P := by
  obtain ⟨es, hes⟩ := h
  rw [newEvents_eq hes.symm, hes]

/-- An item is linked with one event. -/
theorem linkItem_log {x : WorkItem} (h : linkItem items pool a = some (items', pool'))
    (hx : items.heap a = some x) : pool'.log = .linked pool.nlinked x.calls :: pool.log := by
  simp only [linkItem, hx, Option.bind_eq_bind, Option.bind_some] at h
  split at h
  · simp only [Option.bind_eq_some_iff] at h
    obtain ⟨tail, -, y, -, h⟩ := h
    obtain ⟨-, rfl⟩ := Prod.mk.inj (Option.some.inj h)
    rfl
  · obtain ⟨-, rfl⟩ := Prod.mk.inj (Option.some.inj h)
    rfl

theorem suffix_update {P₁ : PoolPtr} {callers' : CallerId → Option (PoolPtr × Position)}
    (hP : s.pools P₁ = some pool) (hlog : pool.log <:+ pool'.log) (P : PoolPtr) :
    s.log P <:+ World.log ⟨items', Function.update s.pools P₁ (some pool'), callers'⟩ P := by
  by_cases h : P = P₁
  · subst h
    rw [log_eq hP, log_eq (Function.update_self _ _ _)]
    exact hlog
  · exact suffix_of_pools (Function.update_of_ne h _ _)

/-- The history of a pool gets longer until the pool is gone. -/
theorem Effect.log_suffix (he : Effect capacity s s') (hP : s'.pools P ≠ none) :
    s.log P <:+ s'.log P := by
  cases he with
  | @create P₁ _ hnone =>
    by_cases h : P = P₁
    · subst h
      rw [World.log, hnone]
      exact List.nil_suffix
    · exact suffix_of_pools (Function.update_of_ne h _ _)
  | @gone P₁ _ hc =>
    have h : P ≠ P₁ := by
      rintro rfl
      exact hP (Function.update_self _ _ _)
    exact suffix_of_pools (Function.update_of_ne h _ _)
  | moved | pop | malloc => exact List.suffix_rfl
  | quiet hP₁ hs => exact suffix_update hP₁ (hs.log.symm ▸ List.suffix_rfl) P
  | joined hP₁ | free hP₁ =>
    refine suffix_update hP₁ ?_ P
    exact List.suffix_rfl
  | @link t P₁ pool pool' a items' ht hP₁ h =>
    obtain ⟨x, hx, -⟩ := Option.bind_eq_some_iff.1 h
    exact suffix_update hP₁ (by rw [linkItem_log h hx]; exact List.suffix_cons _ _) P
  | clear hP₁ h =>
    obtain ⟨⟨heap, ids⟩, -, h⟩ := Option.bind_eq_some_iff.1 h
    obtain ⟨-, rfl⟩ := Prod.mk.inj (Option.some.inj h)
    exact suffix_update hP₁ (List.suffix_append _ _) P
  | take hP₁ _ _ h =>
    simp only [takeItem, Option.bind_eq_bind, Option.bind_eq_some_iff] at h
    obtain ⟨b, -, y, -, h⟩ := h
    obtain rfl := Option.some.inj h
    exact suffix_update hP₁ (List.suffix_cons _ _) P
  | worked hP₁ | done hP₁ => exact suffix_update hP₁ (List.suffix_cons _ _) P
  | finish hP₁ _ h =>
    unfold finishItem at h
    split at h
    · cases h
    · obtain rfl := Option.some.inj h
      exact suffix_update hP₁ (List.suffix_cons _ _) P

/-! ## Frames -/

/-- The item that a caller goes on holding is left as it is. -/
theorem Effect.keeps_item (he : Effect capacity s s') (howned : Owned own s)
    (ht : s.callers t = some (P, .enqLink a)) (ht' : s'.callers t = some (P, .enqLink a)) :
    s'.items.heap a = s.items.heap a := by
  obtain ⟨hown, -⟩ := howned.caller t P a ht
  cases he with
  | create | gone | moved | quiet | joined | take | worked | done | finish => rfl
  | @pop t₁ P₁ job b items' hb hpop =>
    obtain ⟨l, hchain, -, -, hfree⟩ := howned.free
    obtain ⟨next, rest, rfl, -, -⟩ := (hb ▸ hchain).pop
    obtain ⟨y, -, hpop⟩ := Option.bind_eq_some_iff.1 hpop
    obtain rfl := Option.some.inj hpop
    refine Function.update_of_ne (ne_of_own hown (hfree b List.mem_cons_self) ?_) _ _
    simp
  | @malloc t₁ P₁ job b items' hmalloc =>
    rw [mallocWorkItem] at hmalloc
    split at hmalloc
    · cases hmalloc
    · next hnone =>
      obtain rfl := Option.some.inj hmalloc
      refine Function.update_of_ne ?_ _ _
      rintro rfl
      rw [howned.fresh a hnone] at hown
      cases hown
  | @link t₁ P₁ pool pool' b items' ht₁ hP₁ hlink =>
    obtain ⟨hown₁, hnext⟩ := howned.caller t₁ P₁ b ht₁
    obtain ⟨q, hl, -⟩ := howned.pools P₁ pool hP₁
    obtain ⟨x, -, -, hother, -⟩ := linkItem_spec hl hown₁ hnext hlink
    have hne : t ≠ t₁ := by
      rintro rfl
      have hmoved : Function.update s.callers t _ t = some (P, .enqLink a) := ht'
      rw [Function.update_self] at hmoved
      cases hmoved
    refine hother a (ne_of_own hown hown₁ (by simpa using hne)) ?_
    rw [hown]
    simp
  | @clear P₁ pool pool' items' _ hP₁ hclear hc =>
    obtain ⟨q, hl, -⟩ := howned.pools P₁ pool hP₁
    obtain ⟨rfl, -⟩ := Prod.mk.inj (Option.some.inj ((clearQueue_eq hl).symm.trans hclear))
    refine if_neg fun hq => ?_
    rw [hl.queue a hq] at hown
    cases hown
  | @free P₁ pool w b y items' hP₁ hwk hy hfree =>
    obtain ⟨q, hl, -⟩ := howned.pools P₁ pool hP₁
    have hne : a ≠ b := ne_of_own hown (hl.worker w _ hwk b rfl) (by simp)
    simp only [freeWorkItem, hy, Option.bind_eq_bind, Option.bind_some] at hfree
    split at hfree
    · obtain rfl := Option.some.inj hfree
      exact Function.update_of_ne hne _ _
    · obtain rfl := Option.some.inj hfree
      exact Function.update_of_ne hne _ _

/-- The thread that takes the step. -/
def Action.thread? : Action → Option CallerId
  | .call t _ _ | .caller t _ => some t
  | .create .. | .worker .. => none

theorem broadcastDone_callers (hpos : pos.signal = pos) (ht : s.callers t = some (P, pos))
    (P₁ : PoolPtr) :
    (s.broadcastDone P₁).callers t = some (P, pos) := by
  simp only [World.broadcastDone, ht, Option.map_some]
  split
  · next h =>
    rw [hpos, ← h]
  · rfl

/-- A thread stays where it is while others take steps, unless it waits and is signalled. -/
theorem callers_frame {b : Action} (h : step capacity s b = some s') (hb : b.thread? ≠ some t)
    (hpos : pos.signal = pos) (ht : s.callers t = some (P, pos)) :
    s'.callers t = some (P, pos) := by
  cases b with
  | create P₁ n =>
    simp only [step] at h
    split at h
    · cases h
    · obtain rfl := Option.some.inj h
      exact ht
  | call t₁ P₁ f =>
    have hne : t ≠ t₁ := fun heq => hb (by rw [heq]; rfl)
    have hset (c : Option (PoolPtr × Position)) :
        Function.update s.callers t₁ c t = some (P, pos) := by
      rw [Function.update_of_ne hne, ht]
    simp only [step] at h
    split at h
    · cases h
    · simp only [callStep, Option.bind_eq_bind, Option.bind_eq_some_iff] at h
      obtain ⟨pool, -, h⟩ := h
      cases f with
      | enqueue | endBatch | wait =>
        obtain rfl := Option.some.inj h
        exact hset _
      | beginBatch | getWaitFd | drain =>
        obtain rfl := Option.some.inj h
        exact ht
      | query =>
        obtain rfl := Option.some.inj (locked_eq_some h).2
        exact ht
      | clear =>
        obtain ⟨r, -, rfl⟩ := Option.map_eq_some_iff.1 h
        exact ht
      | destroy =>
        obtain ⟨r, -, rfl⟩ := Option.map_eq_some_iff.1 h
        exact hset _
  | caller t₁ o =>
    have hne : t ≠ t₁ := fun heq => hb (by rw [heq]; rfl)
    have hset (c : Option (PoolPtr × Position)) :
        Function.update s.callers t₁ c t = some (P, pos) := by
      rw [Function.update_of_ne hne, ht]
    have hwait {P₁ : PoolPtr} {pool : Pool} {k : Wait} (hw : waitStep s t₁ P₁ pool k = some s') :
        s'.callers t = some (P, pos) := by
      obtain rfl := Option.some.inj (locked_eq_some hw).2
      exact hset _
    simp only [step, callerStep, Option.bind_eq_bind, Option.bind_eq_some_iff] at h
    obtain ⟨⟨P₁, pos₁⟩, -, pool, -, h⟩ := h
    cases pos₁ with
    | enqAlloc job =>
      simp only at h
      split at h
      · obtain ⟨r, -, rfl⟩ := Option.map_eq_some_iff.1 h
        exact hset _
      · obtain rfl := Option.some.inj h
        exact hset _
    | enqMalloc job =>
      simp only at h
      split at h
      · obtain rfl := Option.some.inj h
        exact hset _
      · obtain ⟨r, -, rfl⟩ := Option.map_eq_some_iff.1 h
        exact hset _
    | enqLink b =>
      obtain ⟨r, -, rfl⟩ := Option.map_eq_some_iff.1 h
      exact hset _
    | enqTest | enqBroadcast | endBroadcast | destroyQuit | destroyBroadcast =>
      obtain rfl := Option.some.inj h
      exact hset _
    | waitTest k => exact hwait h
    | waiting k b =>
      simp only at h
      split at h
      · obtain rfl := Option.some.inj (locked_eq_some h).2
        exact hset _
      · exact hwait h
    | destroyJoin =>
      simp only at h
      split at h
      · obtain rfl := Option.some.inj h
        have hold : s.callers t = some (P, pos) := ht
        refine (Function.update_of_ne hne _ _).trans ?_
        exact broadcastDone_callers hpos hold P₁
      · cases h
    | destroyEvent =>
      simp only at h
      split at h
      · cases h
      · obtain rfl := Option.some.inj h
        exact hset _
  | worker P₁ w =>
    simp only [step, workerStep, Option.bind_eq_bind, Option.bind_eq_some_iff] at h
    obtain ⟨pool, -, wk, -, h⟩ := h
    cases wk with
    | start | waiting =>
      obtain rfl := Option.some.inj (locked_eq_some h).2
      exact ht
    | inner | writing =>
      obtain ⟨pool', -, rfl⟩ := Option.map_eq_some_iff.1 h
      exact ht
    | sleeping =>
      obtain rfl := Option.some.inj h
      exact ht
    | working b =>
      obtain ⟨x, -, h⟩ := Option.bind_eq_some_iff.1 h
      obtain rfl := Option.some.inj h
      exact ht
    | doing b | freeing b =>
      simp only [Option.bind_eq_some_iff] at h
      obtain ⟨x, -, y, -, h⟩ := h
      obtain rfl := Option.some.inj h
      exact ht
    | finishing id job =>
      obtain rfl := Option.some.inj (locked_eq_some h).2
      exact broadcastDone_callers (s := s.setPool P₁ _) hpos ht P₁
    | exited => cases h

/-! ## The calls -/

/-- A call that has returned. -/
def Ended (c : EnqueueCall) (r : Int) : Prop :=
  r = 0 ∧ (∃ id, c.events = [.linked id c.request.calls]) ∨ r = -1 ∧ c.events = []

/-- A call of thread `t` that goes on: it has no item yet, or an item with the
job, or has linked it. -/
inductive Underway (P : PoolPtr) (s : World) (c : EnqueueCall) : Prop
  | trying (ht : s.callers c.thread = some (P, .enqAlloc c.request) ∨
        s.callers c.thread = some (P, .enqMalloc c.request))
        (hevents : c.events = []) : Underway P s c
  | holding {a : ItemPtr} {x : WorkItem} (ht : s.callers c.thread = some (P, .enqLink a))
      (hx : s.items.heap a = some x) (hjob : x.toJob = c.request) (hevents : c.events = []) :
      Underway P s c
  | linked {id : JobId} (ht : s.callers c.thread = some (P, .enqTest) ∨
        s.callers c.thread = some (P, .enqBroadcast))
        (hevents : c.events = [.linked id c.request.calls]) :
      Underway P s c

structure CallsKept (P : PoolPtr) (s : World) (cs : List EnqueueCall) : Prop where
  ended : ∀ c ∈ cs, ∀ r, c.result = some r → Ended c r
  underway : ∀ c ∈ cs, c.result = none → Underway P s c
  oneEach : OneEach cs
  apart : List.Subperm (cs.flatMap CallRecord.events) (s.log P)

variable {c : EnqueueCall} {cs : List EnqueueCall}

theorem Underway.caller (h : Underway P s c) :
    ∃ pos, s.callers c.thread = some (P, pos) ∧ pos.signal = pos := by
  cases h with
  | trying ht => exact ht.elim (fun ht => ⟨_, ht, rfl⟩) fun ht => ⟨_, ht, rfl⟩
  | holding ht => exact ⟨_, ht, rfl⟩
  | linked ht => exact ht.elim (fun ht => ⟨_, ht, rfl⟩) fun ht => ⟨_, ht, rfl⟩

/-- A call goes on as it is while other threads take steps. -/
theorem Underway.frame {b : Action} (h : Underway P s c) (howned : Owned own s)
    (hb : b.thread? ≠ some c.thread) (hstep : step capacity s b = some s') : Underway P s' c := by
  have hkeep {pos : Position} (hpos : pos.signal = pos) (ht : s.callers c.thread = some (P, pos)) :
      s'.callers c.thread = some (P, pos) := callers_frame hstep hb hpos ht
  cases h with
  | trying ht hevents => exact .trying (ht.imp (hkeep rfl) (hkeep rfl)) hevents
  | holding ht hx hjob hevents =>
    have ht' := hkeep rfl ht
    exact .holding ht' ((step_cases hstep).keeps_item howned ht ht' ▸ hx) hjob hevents
  | linked ht hevents => exact .linked (ht.imp (hkeep rfl) (hkeep rfl)) hevents

/-- The next step of a call: it returns, or it goes on. -/
inductive Continues (P : PoolPtr) (s s' : World) (c : EnqueueCall) : Prop
  | returns {r : Int} (hnone : s'.callers c.thread = none)
      (hr : enqueueResult s s' c.thread = some r)
      (h : Ended { c with events := newEvents P s s' ++ c.events } r) : Continues P s s' c
  | goes (hr : enqueueResult s s' c.thread = none)
      (h : Underway P s' { c with events := newEvents P s s' ++ c.events }) : Continues P s s' c

theorem newEvents_nil (h : s'.log P = s.log P) : newEvents P s s' = [] := newEvents_eq h

theorem enqueueResult_of_return (ht : s.callers t = some (P, pos)) (hnone : s'.callers t = none) :
    enqueueResult s s' t = some pos.enqueueResult := by
  rw [enqueueResult, hnone, ht]
  rfl

theorem enqueueResult_of_inside {c : PoolPtr × Position} (ht : s'.callers t = some c) :
    enqueueResult s s' t = none := by
  rw [enqueueResult, ht]
  rfl

/-- The call goes on, and the history of the pool is as it was. -/
theorem Continues.stays (hlog : s'.log P = s.log P)
    (hat : s'.callers c.thread = some (P, pos)) (h : Underway P s' c) : Continues P s s' c := by
  refine .goes (enqueueResult_of_inside hat) ?_
  rw [newEvents_nil hlog]
  exact h

/-- The call returns, and the history of the pool is as it was. -/
theorem Continues.leaves (hlog : s'.log P = s.log P)
    (ht : s.callers c.thread = some (P, pos)) (hnone : s'.callers c.thread = none)
    (h : Ended c pos.enqueueResult) : Continues P s s' c := by
  refine .returns hnone (enqueueResult_of_return ht hnone) ?_
  rw [newEvents_nil hlog]
  exact h

/-- The steps up to the allocation of the item. -/
theorem Continues.of_trying {o : Oracle} (hP : s.pools P = some pool)
    (ht : s.callers c.thread = some (P, .enqAlloc c.request) ∨
      s.callers c.thread = some (P, .enqMalloc c.request))
    (hevents : c.events = []) (hstep : callerStep capacity s c.thread o = some s') :
    Continues P s s' c := by
  have hself (items : Items) (pos : Option (PoolPtr × Position)) :
      ((s.setItems items).setCaller c.thread pos).callers c.thread = pos :=
    Function.update_self _ _ _
  have hgot {items : Items} {a : ItemPtr}
      (hheap : items.heap a = some { c.request with next := none, id := 0 }) :
      Continues P s ((s.setItems items).setCaller c.thread (some (P, .enqLink a))) c :=
    .stays rfl (hself _ _) (.holding (hself _ _) hheap rfl hevents)
  rcases ht with ht | ht
  · simp only [callerStep, ht, hP, Option.bind_eq_bind, Option.bind_some] at hstep
    split at hstep
    · next w hw =>
      obtain ⟨items, hpop, rfl⟩ := Option.map_eq_some_iff.1 hstep
      obtain ⟨y, -, hpop⟩ := Option.bind_eq_some_iff.1 hpop
      obtain rfl := Option.some.inj hpop
      exact hgot (Function.update_self _ _ _)
    · obtain rfl := Option.some.inj hstep
      have hmalloc := hself s.items (some (P, .enqMalloc c.request))
      exact .stays rfl hmalloc (.trying (.inr hmalloc) hevents)
  · simp only [callerStep, ht, hP, Option.bind_eq_bind, Option.bind_some] at hstep
    split at hstep
    · -- there is no memory
      obtain rfl := Option.some.inj hstep
      exact .leaves rfl ht (hself s.items none) (.inr ⟨rfl, hevents⟩)
    · obtain ⟨items, hmalloc, rfl⟩ := Option.map_eq_some_iff.1 hstep
      rw [mallocWorkItem] at hmalloc
      split at hmalloc
      · cases hmalloc
      · obtain rfl := Option.some.inj hmalloc
        exact hgot (Function.update_self _ _ _)

/-- The job is linked. -/
theorem Continues.of_holding {o : Oracle} {x : WorkItem} (hP : s.pools P = some pool)
    (ht : s.callers c.thread = some (P, .enqLink a)) (hx : s.items.heap a = some x)
    (hjob : x.toJob = c.request) (hevents : c.events = [])
    (hstep : callerStep capacity s c.thread o = some s') : Continues P s s' c := by
  simp only [callerStep, ht, hP, Option.bind_eq_bind, Option.bind_some] at hstep
  obtain ⟨⟨items, pool'⟩, hlocked, hs'⟩ := Option.map_eq_some_iff.1 hstep
  have hat : s'.callers c.thread = some (P, .enqTest) := by
    rw [← hs']
    exact Function.update_self _ _ _
  have hP' : s'.pools P = some pool' := by
    rw [← hs']
    exact Function.update_self _ _ _
  have hlog : s'.log P = [.linked pool.nlinked x.calls] ++ s.log P := by
    rw [log_eq hP', log_eq hP, linkItem_log (locked_eq_some hlocked).2 hx]
    rfl
  have hlinked : newEvents P s s' ++ c.events = [.linked pool.nlinked c.request.calls] := by
    rw [newEvents_eq hlog, hevents, ← hjob]
    rfl
  exact .goes (enqueueResult_of_inside hat) (.linked (.inl hat) hlinked)

/-- The steps after the job has been linked. -/
theorem Continues.of_linked {o : Oracle} {id : JobId} (hP : s.pools P = some pool)
    (ht : s.callers c.thread = some (P, .enqTest) ∨
      s.callers c.thread = some (P, .enqBroadcast))
    (hevents : c.events = [.linked id c.request.calls])
    (hstep : callerStep capacity s c.thread o = some s') : Continues P s s' c := by
  rcases ht with ht | ht
  · simp only [callerStep, ht, hP, Option.bind_eq_bind, Option.bind_some] at hstep
    obtain rfl := Option.some.inj hstep
    split
    · exact .leaves rfl ht (Function.update_self _ _ _) (.inl ⟨rfl, id, hevents⟩)
    · have hat : (s.setCaller c.thread (some (P, .enqBroadcast))).callers c.thread =
          some (P, .enqBroadcast) := Function.update_self _ _ _
      exact .stays rfl hat (.linked (.inr hat) hevents)
  · simp only [callerStep, ht, hP, Option.bind_eq_bind, Option.bind_some] at hstep
    obtain rfl := Option.some.inj hstep
    have hpool : ((s.setPool P pool.broadcast).setCaller c.thread none).pools P =
        some pool.broadcast := Function.update_self _ _ _
    exact .leaves ((log_eq hpool).trans (log_eq hP).symm) ht (Function.update_self _ _ _)
      (.inl ⟨rfl, id, hevents⟩)

theorem Underway.step {o : Oracle} (h : Underway P s c) (hP : s.pools P = some pool)
    (hstep : callerStep capacity s c.thread o = some s') : Continues P s s' c := by
  cases h with
  | trying ht hevents => exact .of_trying hP ht hevents hstep
  | holding ht hx hjob hevents => exact .of_holding hP ht hx hjob hevents hstep
  | linked ht hevents => exact .of_linked hP ht hevents hstep

/-- The calls, when another thread or a worker takes a step. -/
theorem CallsKept.frame {b : Action} (h : CallsKept P s cs) (howned : Owned own s)
    (hP' : s'.pools P ≠ none) (hb : ∀ c ∈ cs, c.result = none → b.thread? ≠ some c.thread)
    (hstep : step capacity s b = some s') :
    CallsKept P s' cs where
  ended := h.ended
  underway c hc hnone := (h.underway c hc hnone).frame howned (hb c hc hnone) hstep
  oneEach := h.oneEach
  apart := h.apart.trans ((step_cases hstep).log_suffix hP').sublist.subperm

/-- The calls, when thread `t` takes a step. -/
theorem CallsKept.advance {o : Oracle} (h : CallsKept P s cs) (howned : Owned own s)
    (hP : s.pools P = some pool) (hP' : s'.pools P ≠ none)
    (hstep : step capacity s (.caller t o) = some s') :
    CallsKept P s' (cs.map (.advance t (newEvents P s s') (enqueueResult s s' t))) := by
  have hlog := (step_cases hstep).log_suffix hP'
  -- the call that the thread is in, and the other ones
  have hcall : ∀ c ∈ cs, c.advance t (newEvents P s s') (enqueueResult s s' t) = c ∧
      (c.result = none → c.thread ≠ t) ∨
      c.advance t (newEvents P s s') (enqueueResult s s' t) =
        { c with events := newEvents P s s' ++ c.events, result := enqueueResult s s' c.thread } ∧
      Continues P s s' c := by
    intro c hc
    by_cases hopen : c.result = none ∧ c.thread = t
    · obtain ⟨hnone, rfl⟩ := hopen
      exact .inr ⟨CallRecord.advance_self hnone, (h.underway c hc hnone).step hP hstep⟩
    · have hne : c.result = none → c.thread ≠ t := fun hnone ht => hopen ⟨hnone, ht⟩
      exact .inl ⟨CallRecord.advance_of_ne hne, hne⟩
  refine ⟨fun c' hc' r hr => ?_, fun c' hc' hnone => ?_, h.oneEach.advance, ?_⟩
  · obtain ⟨c, hc, rfl⟩ := List.mem_map.1 hc'
    rcases hcall c hc with ⟨heq, -⟩ | ⟨heq, hcont⟩
    · rw [heq] at hr ⊢
      exact h.ended c hc r hr
    · rw [heq] at hr ⊢
      cases hcont with
      | returns _ hr' hended =>
        obtain rfl := Option.some.inj (hr'.symm.trans hr)
        exact hended
      | goes hr' =>
        rw [show enqueueResult s s' c.thread = some r from hr] at hr'
        cases hr'
  · obtain ⟨c, hc, rfl⟩ := List.mem_map.1 hc'
    rcases hcall c hc with ⟨heq, hne⟩ | ⟨heq, hcont⟩
    · rw [heq] at hnone ⊢
      refine (h.underway c hc hnone).frame howned ?_ hstep
      exact fun ht => hne hnone (Option.some.inj ht).symm
    · rw [heq] at hnone ⊢
      cases hcont with
      | returns _ hr' =>
        rw [show enqueueResult s s' c.thread = none from hnone] at hr'
        cases hr'
      | goes hr' hunder =>
        cases hunder with
        | trying ht hevents => exact .trying ht hevents
        | holding ht hx hjob hevents => exact .holding ht hx hjob hevents
        | linked ht hevents => exact .linked ht hevents
  · refine (subperm_advance h.oneEach).trans ?_
    rw [← append_newEvents hlog]
    exact (List.subperm_append_left _).2 h.apart

theorem CallsKept.step {b : Action} {ns : List (CallNote CallerId Job Event Int)}
    (h : CallsKept P s (callRecords ns)) (howned : Owned own s) (hP : s.pools P = some pool)
    (hP' : s'.pools P ≠ none) (hstep : step capacity s b = some s') :
    CallsKept P s' (callRecords (callNotes P s b s' ++ ns)) := by
  cases b with
  | create P₁ n =>
    have hne : P₁ ≠ P := by
      rintro rfl
      simp [TPool.step, hP] at hstep
    rw [callNotes, if_neg hne]
    exact h.frame howned hP' (fun _ _ _ => by simp [Action.thread?]) hstep
  | worker P₁ w => exact h.frame howned hP' (fun _ _ _ => by simp [Action.thread?]) hstep
  | caller t o => exact h.advance howned hP hP' hstep
  | call t P₁ f =>
    have houtside : s.callers t = none := by
      simp only [TPool.step] at hstep
      split at hstep
      · cases hstep
      · next ht => simpa using ht
    have hfree : ∀ c ∈ callRecords ns, c.result = none → c.thread ≠ t := by
      rintro c hc hnone rfl
      obtain ⟨pos, ht, -⟩ := (h.underway c hc hnone).caller
      rw [houtside] at ht
      cases ht
    have hsame : CallsKept P s' (callRecords ns) := by
      refine h.frame howned hP' (fun c hc hnone ht => ?_) hstep
      exact hfree c hc hnone (Option.some.inj ht).symm
    cases f with
    | enqueue job =>
      by_cases hne : P₁ = P
      · subst hne
        rw [callNotes, if_pos rfl]
        have hat : s'.callers t = some (P₁, .enqAlloc job) := by
          simp only [TPool.step, callStep, houtside, hP] at hstep
          obtain rfl := Option.some.inj hstep
          exact Function.update_self _ _ _
        refine ⟨?_, ?_, hsame.oneEach.cons hfree, hsame.apart⟩
        · rintro c hc r hr
          rcases List.mem_cons.1 hc with rfl | hc
          · cases hr
          · exact hsame.ended c hc r hr
        · intro c hc hnone
          rcases List.mem_cons.1 hc with rfl | hc
          · exact .trying (.inl hat) rfl
          · exact hsame.underway c hc hnone
      · rw [callNotes, if_neg hne]
        exact hsame
    | beginBatch | endBatch | clear | query | wait | getWaitFd | drain | destroy => exact hsame

/-! ## Runs -/

/-- What is known of the calls in every run. -/
theorem callsKept_of_run {as : List Action} {ns : List (CallNote CallerId Job Event Int)}
    (h : exec (record (step capacity) (callNotes P)) (.initial, []) as = some (s, ns))
    (hP : s.pools P ≠ none) :
    CallsKept P s (callRecords ns) := by
  let I (x : World × List (CallNote CallerId Job Event Int)) : Prop :=
    (∃ own, Owned own x.1) ∧ (x.1.pools P ≠ none → CallsKept P x.1 (callRecords x.2))
  suffices hI : I (s, ns) from hI.2 hP
  refine exec_invariant' (I := I) ⟨owned_initial, fun hne => absurd rfl hne⟩ ?_ h
  rintro ⟨s, ns⟩ b ⟨s', ns'⟩ ⟨⟨own, howned⟩, hkept⟩ hs
  obtain ⟨hstep, rfl⟩ := record_eq_some.1 hs
  refine ⟨howned.effect (step_cases hstep), fun hP' => ?_⟩
  cases hP : s.pools P with
  | some pool => exact (hkept (by simp [hP])).step howned hP hP' hstep
  | none =>
    -- the pool is new
    obtain ⟨n, rfl⟩ : ∃ n, b = .create P n := by
      cases seen_of_step (P := P) hstep with
      | created ha => exact ⟨_, ha⟩
      | apart hsame => exact absurd (hsame.pools.trans hP) hP'
      | moved hv | gone hv => simp [World.scene, hP] at hv
    have hnew : callRecords (callNotes P s (.create P n) s' ++ ns) = [] := by
      rw [callNotes, if_pos rfl]
      rfl
    show CallsKept P s' (callRecords _)
    rw [hnew]
    exact {
      ended := fun c hc => by cases hc
      underway := fun c hc => by cases hc
      oneEach := List.Pairwise.nil
      apart := List.nil_subperm }

/-- **Every job exactly once**, in every run of any number of pools, workers and callers: in the
state that it reaches the counters, the queue and the jobs of a pool are in order, and so are the
calls of `resman_tpool_enqueue` that the run has made. -/
theorem jobs_of_run {as : List Action} (h : exec (step capacity) .initial as = some s)
    (hP : s.pools P = some pool) :
    ∃ ns q, exec (record (step capacity) (callNotes P)) (.initial, []) as = some (s, ns) ∧
      JobsOk s.items.heap pool q ∧ CallsOk s.items.heap pool q (callRecords ns) := by
  obtain ⟨ns, hns⟩ : ∃ ns, exec (record (step capacity) (callNotes P)) (.initial, []) as =
      some (s, ns) :=
    exists_record h []
  obtain ⟨q, hjobs⟩ := jobsOk_of_run h hP
  have hkept := callsKept_of_run hns (by simp [hP])
  have hlog : s.log P = pool.log := log_eq hP
  have hapart := hlog ▸ hkept.apart
  refine ⟨ns, q, hns, hjobs, fun c hc hr => ?_, fun c hc r hr hne => ?_, hapart⟩
  · rcases hkept.ended c hc 0 hr with ⟨-, id, hevents⟩ | ⟨hr', -⟩
    · refine ⟨id, hevents, hjobs.states id c.request.calls (hapart.subset ?_)⟩
      exact List.mem_flatMap.2 ⟨c, hc, by simp [hevents]⟩
    · cases hr'
  · rcases hkept.ended c hc r hr with ⟨hr', -⟩ | hfailed
    · exact absurd hr' hne
    · exact hfailed

theorem jobs_of_run_firstFinished :
    let s := (exec (step 65536) .initial firstFinished).get (by decide +kernel)
    let pool := (s.pools 0).get (by decide +kernel)
    ∃ ns q, exec (record (step 65536) (callNotes 0)) (.initial, []) firstFinished = some (s, ns) ∧
      JobsOk s.items.heap pool q ∧ CallsOk s.items.heap pool q (callRecords ns) :=
  jobs_of_run (Option.some_get _).symm (Option.some_get _).symm

end Resman.TPool
