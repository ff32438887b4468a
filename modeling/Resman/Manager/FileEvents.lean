import Resman.Manager.History

/-!
# Delayed reloads wait for quiet

`resman_check_watch` does not reload a file that has been written to: it sets up a reload that is
due 128 ms later, every further write moves it on, and a close cancels it. `fileNotes` writes down
what the file monitor of one manager does, and `file_invariant` is the invariant rule for a manager
and these notes. `debounced_of_run` is the guarantee for the delayed reloads: whatever workers and
other managers do, a delayed reload begins only when the last thing that happened to the file is a
write, 128 ms ago or more.
-/

namespace Resman.Manager

open Lib Rb FileWatch

/-! ## Notes of the file monitor -/

/-- What the file monitor of a manager does:
* `opened`: a call of `resman_check_watch` reads the clock; `modified`, `closed`: an event of this
  kind was handled for a resource; `renewed`: a watch was started again, and has this descriptor;
* `reloaded`, `missed`: `reload_modified` reloads the resource of a descriptor, or finds none;
* `delayed`: `resman_poll` begins a delayed reload. -/
inductive FileNote where
  | opened (msec : Nat)
  | modified (p : ResPtr) (msec : Nat)
  | closed (p : ResPtr) (wd : BitVec 32)
  | renewed (p : ResPtr) (fd : BitVec 32)
  | reloaded (p : ResPtr) (wd : BitVec 32)
  | missed (wd : BitVec 32)
  | delayed (p : ResPtr) (startTime : Nat)
  deriving DecidableEq, Repr

/-- The notes of an event, newest first: the three tests are made in the order of `handleEvent`. -/
def eventNotes (rman : Rman) (msec : Nat) (ev : InotifyEvent) (o : Oracle) : List FileNote :=
  match rbFindi rman.nresmap ev.wd with
  | none => []
  | some p =>
    (if ev.has inIgnored then (o.watch.map (FileNote.renewed p)).toList else []) ++
      ((if ev.has inCloseWrite then [.closed p ev.wd] else []) ++
        if ev.has inModify then [.modified p msec] else [])

/-- The notes of a step of the client from one position to the next. -/
def monitorNotes (rman : Rman) (o : Oracle) : Pc → Pc → List FileNote
  | .delScan _, .watch msec => [.opened msec]
  | .watch msec, _ =>
    match o.event with
    | some ev => eventNotes rman msec ev o
    | none => []
  | .modset (wd :: _), .reloadTask p _ => [.reloaded p wd]
  | .modset (wd :: _), .modset _ => [.missed wd]
  | .doneReload startTime _ p, _ => [.delayed p startTime]
  | _, _ => []

def stepNotes (m : MgrPtr) : Action → Client → Client → List FileNote
  | .client m' o, c, c' => if m' = m then monitorNotes c.rman o c.pc c'.pc else []
  | .create .., _, _ | .call .., _, _ | .worker .., _, _ => []

def fileNotes (m : MgrPtr) (s : Sys) (a : Action) (s' : Sys) : List FileNote :=
  match s.clients m, s'.clients m with
  | some c, some c' => stepNotes m a c c'
  | _, _ => []

/-- The note is about the delayed reload of the resource. -/
def FileNote.times (p : ResPtr) : FileNote → Bool
  | modified q _ | closed q _ | delayed q _ => q = p
  | opened _ | renewed _ _ | reloaded _ _ | missed _ => false

/-! ## The invariant rule -/

section Rule

variable {m : MgrPtr} {s s' : Sys} {a : Action} {c c' : Client} {es : List FileNote}
  {ns : List Note}

theorem stepNotes_of_ne (ha : a.client? ≠ some m) : stepNotes m a c c' = [] := by
  cases a with
  | create | call | worker => rfl
  | client m' o =>
    apply if_neg
    rintro rfl
    exact ha rfl

theorem stepNotes_client (o : Oracle) :
    stepNotes m (.client m o) c c' = monitorNotes c.rman o c.pc c'.pc :=
  if_pos rfl

/-- The steps on the pool are none of the file monitor. -/
theorem monitorNotes_pool {o : Oracle} {rman : Rman} {pool pool' : Pool} {pc pc' : Pc}
    (h : poolStep m pool o pc = some (pool', pc')) : monitorNotes rman o pc pc' = [] := by
  cases poolStep_cases h <;> rfl

/-- **The invariant rule for a manager and its file monitor**: what a new manager has, and
`NoteStep` preserves, given the condition `C` on the actions, holds of the manager in every recorded
run along that condition. -/
theorem file_invariant {C : Sys × List FileNote → Action → Prop} {I : Client → List FileNote → Prop}
    (hinit : ∀ d f, I ⟨.init d f, .idle⟩ [])
    (hstep : ∀ s a c c' es ns, I c es → C (s, es) a → s.clients m = some c → NoteStep m a c c' ns →
      I c' (stepNotes m a c c' ++ es))
    {numThreads : Nat} {as : List Action}
    (hC : Along (record step (fileNotes m)) C (.initial numThreads, []) as)
    (h : exec (record step (fileNotes m)) (.initial numThreads, []) as = some (s, es)) :
    (∀ c, s.clients m = some c → I c es) ∧ (s.clients m = none → es = []) := by
  refine exec_invariant (I := fun x : Sys × List FileNote =>
    (∀ c, x.1.clients m = some c → I c x.2) ∧
    (x.1.clients m = none → x.2 = [])) ?_ ?_ hC h
  · exact ⟨fun c hc => (by cases hc), fun _ => rfl⟩
  · rintro ⟨s, es⟩ a ⟨s', es'⟩ ⟨hsome, hnone⟩ hCa hs
    obtain ⟨hs', rfl⟩ := record_eq_some.1 hs
    dsimp only at hsome hnone ⊢
    cases hc : s.clients m with
    | none =>
      have hes : fileNotes m s a s' ++ es = [] := by
        rw [hnone hc, fileNotes, hc]
        rfl
      refine ⟨fun c' hc' => ?_, fun _ => hes⟩
      obtain ⟨d, f, rfl⟩ := (step_notes_absent hs' hc).2 c' hc'
      exact hes ▸ hinit d f
    | some c =>
      obtain ⟨c', hc', hv⟩ := step_notes hs' hc
      refine ⟨fun c₁ hc₁ => ?_, fun hnone' => ?_⟩
      · obtain rfl : c' = c₁ := Option.some.inj (hc'.symm.trans hc₁)
        simp only [fileNotes, hc, hc']
        exact hstep s a c c' es _ (hsome c hc) hCa hc hv
      · rw [hc'] at hnone'
        cases hnone'

end Rule

/-! ## What an event does to the delayed reloads -/

section Timeouts

variable {rman rman₁ rman' : Rman} {pc pc' : Pc} {p q : ResPtr} {o : Oracle} {msec : Nat}
  {ev : InotifyEvent}

/-- Every resource of the later state was there before, and `f` gives its timeout. -/
def Retimes (f : ResPtr → Nat → Nat) (rman rman' : Rman) : Prop :=
  ∀ q r', rman'.heap q = some r' → ∃ r, rman.heap q = some r ∧
    r'.reloadTimeout = f q r.reloadTimeout

theorem Retimes.comp {f g : ResPtr → Nat → Nat} (h : Retimes f rman rman₁)
    (h' : Retimes g rman₁ rman') :
    Retimes (fun q t => g q (f q t)) rman rman' := by
  intro q r' hr'
  obtain ⟨r₁, hr₁, heq'⟩ := h' q r' hr'
  obtain ⟨r, hr, heq⟩ := h q r₁ hr₁
  exact ⟨r, hr, heq'.trans (congrArg (g q) heq)⟩

theorem Retimes.of_keeps (h : KeepsField Resource.reloadTimeout rman rman') :
    Retimes (fun _ t => t) rman rman' := h

/-- A write of the timeout of one resource. -/
theorem Retimes.of_update {time : Nat}
    (h : (rman.update p fun r => { r with reloadTimeout := time }) = some rman') :
    Retimes (fun q t => if q = p then time else t) rman rman' := by
  intro q r' hr'
  obtain ⟨r, hr, rfl⟩ := heap_of_update h
  rcases update_eq_some.1 hr' with ⟨rfl, hfr⟩ | ⟨hne, hr'⟩
  · obtain rfl := Option.some.inj hfr
    exact ⟨r, hr, (if_pos rfl).symm⟩
  · exact ⟨r', hr', (if_neg hne).symm⟩

/-- `f` for the resource that a descriptor stands for. -/
def atSlot (slot : Option ResPtr) (f : Nat → Nat) (q : ResPtr) (t : Nat) : Nat :=
  if slot = some q then f t else t

theorem atSlot_none (f : Nat → Nat) : atSlot none f = fun _ t => t := by
  funext q t
  exact if_neg nofun

theorem atSlot_some (p : ResPtr) (f : Nat → Nat) :
    atSlot (some p) f = fun q t => if q = p then f t else t := by
  funext q t
  simp only [atSlot, Option.some_inj, eq_comm]

theorem atSlot_id (slot : Option ResPtr) : atSlot slot (fun t => t) = fun _ t => t := by
  funext q t
  exact ite_self t

theorem onModify_retimes {wd : BitVec 32} (h : onModify rman msec wd = some rman') :
    Retimes (atSlot (rbFindi rman.nresmap wd) fun _ => msec + 128) rman rman' ∧
      rman'.nresmap = rman.nresmap := by
  unfold onModify at h
  split at h
  · next hnone =>
    obtain rfl := Option.some.inj h
    rw [hnone, atSlot_none]
    exact ⟨.of_keeps (.refl _), rfl⟩
  · next p hsome =>
    rw [hsome, atSlot_some]
    refine ⟨.of_update h, ?_⟩
    obtain ⟨r, -, rfl⟩ := heap_of_update h
    rfl

theorem onCloseWrite_retimes {wd : BitVec 32} (h : onCloseWrite rman wd o = some rman') :
    Retimes (atSlot (rbFindi rman.nresmap wd) fun _ => 0) rman rman' := by
  unfold onCloseWrite at h
  split at h
  · next hnone =>
    obtain rfl := Option.some.inj h
    rw [hnone, atSlot_none]
    exact .of_keeps (.refl _)
  · next p hsome =>
    rw [hsome, atSlot_some]
    obtain ⟨modset, -, h⟩ := Option.bind_eq_some_iff.1 h
    have hset : Retimes (fun _ t => t) rman { rman with modset } := .of_keeps (.of_heap_eq rfl)
    exact hset.comp (.of_update h)

/-- A watch that is started again, or given up, leaves the delayed reloads alone. -/
theorem onIgnored_timeout {wd : BitVec 32} (h : onIgnored rman wd o = some rman') :
    KeepsField Resource.reloadTimeout rman rman' := by
  unfold onIgnored at h
  split at h
  · exact Option.some.inj h ▸ .refl _
  · next p _ =>
    simp only [Option.bind_eq_bind, Option.bind_eq_some_iff] at h
    obtain ⟨r, -, rman₁, hclear, ⟨rman₂, ok⟩, hstart, h⟩ := h
    have hkeep := KeepsField.trans (g := Resource.reloadTimeout) (.of_update hclear fun _ => rfl)
      (startWatch_keeps (fun _ _ => rfl) hstart)
    dsimp only at h
    split at h
    · simp only [Option.bind_eq_some_iff] at h
      obtain ⟨r₁, -, modset, -, h⟩ := h
      obtain rfl := Option.some.inj h
      exact hkeep.trans (.of_heap_eq rfl)
    · obtain ⟨rman₃, hback, hstop⟩ := Option.bind_eq_some_iff.1 h
      exact hkeep.trans ((KeepsField.of_update hback fun _ => rfl).trans (stopWatch_keeps hstop))

/-- What an event does to the timeout of the resource under its descriptor: a close counts, if there
is one, and a write otherwise. -/
def retime (ev : InotifyEvent) (msec t : Nat) : Nat :=
  if ev.has inCloseWrite then 0 else if ev.has inModify then msec + 128 else t

theorem handleEvent_retimes (h : handleEvent rman msec ev o = some rman') :
    Retimes (atSlot (rbFindi rman.nresmap ev.wd) (retime ev msec)) rman rman' := by
  simp only [handleEvent, Option.bind_eq_bind, Option.bind_eq_some_iff] at h
  obtain ⟨rman₁, h₁, rman₂, h₂, h₃⟩ := h
  have hmodify : Retimes (atSlot (rbFindi rman.nresmap ev.wd) fun t => if ev.has inModify
      then msec + 128 else t) rman rman₁ ∧ rman₁.nresmap = rman.nresmap := by
    rw [ifFlag] at h₁
    split at h₁
    · next hflag =>
      simp only [hflag, if_true]
      exact onModify_retimes h₁
    · next hflag =>
      obtain rfl := Option.some.inj h₁
      simp only [hflag, Bool.false_eq_true, if_false, atSlot_id]
      exact ⟨.of_keeps (.refl _), trivial⟩
  have hclose : Retimes (atSlot (rbFindi rman.nresmap ev.wd) fun t => if ev.has inCloseWrite then 0
      else t) rman₁ rman₂ := by
    rw [← hmodify.2]
    rw [ifFlag] at h₂
    split at h₂
    · next hflag =>
      simp only [hflag, if_true]
      exact onCloseWrite_retimes h₂
    · next hflag =>
      obtain rfl := Option.some.inj h₂
      simp only [hflag, Bool.false_eq_true, if_false, atSlot_id]
      exact .of_keeps (.refl _)
  have hignore : KeepsField Resource.reloadTimeout rman₂ rman' :=
    ifFlag_rel (.refl _) onIgnored_timeout h₃
  intro q r' hr'
  obtain ⟨r, hr, heq⟩ := ((hmodify.1.comp hclose).comp (.of_keeps hignore)) q r' hr'
  refine ⟨r, hr, heq.trans ?_⟩
  simp only [atSlot, retime]
  split <;> rfl

/-! ## What the other steps do to the watches -/

/-- The changes that a step of a manager makes outside of the loop over the events and
before the modified set is cleared: writes to a resource that are none of the file monitor,
and calls of the file monitor. -/
inductive Change (rman : Rman) (o : Oracle) (pc : Pc) : Rman → Prop where
  | none : Change rman o pc rman
  | tasks {tasks : List TaskPtr} {ntasks : Nat} : Change rman o pc { rman with tasks, ntasks }
  | destroy {i : Nat} : Change rman o pc (callDestroy rman i)
  | write {p : ResPtr} {f : Resource → Resource} {rman' : Rman} (h : rman.update p f = some rman')
      (hf : ∀ r, (f r).nfd = r.nfd ∧ (f r).reloadTimeout = r.reloadTimeout) : Change rman o pc rman'
  | cancel {startTime i : Nat} {p : ResPtr} {rman' : Rman} (hpc : pc = .doneReload startTime i p)
      (h : (rman.update p fun r => { r with reloadTimeout := 0 }) = some rman') :
      Change rman o pc rman'
  | start {p : ResPtr} {f : Resource → Resource} {rman₁ rman' : Rman} {ok : Bool}
      (h : rman.update p f = some rman₁)
      (hf : ∀ r, (f r).nfd = r.nfd ∧ (f r).reloadTimeout = r.reloadTimeout)
      (hstart : startWatch rman₁ p o = some (rman', ok)) : Change rman o pc rman'
  | stop {p : ResPtr} {rman' : Rman} (h : stopWatch rman p = some rman') : Change rman o pc rman'
  | free {p : ResPtr} {r : Resource} {res : List (Option ResPtr)} (hr : rman.heap p = some r) :
      Change rman o pc
        { rman with res, heap := Function.update rman.heap p none, log := .freed p :: rman.log }

/-- **The changes of a step of the client.** -/
theorem localStep_change (hwatch : ∀ msec, pc ≠ .watch msec) (hmodset : pc ≠ .modset [])
    (h : localStep rman o pc = some (rman', pc')) : Change rman o pc rman' := by
  cases pc with
  | idle | reloadEnq | drain | destroyRelease | poolClear | poolQuit | poolJoin | dead => cases h
  | watch msec => exact absurd rfl (hwatch msec)
  | reloadTask q k =>
    obtain ⟨rfl, -⟩ := Prod.mk.inj (Option.some.inj h)
    split
    · exact .tasks
    · exact .tasks
  | reloadFlag q t k =>
    obtain ⟨rman₁, hup, heq⟩ := Option.map_eq_some_iff.1 h
    obtain ⟨rfl, -⟩ := Prod.mk.inj heq
    exact .write hup fun _ => ⟨rfl, rfl⟩
  | delScan i | delTest i q =>
    obtain ⟨x, -, heq⟩ := Option.map_eq_some_iff.1 h
    obtain ⟨rfl, -⟩ := Prod.mk.inj heq
    exact .none
  | delCall i q | rmCall i q k | destroyCall i q =>
    obtain ⟨rfl, -⟩ := Prod.mk.inj (Option.some.inj h)
    exact .destroy
  | rmStop i q k =>
    obtain ⟨rman₁, hstop, heq⟩ := Option.map_eq_some_iff.1 h
    obtain ⟨rfl, -⟩ := Prod.mk.inj heq
    exact .stop hstop
  | rmFree i q k =>
    obtain ⟨rman₁, hfree, heq⟩ := Option.map_eq_some_iff.1 h
    obtain ⟨rfl, -⟩ := Prod.mk.inj heq
    obtain ⟨r, hr, hfree⟩ := Option.bind_eq_some_iff.1 hfree
    obtain rfl := Option.some.inj hfree
    exact .free hr
  | modset wds =>
    cases wds with
    | nil => exact absurd rfl hmodset
    | cons wd wds =>
      obtain ⟨pc₁, -, heq⟩ := Option.map_eq_some_iff.1 h
      obtain ⟨rfl, -⟩ := Prod.mk.inj heq
      exact .none
  | doneStart =>
    obtain ⟨rfl, -⟩ := Prod.mk.inj (Option.some.inj h)
    exact .none
  | doneScan t i =>
    cases doneScan_cases h with
    | doneTake _ _ _ hup => exact .write hup fun _ => ⟨rfl, rfl⟩
    | doneEnd | doneSkip | doneLate => exact .none
  | doneReload t i q =>
    obtain ⟨rman₁, hup, heq⟩ := Option.map_eq_some_iff.1 h
    obtain ⟨rfl, -⟩ := Prod.mk.inj heq
    exact .cancel rfl hup
  | doneCall t i q =>
    obtain ⟨r, -, ⟨-, -, rfl, -⟩ | ⟨-, ⟨rman₁, ok, hup, hstart⟩, -⟩⟩ := doneReturn_spec h
    · exact .none
    · exact .start hup (fun _ => ⟨rfl, rfl⟩) hstart
  | destroyScan i =>
    simp only [localStep] at h
    split at h
    all_goals
      obtain ⟨rfl, -⟩ := Prod.mk.inj (Option.some.inj h)
      exact .none
  | destroyFree i q =>
    obtain ⟨r, hr, h⟩ := Option.bind_eq_some_iff.1 h
    obtain ⟨rfl, -⟩ := Prod.mk.inj (Option.some.inj h)
    exact .free hr

/-- The changes of the last section of `work_func`. -/
theorem workDone_change (h : workDone rman p o = some rman') : Change rman o pc rman' := by
  simp only [workDone, Option.bind_eq_bind, Option.bind_eq_some_iff] at h
  obtain ⟨rman₁, hup, r, -, h⟩ := h
  split at h
  · rw [update_update hup] at h
    exact .write h fun _ => ⟨rfl, rfl⟩
  · split at h
    · split at h
      · rw [update_update hup] at h
        exact .write h fun _ => ⟨rfl, rfl⟩
      · obtain rfl := Option.some.inj h
        exact .write hup fun _ => ⟨rfl, rfl⟩
    · obtain ⟨⟨rman₂, ok⟩, hstart, h⟩ := Option.bind_eq_some_iff.1 h
      obtain rfl := Option.some.inj h
      exact .start hup (fun _ => ⟨rfl, rfl⟩) hstart

theorem callDestroy_heap (i : Nat) : (callDestroy rman i).heap = rman.heap := by
  unfold callDestroy
  split <;> rfl

/-- A field that the writes to the resources keep, and a watch that is started. -/
theorem Change.keeps {α : Type} {g : Resource → α} (h : Change rman o pc rman')
    (hg : ∀ r r' : Resource, r'.nfd = r.nfd → r'.reloadTimeout = r.reloadTimeout → g r' = g r)
    (hreload : ∀ t i p, pc ≠ .doneReload t i p)
    (hstart : o.watch = .none ∨ ∀ r fd, g { r with nfd := fd } = g r) :
    KeepsField g rman rman' := by
  cases h with
  | none => exact .refl _
  | tasks => exact .of_heap_eq rfl
  | destroy => exact .of_heap_eq (callDestroy_heap _)
  | write hup hf => exact .of_update hup fun r => hg r _ (hf r).1 (hf r).2
  | cancel hpc => exact absurd hpc (hreload _ _ _)
  | start hup hf hwatch =>
    refine (KeepsField.of_update hup fun r => hg r _ (hf r).1 (hf r).2).trans ?_
    rcases hstart with hnone | hnfd
    · obtain ⟨r, -, ⟨-, rfl, -⟩ | ⟨-, -, rfl, -⟩ | ⟨fd, nresmap, -, hw, -⟩⟩ :=
        startWatch_cases hwatch
      · exact .refl _
      · exact .refl _
      · cases hnone.symm.trans hw
    · exact startWatch_keeps hnfd hwatch
  | stop hstop => exact stopWatch_keeps hstop
  | free => exact .of_clear rfl

/-- The steps in between keep the delayed reloads. -/
theorem Change.timeout (h : Change rman o pc rman') (hreload : ∀ t i p, pc ≠ .doneReload t i p) :
    KeepsField Resource.reloadTimeout rman rman' :=
  h.keeps (fun _ _ _ htime => htime) hreload (.inr fun _ _ => rfl)

end Timeouts

/-! ## The guarantee -/

/-- The last thing that happened to the file of the resource is a write that was found out at a time
from which `time` is 128 ms away. -/
def WrittenLast (p : ResPtr) (time : Nat) (es : List FileNote) : Prop :=
  ∃ msec, es.find? (·.times p) = some (.modified p msec) ∧ time = msec + 128

/-- A manager and the notes of its file monitor: a delayed reload that is set up, one that the
client has picked, and those that have begun. -/
structure Debounced (c : Client) (es : List FileNote) : Prop where
  setUp : ∀ p, ∀ r ∈ c.rman.heap p, r.reloadTimeout ≠ 0 → WrittenLast p r.reloadTimeout es
  picked : ∀ startTime i p, c.pc = .doneReload startTime i p →
    ∀ r ∈ c.rman.heap p, r.reloadTimeout ≠ 0 ∧ r.reloadTimeout ≤ startTime
  begun : ∀ p startTime l, .delayed p startTime :: l <:+ es →
    ∃ time ≤ startTime, WrittenLast p time l

section Debounce

variable {rman rman' : Rman} {pc pc' : Pc} {p : ResPtr} {o : Oracle} {msec startTime : Nat}
  {ev : InotifyEvent} {es fs : List FileNote} {m : MgrPtr} {a : Action}
  {c c' : Client} {ns : List Note}

/-- **The notes of an event.** -/
theorem mem_eventNotes {n : FileNote} : n ∈ eventNotes rman msec ev o ↔
    ∃ q, rbFindi rman.nresmap ev.wd = some q ∧
      ((ev.has inIgnored = true ∧ ∃ fd, o.watch = some fd ∧ n = .renewed q fd) ∨
        (ev.has inCloseWrite = true ∧ n = .closed q ev.wd) ∨
          (ev.has inModify = true ∧ n = .modified q msec)) := by
  rw [eventNotes]
  cases rbFindi rman.nresmap ev.wd with
  | none => simp
  | some q =>
    have hite : ∀ (b : Bool) (l : List FileNote), n ∈ (if b then l else []) ↔ b = true ∧ n ∈ l := by
      intro b l
      cases b <;> simp
    simp only [List.mem_append, hite, Option.mem_toList, Option.map_eq_some_iff, List.mem_singleton,
      Option.some_inj, exists_eq_left', eq_comm (a := n)]

theorem find?_eventNotes_other (h : rbFindi rman.nresmap ev.wd ≠ some p) :
    (eventNotes rman msec ev o).find? (·.times p) = none := by
  rw [List.find?_eq_none]
  intro n hn
  obtain ⟨q, hq, hcase⟩ := mem_eventNotes.1 hn
  have hne : q ≠ p := fun heq => h (heq ▸ hq)
  rcases hcase with ⟨-, fd, -, rfl⟩ | ⟨-, rfl⟩ | ⟨-, rfl⟩
  · exact Bool.false_ne_true
  · exact Bool.eq_false_iff.1 (decide_eq_false hne)
  · exact Bool.eq_false_iff.1 (decide_eq_false hne)

theorem find?_eventNotes_self (h : rbFindi rman.nresmap ev.wd = some p) :
    (eventNotes rman msec ev o).find? (·.times p) =
      if ev.has inCloseWrite then some (.closed p ev.wd)
      else if ev.has inModify then some (.modified p msec) else none := by
  have hrenewed : (if ev.has inIgnored then (o.watch.map (FileNote.renewed p)).toList else []).find?
      (·.times p) =
      none := by
    rw [List.find?_eq_none]
    intro n hn
    split at hn
    · obtain ⟨fd, -, rfl⟩ := Option.map_eq_some_iff.1 (Option.mem_toList.1 hn)
      exact Bool.false_ne_true
    · cases hn
  rw [eventNotes, h]
  dsimp only
  rw [List.find?_append, hrenewed, Option.none_or, List.find?_append]
  split
  · simp [FileNote.times]
  · split
    · simp [FileNote.times]
    · rfl

/-- Notes that are not about the delayed reload of a resource. -/
theorem WrittenLast.append {time : Nat} (h : WrittenLast p time es)
    (hfs : fs.find? (·.times p) = none) :
    WrittenLast p time (fs ++ es) := by
  obtain ⟨msec, hfind, htime⟩ := h
  exact ⟨msec, by rw [List.find?_append, hfs, Option.none_or, hfind], htime⟩

/-- A delayed reload that is set up after an event: the event is a write, or is
not about the resource. -/
theorem WrittenLast.event {t : Nat} (h : t ≠ 0 → WrittenLast p t es)
    (hne : atSlot (rbFindi rman.nresmap ev.wd) (retime ev msec) p t ≠ 0) :
    WrittenLast p (atSlot (rbFindi rman.nresmap ev.wd) (retime ev msec) p t)
      (eventNotes rman msec ev o ++ es) := by
  rw [atSlot] at hne ⊢
  split
  · next hslot =>
    have hfind : (eventNotes rman msec ev o).find? (·.times p) = _ := find?_eventNotes_self hslot
    rw [if_pos hslot, retime] at hne
    rw [retime]
    by_cases hclose : ev.has inCloseWrite = true
    · exact absurd (if_pos hclose) hne
    · rw [if_neg hclose] at hfind hne ⊢
      split
      · next hmodify =>
        rw [if_pos hmodify] at hfind
        exact ⟨msec, by rw [List.find?_append, hfind, Option.some_or], rfl⟩
      · next hmodify =>
        rw [if_neg hmodify] at hfind hne
        exact (h hne).append hfind
  · next hslot =>
    rw [if_neg hslot] at hne
    exact (h hne).append (find?_eventNotes_other hslot)

theorem Cont.resume_ne_doneReload (k : Cont) {i : Nat} : k.resume ≠ .doneReload startTime i p := by
  cases k <;> exact nofun

/-- A delayed reload is begun when it is due. -/
theorem localStep_late {i : Nat}
    (h : localStep rman o pc = some (rman', .doneReload startTime i p)) :
    rman' = rman ∧ ∃ r, rman.heap p = some r ∧ r.reloadTimeout ≠ 0 ∧
      r.reloadTimeout ≤ startTime := by
  have hpc : pc = .doneScan startTime i := by
    generalize hpc' : Pc.doneReload startTime i p = pc' at h
    cases localStep_cases h with
    | doneLate =>
      cases hpc'
      rfl
    | rmFree => exact absurd hpc'.symm (Cont.resume_ne_doneReload _)
    | doneOk _ _ hk => rcases hk with rfl | rfl <;> cases hpc'
    | _ => cases hpc'
  subst hpc
  simp only [localStep, doneScan] at h
  split at h
  · cases h
  · cases h
  · next q _ =>
    simp only [Option.bind_eq_bind, Option.bind_eq_some_iff] at h
    obtain ⟨r, hr, h⟩ := h
    split at h
    · obtain ⟨rman₁, -, h⟩ := Option.bind_eq_some_iff.1 h
      cases h
    · split at h
      · next hexp =>
        cases h
        exact ⟨rfl, r, hr, hexp⟩
      · cases h

theorem none_times : ∀ n ∈ ([] : List FileNote), ∀ p, n.times p = false := by
  intro n hn
  cases hn

namespace Debounced

/-- A step that sets up, cancels and begins no delayed reload. -/
theorem pass (hI : Debounced ⟨rman, pc⟩ es)
    (hk : ∀ q, ∀ r' ∈ rman'.heap q, r'.reloadTimeout ≠ 0 →
      ∃ r ∈ rman.heap q, r'.reloadTimeout = r.reloadTimeout)
    (hfs : ∀ n ∈ fs, ∀ q, n.times q = false)
    (hpc : ∀ t i q, pc' = .doneReload t i q → ∀ r ∈ rman'.heap q, r.reloadTimeout ≠ 0 ∧
      r.reloadTimeout ≤ t) :
    Debounced ⟨rman', pc'⟩ (fs ++ es) where
  setUp q r' hr' hne := by
    obtain ⟨r, hr, heq⟩ := hk q r' hr' hne
    rw [heq] at hne ⊢
    refine (hI.setUp q r hr hne).append ?_
    rw [List.find?_eq_none]
    intro n hn
    exact Bool.eq_false_iff.1 (hfs n hn q)
  picked := hpc
  begun q t l hl := by
    refine hI.begun q t l (suffix_of_not_mem ?_ hl)
    intro hn
    have htimes := hfs _ hn q
    simp [FileNote.times] at htimes

/-- The client does not move, or not to the begin of a delayed reload. -/
theorem keeps (hI : Debounced ⟨rman, pc⟩ es) (hk : KeepsField Resource.reloadTimeout rman rman')
    (hfs : ∀ n ∈ fs, ∀ q, n.times q = false) (hpc : pc' = pc ∨ ∀ t i q, pc' ≠ .doneReload t i q) :
    Debounced ⟨rman', pc'⟩ (fs ++ es) := by
  refine hI.pass (fun q r' hr' _ => hk q r' hr') hfs ?_
  intro t i q heq r' hr'
  rcases hpc with rfl | hne
  · obtain ⟨r, hr, htime⟩ := hk q r' hr'
    rw [htime]
    exact hI.picked t i q heq r hr
  · exact absurd heq (hne t i q)

theorem event (hI : Debounced ⟨rman, .watch msec⟩ es)
    (h : handleEvent rman msec ev o = some rman') :
    Debounced ⟨rman', .watch msec⟩ (eventNotes rman msec ev o ++ es) where
  setUp q r' hr' hne := by
    obtain ⟨r, hr, heq⟩ := handleEvent_retimes h q r' hr'
    rw [heq] at hne ⊢
    exact WrittenLast.event (hI.setUp q r hr) hne
  picked t i q heq := by cases heq
  begun q t l hl := by
    refine hI.begun q t l (suffix_of_not_mem ?_ hl)
    intro hn
    obtain ⟨p, -, ⟨-, fd, -, heq⟩ | ⟨-, heq⟩ | ⟨-, heq⟩⟩ := mem_eventNotes.1 hn
    all_goals cases heq

/-- The reload begins, and no delayed reload is set up any more. -/
theorem late {i : Nat} {k : Cont} (hI : Debounced ⟨rman, .doneReload startTime i p⟩ es)
    (h : (rman.update p fun r => { r with reloadTimeout := 0 }) = some rman') :
    Debounced ⟨rman', .reloadTask p k⟩ (.delayed p startTime :: es) where
  setUp q r' hr' hne := by
    obtain ⟨r, hr, heq⟩ := Retimes.of_update h q r' hr'
    dsimp only at heq
    rw [heq] at hne ⊢
    split
    · next hqp => exact absurd (if_pos hqp) hne
    · next hqp =>
      rw [if_neg hqp] at hne
      have hfind : [FileNote.delayed p startTime].find? (·.times q) = none := by
        simpa [FileNote.times] using Ne.symm hqp
      exact (hI.setUp q r hr hne).append hfind
  picked t i q heq := by cases heq
  begun q t l hl := by
    rcases List.suffix_cons_iff.1 hl with heq | hl
    · obtain ⟨hhead, rfl⟩ := List.cons.inj heq
      obtain ⟨rfl, rfl⟩ := FileNote.delayed.inj hhead
      obtain ⟨r, hr, -⟩ := heap_of_update h
      obtain ⟨hne, hle⟩ := hI.picked _ _ _ rfl r hr
      exact ⟨r.reloadTimeout, hle, hI.setUp _ r hr hne⟩
    · exact hI.begun q t l hl

theorem client (hI : Debounced ⟨rman, pc⟩ es) (h : localStep rman o pc = some (rman', pc')) :
    Debounced ⟨rman', pc'⟩ (monitorNotes rman o pc pc' ++ es) := by
  by_cases hwatch : ∃ msec, pc = .watch msec
  · obtain ⟨msec, rfl⟩ := hwatch
    simp only [localStep] at h
    rw [monitorNotes.eq_def]
    dsimp only
    cases hev : o.event with
    | some ev =>
      rw [hev] at h
      obtain ⟨rman₁, hhandle, heq⟩ := Option.map_eq_some_iff.1 h
      obtain ⟨rfl, rfl⟩ := Prod.mk.inj heq
      exact hI.event hhandle
    | none =>
      rw [hev] at h
      obtain ⟨rfl, rfl⟩ := Prod.mk.inj (Option.some.inj h)
      exact hI.keeps (.refl _) none_times (.inr fun t i q heq => by cases heq)
  by_cases hreload : ∃ t i p, pc = .doneReload t i p
  · obtain ⟨t, i, p, rfl⟩ := hreload
    obtain ⟨rman₁, hup, heq⟩ := Option.map_eq_some_iff.1 h
    obtain ⟨rfl, rfl⟩ := Prod.mk.inj heq
    exact hI.late hup
  by_cases hmodset : pc = .modset []
  · subst hmodset
    obtain ⟨rfl, rfl⟩ := Prod.mk.inj (Option.some.inj h)
    exact hI.keeps (.of_heap_eq rfl) none_times (.inr fun t i q heq => by cases heq)
  have hk : KeepsField Resource.reloadTimeout rman rman' :=
    (localStep_change (fun msec heq => hwatch ⟨msec, heq⟩) hmodset h).timeout
      fun t i p heq => hreload ⟨t, i, p, heq⟩
  refine hI.pass (fun q r' hr' _ => hk q r' hr') ?_ ?_
  · intro n hn q
    unfold monitorNotes at hn
    split at hn
    · obtain rfl := List.mem_singleton.1 hn
      rfl
    · exact absurd ⟨_, rfl⟩ hwatch
    · obtain rfl := List.mem_singleton.1 hn
      rfl
    · obtain rfl := List.mem_singleton.1 hn
      rfl
    · exact absurd ⟨_, _, _, rfl⟩ hreload
    · cases hn
  · rintro t i q rfl r' hr'
    obtain ⟨rfl, r, hr, hexp⟩ := localStep_late h
    obtain rfl := Option.some.inj (hr.symm.trans hr')
    exact hexp

/-- **Every action keeps the delayed reloads in order.** -/
theorem step (hI : Debounced c es) (hv : NoteStep m a c c' ns) :
    Debounced c' (stepNotes m a c c' ++ es) := by
  cases hv with
  | frame ha =>
    rw [stepNotes_of_ne ha]
    exact hI
  | call h =>
    refine hI.pass ?_ none_times ?_
    · intro q r' hr' hne
      rcases callStep_keeps (g := Resource.reloadTimeout) h fun _ _ => rfl with
        hk | ⟨fname, data, mem, -, -, rfl, -⟩
      · exact hk q r' hr'
      · rcases mem_heap_append.1 hr' with ⟨-, rfl⟩ | ⟨-, hr⟩
        · exact absurd rfl hne
        · exact ⟨r', hr, rfl⟩
    · rintro t i q rfl
      cases callStep_cases h
  | client h =>
    rw [stepNotes_client]
    exact hI.client h
  | pool h =>
    rw [stepNotes_client, monitorNotes_pool h]
    refine hI.keeps (.refl _) none_times (.inr ?_)
    intro t i q heq
    cases poolStep_cases h with
    | enqueue | lost => exact Cont.resume_ne_doneReload _ heq
    | release hpc => rcases hpc with rfl | rfl <;> cases heq
    | drain | clear | quit | join => cases heq
  | taken => exact hI.keeps (.of_heap_eq rfl) none_times (.inl rfl)
  | returned hup => exact hI.keeps (.of_update hup fun _ => rfl) none_times (.inl rfl)
  | completed _ hdone =>
    have hchange : Change _ _ .idle _ := workDone_change hdone
    exact hI.keeps (hchange.timeout nofun) none_times (.inl rfl)

end Debounced

end Debounce

end Resman.Manager
