import Resman.DynArr.Words
import Resman.Lib.Run
import Resman.Lib.Tally
import Resman.Win32.Steps

/-!
# The handles that are waited for

`wait_handles` should be the handle of the pool and the events of the watched directories.
`handlesMatch_iff` says when it is: while no directory loses its last reference.
-/

namespace Resman.Win32

open Rb Dynarr Lib

variable {s s' : State} {p : ResPtr} {env : StartEnv} {path : Text} {d : DirPtr} {w : WatchDir}
  {da : DynArr} {hs : List Handle} {h : Handle}

/-! ## What the array should hold -/

/-- The handles in `wait_handles`. -/
def State.handles (s : State) : Option (List Handle) := do
  let da ← s.waitHandles
  readWords da.buf da.nelem.toNat 0

/-- The events of the directories in `watchdirs`. -/
def State.events (s : State) : List Handle :=
  (rbForeach s.watchdirs).filterMap fun e => e.2.bind fun d => (s.wdirs d).map WatchDir.hEvent

/-- The array is the handle of the pool and then the event of each directory,
once, and all are open. -/
def HandlesMatch (s : State) : Prop :=
  ∃ hs, s.handles = some (s.tpoolWaitHandle :: hs) ∧ hs.Perm s.events ∧
    (s.tpoolWaitHandle :: hs).Nodup ∧
    ∀ h ∈ s.tpoolWaitHandle :: hs, s.opened h = true

/-- No directory loses its last reference. -/
def KeepsDirs (s : State) : Action → Prop
  | .stopWatch p _ | .remove p _ => ∀ d ∈ s.dirOf p, ∀ w ∈ s.wdirs d, 1 < w.nref
  | _ => True

instance (s : State) : DecidablePred (KeepsDirs s)
  | .stopWatch p _ | .remove p _ =>
    haveI (d : DirPtr) := Option.decidableForallMem (p := fun w : WatchDir => 1 < w.nref)
      (s.wdirs d)
    Option.decidableForallMem (p := fun d : DirPtr => ∀ w ∈ s.wdirs d, 1 < w.nref) (s.dirOf p)
  | .create .. | .startWatch .. => isTrue trivial

/-! ## The array -/

theorem initHandles_holds (pool : Handle) :
    ∃ da, initHandles pool = some da ∧ HoldsWords da [pool] := by
  refine ⟨⟨1, 8, 1, 8, (wordBytes pool).map some⟩, rfl, rfl, rfl, ?_, ?_, ?_⟩
  · simp [length_wordBytes]
  · simp [wordSize, length_wordBytes]
  · simp [wordSize, length_wordBytes]

theorem handles_of_holds (ha : HoldsWords da hs) (hda : s.waitHandles = some da) :
    s.handles = some hs := by
  rw [State.handles, hda]
  exact ha.words

/-- A handle that is not there is not found. -/
theorem findHandle_of_not_mem (ha : HoldsWords da hs) (hh : h ∉ hs) :
    ∀ n i, i + n ≤ hs.length → findHandle da.buf h n i = some none
  | 0, i, _ => rfl
  | n + 1, i, hle => by
    have hi : i < hs.length := by omega
    have hne : hs[i] ≠ h := fun heq => hh (heq ▸ List.getElem_mem hi)
    rw [findHandle, ha.read hi]
    show (if hs[i] = h then _ else _) = _
    rw [if_neg hne]
    exact findHandle_of_not_mem ha hh n (i + 1) (by omega)

theorem dropHandle_of_not_mem (ha : HoldsWords da hs) (hh : h ∉ hs) (env : StopEnv) :
    dropHandle da h env = some (some da) := by
  rw [dropHandle, findHandle_of_not_mem ha hh da.nelem.toNat 0 (by rw [ha.nelem]; omega)]
  rfl

/-! ## The events -/

theorem mem_events : h ∈ s.events ↔
    ∃ path d w, (path, some d) ∈ rbForeach s.watchdirs ∧ s.wdirs d = some w ∧ w.hEvent = h := by
  simp only [State.events, List.mem_filterMap, Option.bind_eq_some_iff, Option.map_eq_some_iff]
  constructor
  · rintro ⟨⟨path, e⟩, he, d, hd, w, hw, rfl⟩
    cases hd
    exact ⟨path, d, w, he, hw, rfl⟩
  · rintro ⟨path, d, w, he, hw, rfl⟩
    exact ⟨(path, some d), he, d, rfl, w, hw, rfl⟩

/-- The directories have the same events. -/
theorem events_eq (htree : s'.watchdirs = s.watchdirs)
    (hev : ∀ d, (s'.wdirs d).map WatchDir.hEvent = (s.wdirs d).map WatchDir.hEvent) :
    s'.events = s.events := by
  unfold State.events
  rw [htree]
  simp only [hev]

theorem map_hEvent_update {w' : WatchDir} (hw : s.wdirs d = some w) (hev : w'.hEvent = w.hEvent)
    (d' : DirPtr) :
    (Function.update s.wdirs d (some w') d').map WatchDir.hEvent =
      (s.wdirs d').map WatchDir.hEvent := by
  by_cases hd : d' = d
  · subst hd
    rw [Function.update_self, hw, Option.map_some, Option.map_some, hev]
  · rw [Function.update_of_ne hd]

/-- A new directory adds its event. -/
theorem Wired.events_insert (hW : Wired s) (hfind : rbFind s.watchdirs path = none)
    (hd : s.wdirs d = none) (hdirs : s'.wdirs = Function.update s.wdirs d (some w))
    (hforeach : rbForeach s'.watchdirs = put strcmp path (some d) (rbForeach s.watchdirs)) :
    s'.events.Perm (w.hEvent :: s.events) := by
  have hnew : ∀ e ∈ rbForeach s.watchdirs, e.1 ≠ path := fun e he => hW.path_ne he hfind
  have hold : (rbForeach s.watchdirs).filterMap
      (fun e => e.2.bind fun d => (s'.wdirs d).map WatchDir.hEvent) = s.events := by
    refine List.filterMap_congr ?_
    rintro ⟨path', e⟩ he
    obtain ⟨d', w', -, rfl, hw', -⟩ := hW.entry path' e he
    have hne : d' ≠ d := ne_of_none hd hw'
    show (s'.wdirs d').map WatchDir.hEvent = (s.wdirs d').map WatchDir.hEvent
    rw [hdirs, Function.update_of_ne hne]
  unfold State.events at hold ⊢
  rw [hforeach, ← hold]
  refine ((put_perm strcmp_strictTotal hnew).filterMap _).trans (List.Perm.of_eq ?_)
  rw [List.filterMap_cons]
  simp only [Option.bind_some, hdirs, Function.update_self, Option.map_some]

/-! ## The invariant -/

/-- The array holds the handle of the pool and the events; these are open, and the handles of the
directories are others. -/
structure Registered (s : State) : Prop where
  wired : Wired s
  array : ∃ da hs, s.waitHandles = some da ∧ HoldsWords da (s.tpoolWaitHandle :: hs) ∧
    hs.Perm s.events
  once : (s.tpoolWaitHandle :: s.events).Nodup
  opened : ∀ h ∈ s.tpoolWaitHandle :: s.events, s.opened h = true
  apart : ∀ path d w, (path, some d) ∈ rbForeach s.watchdirs → s.wdirs d = some w →
    s.opened w.handle = true ∧ w.handle ∉ s.tpoolWaitHandle :: s.events

theorem Registered.handlesMatch (hR : Registered s) : HandlesMatch s := by
  obtain ⟨da, hs, hda, ha, hperm⟩ := hR.array
  refine ⟨hs, handles_of_holds ha hda, hperm, ?_, fun h hh => hR.opened h ?_⟩
  · exact (hperm.cons _).nodup_iff.2 hR.once
  · exact (hperm.cons _).mem_iff.1 hh

theorem Registered.initial (pool : Handle) : Registered (.initial pool) where
  wired := .initial pool
  array := by
    obtain ⟨da, hda, ha⟩ := initHandles_holds pool
    exact ⟨da, [], hda, ha, .refl _⟩
  once := List.nodup_singleton pool
  opened _ hh := decide_eq_true (List.mem_singleton.1 hh)
  apart _ _ _ he _ := by cases he

/-- Only the resources have changed. -/
theorem Registered.setResource (hR : Registered s) {r : Option Resource} :
    Registered (s.setResource p r) where
  wired := hR.wired.congr rfl rfl rfl
  array := hR.array
  once := hR.once
  opened := hR.opened
  apart := hR.apart

/-- One directory has changed, and its handles have not. -/
theorem Registered.update_dir (hR : Registered s) (hwired : Wired s') {w' : WatchDir}
    (hw : s.wdirs d = some w) (hdirs : s'.wdirs = Function.update s.wdirs d (some w'))
    (hev : w'.hEvent = w.hEvent) (hhandle : w'.handle = w.handle)
    (htree : s'.watchdirs = s.watchdirs) (harr : s'.waitHandles = s.waitHandles)
    (hpool : s'.tpoolWaitHandle = s.tpoolWaitHandle) (hopened : s'.opened = s.opened) :
    Registered s' := by
  have hevents : s'.events = s.events := events_eq htree fun d' => by
    rw [hdirs]
    exact map_hEvent_update hw hev d'
  refine ⟨hwired, ?_, ?_, ?_, fun path d' w₁ he hw₁ => ?_⟩
  · rw [harr, hpool, hevents]
    exact hR.array
  · rw [hpool, hevents]
    exact hR.once
  · rw [hpool, hevents, hopened]
    exact hR.opened
  · rw [htree] at he
    rw [hdirs] at hw₁
    rw [hpool, hevents, hopened]
    rcases update_eq_some.1 hw₁ with ⟨rfl, hset⟩ | ⟨-, hold⟩
    · obtain rfl := Option.some.inj hset
      rw [hhandle]
      exact hR.apart path d' w he hw
    · exact hR.apart path d' w₁ he hold

/-- A directory has been added, with handles that were not open. -/
theorem Registered.add_dir (hR : Registered s) (hf : env.Fresh s) (hsucc : env.Succeeds)
    (hwired : Wired s') {da' : DynArr} (hfind : rbFind s.watchdirs path = none)
    (hd : s.wdirs d = none) (hdirs : s'.wdirs = Function.update s.wdirs d (some w))
    (hhandle : w.handle = env.handle) (hevent : w.hEvent = env.hEvent)
    (hforeach : rbForeach s'.watchdirs = put strcmp path (some d) (rbForeach s.watchdirs))
    (hda : s.waitHandles = some da)
    (hpush : dynarrPush da (some (wordBytes env.hEvent)) true = some da')
    (harr : s'.waitHandles = some da') (hpool : s'.tpoolWaitHandle = s.tpoolWaitHandle)
    (hopened : s'.opened = Function.update (Function.update s.opened env.handle true)
      env.hEvent true) :
    Registered s' := by
  obtain ⟨-, hclosed⟩ := hf.handle hsucc.handle
  obtain ⟨-, hapart, hclosed'⟩ := hf.hEvent hsucc.hEvent
  have hevents := hR.wired.events_insert hfind hd hdirs hforeach
  rw [hevent] at hevents
  -- what was open before is neither of the new handles
  have hold {h : Handle} (hh : s.opened h = true) : h ≠ env.hEvent ∧ h ≠ env.handle := by
    constructor
    · rintro rfl
      rw [hclosed'] at hh
      cases hh
    · rintro rfl
      rw [hclosed] at hh
      cases hh
  have hkeep {h : Handle} (hh : s.opened h = true) : s'.opened h = true := by
    rw [hopened, Function.update_of_ne (hold hh).1, Function.update_of_ne (hold hh).2]
    exact hh
  have hlist {h : Handle} : h ∈ s'.tpoolWaitHandle :: s'.events ↔
      h = env.hEvent ∨ h ∈ s.tpoolWaitHandle :: s.events := by
    rw [hpool, List.mem_cons, hevents.mem_iff, List.mem_cons, List.mem_cons, or_left_comm]
  refine ⟨hwired, ?_, ?_, fun h hh => ?_, fun path' d' w' he hw' => ?_⟩
  · obtain ⟨da₀, hs, hda₀, ha, hperm⟩ := hR.array
    obtain rfl := Option.some.inj (hda.symm.trans hda₀)
    refine ⟨da', hs ++ [env.hEvent], harr, hpool ▸ ha.push hpush, ?_⟩
    exact (List.perm_append_singleton env.hEvent hs).trans
      ((hperm.cons env.hEvent).trans hevents.symm)
  · have hperm : (s'.tpoolWaitHandle :: s'.events).Perm
        (env.hEvent :: s.tpoolWaitHandle :: s.events) := by
      rw [hpool]
      exact (hevents.cons _).trans (.swap ..)
    rw [hperm.nodup_iff, List.nodup_cons]
    exact ⟨fun hmem => (hold (hR.opened _ hmem)).1 rfl, hR.once⟩
  · rcases hlist.1 hh with rfl | hh
    · rw [hopened, Function.update_self]
    · exact hkeep (hR.opened h hh)
  · rw [hlist, not_or]
    rw [hdirs] at hw'
    rcases update_eq_some.1 hw' with ⟨-, hset⟩ | ⟨hne, hw'⟩
    · obtain rfl := Option.some.inj hset
      rw [hhandle]
      refine ⟨?_, hapart.symm, fun hmem => (hold (hR.opened _ hmem)).2 rfl⟩
      rw [hopened, Function.update_of_ne hapart.symm, Function.update_self]
    · rw [hforeach, mem_put strcmp_strictTotal] at he
      have he := (he.resolve_left fun heq => hne (Option.some.inj (Prod.mk.inj heq).2)).1
      obtain ⟨hopen, hmem⟩ := hR.apart path' d' w' he hw'
      exact ⟨hkeep hopen, (hold hopen).1, hmem⟩

theorem Registered.started (hR : Registered s) (hf : env.Fresh s) (hsucc : env.Succeeds)
    (hs : Started s p env s') : Registered s' := by
  have hwired := hR.wired.started hs
  cases hs with
  | noSlash => exact hR
  | shared hr hdir hq hfind hw => exact hR.update_dir hwired hw rfl rfl rfl rfl rfl rfl rfl
  | opened hr hdir hq hfind hd hins hins' hda hpush =>
    obtain ⟨-, -, hforeach⟩ := hR.wired.insert hins
    exact hR.add_dir hf hsucc hwired hfind hd rfl rfl rfl hforeach hda hpush rfl rfl rfl

/-- A reference is dropped that is not the last one. -/
theorem Registered.stopped {env : StopEnv} (hR : Registered s) (hs : Stopped s p env s')
    (hc : ∀ d ∈ s.dirOf p, ∀ w ∈ s.wdirs d, 1 < w.nref) : Registered s' := by
  have hwired := hR.wired.stopped hs
  cases hs with
  | unwatched => exact hR
  | kept hr hd hw hn hi => exact hR.update_dir hwired hw rfl rfl rfl rfl rfl rfl rfl
  | released hr hd hw hn =>
    have hlt := hc _ hd _ hw
    omega

/-- The event of a directory that loses its last reference is closed, and stays in the array. -/
theorem Registered.not_handlesMatch {env : StopEnv} (hR : Registered s) (hs : Stopped s p env s')
    (hc : ¬ ∀ d ∈ s.dirOf p, ∀ w ∈ s.wdirs d, 1 < w.nref) : ¬ HandlesMatch s' := by
  intro hmatch
  simp only [Option.mem_def, not_forall] at hc
  obtain ⟨d₀, hd₀, w₀, hw₀, hlast⟩ := hc
  cases hs with
  | unwatched hr hd =>
    rw [hd₀] at hd
    cases hd
  | kept hr hd hw hn hi =>
    obtain rfl := Option.some.inj (hd₀.symm.trans hd)
    obtain rfl := Option.some.inj (hw₀.symm.trans hw)
    exact hlast hn
  | @released r d w q path da watchdirs wdirbyev waitHandles calls calls' hr hd hw hn hda hdrop =>
    obtain ⟨path', -, -, he, -⟩ := hR.wired.entry_of_dirOf hd
    obtain ⟨-, hhandle⟩ := hR.apart path' d w he hw
    obtain ⟨da₀, hs, hda₀, ha, hperm⟩ := hR.array
    obtain rfl := Option.some.inj (hda.symm.trans hda₀)
    have hnot : w.handle ∉ s.tpoolWaitHandle :: hs := by
      rwa [(hperm.cons s.tpoolWaitHandle).mem_iff]
    -- the handle of the directory is not in the array
    rw [dropHandle_of_not_mem ha hnot] at hdrop
    obtain rfl := Option.some.inj hdrop
    obtain ⟨hs', hhandles, -, -, hopen⟩ := hmatch
    have hmem : w.hEvent ∈ s.tpoolWaitHandle :: hs :=
      List.mem_cons_of_mem _ (hperm.mem_iff.2 (mem_events.2 ⟨path', d, w, he, hw, rfl⟩))
    have hsame : s.tpoolWaitHandle :: hs = s.tpoolWaitHandle :: hs' :=
      Option.some.inj ((handles_of_holds ha rfl).symm.trans hhandles)
    have hclosed := hopen w.hEvent (hsame ▸ hmem)
    simp at hclosed

/-! ## Runs -/

theorem Registered.step {a : Action} (hR : Registered s) (ha : a.Succeeds) (hc : KeepsDirs s a)
    (hs : step s a = some s') : Registered s' := by
  cases step_stepped ha hs with
  | create => exact hR.setResource
  | startWatch hsucc hf hstart => exact hR.started hf hsucc hstart
  | stopWatch hstop => exact hR.stopped hstop hc
  | remove hstop => exact (hR.stopped hstop hc).setResource

theorem Registered.not_step {a : Action} (hR : Registered s) (ha : a.Succeeds)
    (hc : ¬ KeepsDirs s a) (hs : Win32.step s a = some s') : ¬ HandlesMatch s' := by
  cases step_stepped ha hs with
  | create => exact absurd trivial hc
  | startWatch => exact absurd trivial hc
  | stopWatch hstop => exact hR.not_handlesMatch hstop hc
  | @remove p env s₁ hstop =>
    have hstopped : ¬ HandlesMatch s₁ := hR.not_handlesMatch hstop hc
    exact hstopped

/-- **Wait handles**: the array matches the watched directories in every state of a run exactly when
no directory loses its last reference. -/
theorem handlesMatch_iff (pool : Handle) (acts : List Action) (s : State)
    (hacts : ∀ a ∈ acts, a.Succeeds) (h : exec step (.initial pool) acts = some s) :
    (∀ pre m, pre <+: acts → exec step (.initial pool) pre = some m → HandlesMatch m) ↔
      Along step KeepsDirs (.initial pool) acts :=
  forall_prefix_iff_along (D := fun _ a => a.Succeeds) (I := Registered)
    (fun _ hm => hm.handlesMatch) (fun _ _ _ hm ha hc hs => hm.step ha hc hs)
    (fun _ _ _ hm ha hc hs => hm.not_step ha hc hs) (.initial pool)
    (along_of_forall_mem fun a ha _ => hacts a ha) h

/-- Two files of one directory are watched, and one of another directory. -/
def watchesThree : List Action :=
  [.create 1 "a/f".toList, .create 2 "a/g".toList, .create 3 "b/h".toList, .startWatch 1 (.nth 1),
    .startWatch 2 (.nth 2), .startWatch 3 (.nth 3)]

theorem handlesMatch_iff_watchesThree :
    Along step KeepsDirs (.initial 4) (watchesThree ++ [.stopWatch 2 ⟨true, false⟩]) ∧
      ∀ pre m, pre <+: watchesThree ++ [.stopWatch 2 ⟨true, false⟩] →
        exec step (.initial 4) pre = some m → HandlesMatch m := by
  have hC : Along step KeepsDirs (.initial 4) (watchesThree ++ [.stopWatch 2 ⟨true, false⟩]) := by
    decide +kernel
  have h := (Option.some_get (by decide +kernel :
    (exec step (.initial 4) (watchesThree ++ [.stopWatch 2 ⟨true, false⟩])).isSome)).symm
  exact ⟨hC, (handlesMatch_iff 4 _ _ (by decide +kernel) h).2 hC⟩

/-- The file of the other directory is not watched any more. -/
theorem not_handlesMatch_stopWatch :
    ¬ ∀ pool acts s, (∀ a ∈ acts, a.Succeeds) → exec step (.initial pool) acts = some s →
      HandlesMatch s := by
  intro hall
  have hrun : ((exec step (.initial 4) (watchesThree ++ [.stopWatch 3 ⟨true, false⟩])).any fun s =>
      s.tpoolWaitHandle = 4 ∧ s.handles = some [4, 12, 28] ∧ s.opened 28 = false) = true := by
    decide +kernel
  obtain ⟨s, hs, hrun⟩ := (Option.any_eq_true _ _).1 hrun
  obtain ⟨hpool, hhandles, hclosed⟩ := of_decide_eq_true hrun
  obtain ⟨hs', hhandles', -, -, hopen⟩ := hall 4 _ s (by decide +kernel) hs
  rw [← Option.some.inj (hhandles.symm.trans hhandles')] at hopen
  have hopen' := hopen 28 (by simp)
  rw [hclosed] at hopen'
  cases hopen'

end Resman.Win32
