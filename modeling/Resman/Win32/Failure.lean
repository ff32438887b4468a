import Resman.Lib.Run
import Resman.Win32.Steps

/-!
# Starting a watch that fails

A call of `resman_start_watch` that fails before its directory is registered closes what it has
opened and frees what it has allocated, but for the directory itself. When there is no memory for
the item, the same code runs for a directory that is in `watchdirs`. `atomicStart_iff` says that
this is the only failure that is not undone.
-/

namespace Resman.Win32

open Rb Dynarr Lib

variable {s s' : State} {p : ResPtr} {env : StartEnv} {d : DirPtr} {q : PathPtr}
  {dir : Text} {i : Int}

/-! ## What a failing call should leave -/

/-- Everything that the monitor knew before the call is as it was, and the key of each entry is the
path of its directory, which has not been freed. -/
structure Kept (s s' : State) : Prop where
  watchdirs : s'.watchdirs = s.watchdirs
  wdirbyev : s'.wdirbyev = s.wdirbyev
  waitHandles : s'.waitHandles = s.waitHandles
  dir : ∀ d w, s.wdirs d = some w → s'.wdirs d = some w
  buf : ∀ d w b, s.wdirs d = some w → w.bufUnaligned = some b → s'.bufs b = s.bufs b
  opened : ∀ d w h, s.wdirs d = some w → h = w.handle ∨ h = w.hEvent → h ≠ 0 →
    s'.opened h = s.opened h
  key : ∀ path e, (path, e) ∈ rbForeach s'.watchdirs → ∃ d w q, e = some d ∧ s'.wdirs d = some w ∧
    w.watchPath = some q ∧ s'.paths q = some path

/-- A call of `resman_start_watch` that returns -1 leaves everything as it was. -/
def AtomicStart (s : State) : Action → Prop
  | .startWatch p env => ∀ s', startWatch s p env = some (s', -1) → Kept s s'
  | _ => True

/-- The call comes to the allocation of an item: the directory of the resource is watched already,
or all that is asked for before succeeds. -/
def reachesItem (s : State) (p : ResPtr) (env : StartEnv) : Bool :=
  env.path.isSome && ((s.resources p).bind fun r => (dirPath env.cwd r.name).join).any fun dir =>
    (rbFind s.watchdirs dir).isSome ||
      env.wdir.isSome && env.handle ≠ invalidHandle && env.buf.isSome && env.notify

/-- There is memory for the item, if one is allocated. -/
def ItemGiven (s : State) : Action → Prop
  | .startWatch p env => reachesItem s p env = true → env.item = true
  | _ => True

instance (s : State) : DecidablePred (ItemGiven s)
  | .startWatch p env => inferInstanceAs (Decidable (reachesItem s p env = true → env.item = true))
  | .create .. | .stopWatch .. | .remove .. => isTrue trivial

/-! ## What a call does -/

/-- What a call has undone before it has registered anything; the directory that
it has allocated is left. -/
structure Undone (s s' : State) : Prop where
  resources : s'.resources = s.resources
  paths : s'.paths = s.paths
  bufs : s'.bufs = s.bufs
  watchdirs : s'.watchdirs = s.watchdirs
  wdirbyev : s'.wdirbyev = s.wdirbyev
  waitHandles : s'.waitHandles = s.waitHandles
  dir : ∀ d w, s.wdirs d = some w → s'.wdirs d = some w
  opened : ∀ h, h ≠ 0 → s'.opened h = s.opened h

/-- A call is undone, gives the resource a directory that is shared or new, or
is lost with the directory. -/
inductive StartOutcome (s : State) (p : ResPtr) (env : StartEnv) : State → Int → Prop where
  | undone {s' : State} (hreach : reachesItem s p env = false) (h : Undone s s') :
      StartOutcome s p env s' (-1)
  | shared {s' : State} {q : PathPtr} {dir : Text} {d : DirPtr} {w : WatchDir} {items : List ResPtr}
      (hitem : env.item = true) (hq : s.paths q = none) (hw : s.wdirs d = some w)
      (htree : s'.watchdirs = s.watchdirs)
      (hpaths : s'.paths = Function.update s.paths q (some dir))
      (hdirs : s'.wdirs = Function.update s.wdirs d (some { w with nref := w.nref + 1, items })) :
      StartOutcome s p env s' 0
  | opened {s' : State} {q : PathPtr} {dir : Text} {d : DirPtr} {w : WatchDir}
      (hitem : env.item = true) (hq : s.paths q = none) (hd : s.wdirs d = none)
      (hfind : rbFind s.watchdirs dir = none)
      (hins : rbInsert s.watchdirs env.dirNode dir (some d) = some s'.watchdirs)
      (hpaths : s'.paths = Function.update s.paths q (some dir)) (hwq : w.watchPath = some q)
      (hdirs : s'.wdirs = Function.update s.wdirs d (some w)) : StartOutcome s p env s' 0
  | lostShared {s' : State} {d : DirPtr} {w : WatchDir} (hreach : reachesItem s p env = true)
      (hitem : env.item = false) (hw : s.wdirs d = some w)
      (hw' : s'.wdirs d = some { w with nref := w.nref + 1 }) : StartOutcome s p env s' (-1)
  | lostOpened {s' : State} {dir : Text} {d : DirPtr} (hreach : reachesItem s p env = true)
      (hitem : env.item = false) (hfind : rbFind s.watchdirs dir = none)
      (hins : rbInsert s.watchdirs env.dirNode dir (some d) = some s'.watchdirs) :
      StartOutcome s p env s' (-1)

theorem Undone.refl (s : State) : Undone s s :=
  ⟨rfl, rfl, rfl, rfl, rfl, rfl, fun _ _ hw => hw, fun _ _ => rfl⟩

theorem setPath_none (hq : s.paths q = none) : (s.setPath q (some dir)).setPath q none = s := by
  simp only [State.setPath, Function.update_idem]
  rw [Function.update_eq_self_iff.2 hq.symm]

theorem closeValid_eq (s : State) (h : Handle) :
    s.closeValid h = { s with
      opened := fun h' => if h' = h ∧ h ≠ 0 ∧ h ≠ invalidHandle then false else s.opened h' } := by
  unfold State.closeValid
  split
  · next hvalid =>
    simp only [State.setOpened, State.mk.injEq, true_and, and_true]
    funext h'
    by_cases hh : h' = h
    · rw [hh, Function.update_self, if_pos ⟨rfl, hvalid⟩]
    · rw [Function.update_of_ne hh, if_neg fun hc => hh hc.1]
  · next hvalid =>
    have hsame : (fun h' => if h' = h ∧ h ≠ 0 ∧ h ≠ invalidHandle then false else s.opened h') =
        s.opened := by
      funext h'
      rw [if_neg fun hc => hvalid hc.2]
    rw [hsame]

/-- The buffers as they were before the call, which has allocated one or none. -/
def Grabbed (buf : Option BufPtr) (old bufs : BufPtr → Bool) : Prop :=
  buf = none ∧ bufs = old ∨ ∃ b, buf = some b ∧ old b = false ∧ bufs = Function.update old b true

theorem freeBuf_grabbed {buf : Option BufPtr} {old : BufPtr → Bool} (h : Grabbed buf old s.bufs) :
    s.freeBuf buf = some { s with bufs := old } := by
  rcases h with ⟨rfl, hold⟩ | ⟨b, rfl, hb, hset⟩
  · rw [State.freeBuf, ← hold]
  · have hused : s.bufs b = true := by rw [hset, Function.update_self]
    rw [State.freeBuf, if_pos hused, State.setBuf, hset, Function.update_idem,
      Function.update_eq_self_iff.2 hb.symm]

/-- A new directory has been opened as far as `w` says. What it has opened and allocated was not in
use before, so it is undone. -/
theorem Undone.of_startErr {w : WatchDir} {bufs : BufPtr → Bool} {opened : Handle → Bool}
    (hq : s.paths q = none) (hd : s.wdirs d = none)
    (hbufs : Grabbed w.bufUnaligned s.bufs bufs)
    (hopened : ∀ h, h ≠ 0 → if (h = w.handle ∨ h = w.hEvent) ∧ h ≠ invalidHandle
      then s.opened h = false
      else opened h = s.opened h)
    (h : startErr { s with
        paths := Function.update s.paths q (some dir)
        wdirs := Function.update s.wdirs d (some w)
        bufs, opened } q (some d) = some (s', i)) :
    i = -1 ∧ Undone s s' := by
  simp only [startErr, State.setPath, Function.update_self, Function.update_idem,
    Option.bind_eq_bind, Option.bind_some, closeValid_eq] at h
  rw [freeBuf_grabbed hbufs, Option.bind_some] at h
  obtain ⟨rfl, hi⟩ := Prod.mk.inj (Option.some.inj h)
  refine ⟨hi.symm, rfl, Function.update_eq_self_iff.2 hq.symm, rfl, rfl, rfl,
    rfl, fun d' w' hw' => ?_, fun h' h0 => ?_⟩
  · have hne : d' ≠ d := ne_of_none hd hw'
    exact (Function.update_of_ne hne ..).trans hw'
  · have hopen := hopened h' h0
    show (if h' = w.hEvent ∧ w.hEvent ≠ 0 ∧ w.hEvent ≠ invalidHandle then false
      else if h' = w.handle ∧ w.handle ≠ 0 ∧ w.handle ≠ invalidHandle then false else opened h') =
        s.opened h'
    split at hopen
    · next hclosed =>
      rw [hopen]
      obtain ⟨rfl | rfl, hvalid⟩ := hclosed
      · rw [if_pos (⟨rfl, h0, hvalid⟩ : w.handle = w.handle ∧ _), ite_self]
      · rw [if_pos ⟨rfl, h0, hvalid⟩]
    · next hother =>
      have hev : ¬ (h' = w.hEvent ∧ w.hEvent ≠ 0 ∧ w.hEvent ≠ invalidHandle) := fun hc =>
        hother ⟨.inr hc.1, hc.1 ▸ hc.2.2⟩
      have hdir : ¬ (h' = w.handle ∧ w.handle ≠ 0 ∧ w.handle ≠ invalidHandle) := fun hc =>
        hother ⟨.inl hc.1, hc.1 ▸ hc.2.2⟩
      rw [if_neg hev, if_neg hdir, hopen]

/-- Whatever follows in a directory that the monitor knows, without memory for the item. -/
theorem startErr_wdirs {w : WatchDir} (hw : s.wdirs d = some w)
    (h : startErr s q (some d) = some (s', i)) :
    i = -1 ∧ s'.wdirs = s.wdirs ∧ s'.watchdirs = s.watchdirs := by
  have hw' : (s.setPath q none).wdirs d = some w := hw
  simp only [startErr, hw', Option.bind_eq_bind, Option.bind_some, closeValid_eq,
    Option.bind_eq_some_iff] at h
  obtain ⟨s₁, hfree, h⟩ := h
  obtain ⟨rfl, hi⟩ := Prod.mk.inj (Option.some.inj h)
  refine ⟨hi.symm, ?_⟩
  unfold State.freeBuf at hfree
  split at hfree
  · obtain rfl := Option.some.inj hfree
    exact ⟨rfl, rfl⟩
  · split at hfree
    · obtain rfl := Option.some.inj hfree
      exact ⟨rfl, rfl⟩
    · cases hfree

/-- The item is added, or everything else goes the way of a directory that could not be opened. -/
theorem addItem_cases {w : WatchDir} (hw : s.wdirs d = some w)
    (h : addItem s p q d env = some (s', i)) :
    env.item = true ∧ i = 0 ∧ s'.watchdirs = s.watchdirs ∧ s'.paths = s.paths ∧
        s'.wdirs = Function.update s.wdirs d (some { w with items := p :: w.items }) ∨
      env.item = false ∧ i = -1 ∧ s'.watchdirs = s.watchdirs ∧ s'.wdirs = s.wdirs := by
  cases hitem : env.item with
  | true =>
    simp only [addItem, hitem, if_true, hw, Option.bind_eq_bind, Option.bind_some,
      Option.bind_eq_some_iff] at h
    obtain ⟨r, -, h⟩ := h
    obtain ⟨rfl, hi⟩ := Prod.mk.inj (Option.some.inj h)
    exact .inl ⟨rfl, hi.symm, rfl, rfl, rfl⟩
  | false =>
    simp only [addItem, hitem, Bool.false_eq_true, if_false] at h
    obtain ⟨hi, hdirs, htree⟩ := startErr_wdirs hw h
    exact .inr ⟨rfl, hi, htree, hdirs⟩

theorem shareDir_outcome (hq : s.paths q = none) (hreach : reachesItem s p env = true)
    (h : shareDir (s.setPath q (some dir)) p q d env = some (s', i)) :
    StartOutcome s p env s' i := by
  simp only [shareDir, Option.bind_eq_bind, Option.bind_eq_some_iff] at h
  obtain ⟨w, hw, h⟩ := h
  split at h
  · have hw₁ : ((s.setPath q (some dir)).setDir d (some { w with nref := w.nref + 1 })).wdirs d =
        some { w with nref := w.nref + 1 } := Function.update_self ..
    rcases addItem_cases hw₁ h with ⟨hitem, rfl, htree, hpaths, hdirs⟩ | ⟨hitem, rfl, htree, hdirs⟩
    · have hadded : s'.wdirs = Function.update s.wdirs d
          (some { w with nref := w.nref + 1, items := p :: w.items }) := by
        rw [hdirs]
        exact Function.update_idem ..
      exact .shared hitem hq hw htree hpaths hadded
    · refine .lostShared hreach hitem hw ?_
      rw [hdirs]
      exact hw₁
  · cases h

/-- A directory that is registered stays so, with the item or without. -/
theorem register_outcome {s₀ : State} {w : WatchDir} (hq : s.paths q = none) (hd : s.wdirs d = none)
    (hfind : rbFind s.watchdirs dir = none) (hreach : reachesItem s p env = true)
    (hwq : w.watchPath = some q) (htree : s₀.watchdirs = s.watchdirs) (hdirs : s₀.wdirs = s.wdirs)
    (hpaths : s₀.paths = Function.update s.paths q (some dir))
    (h : (do addItem (← registerDir s₀ d w dir env) p q d env) = some (s', i)) :
    StartOutcome s p env s' i := by
  simp only [registerDir, Option.bind_eq_bind, Option.bind_eq_some_iff] at h
  obtain ⟨s₁, ⟨watchdirs, hins, wdirbyev, -, da, -, da', -, hs₁⟩, h⟩ := h
  obtain rfl := Option.some.inj hs₁
  rw [htree] at hins
  rcases addItem_cases (Function.update_self ..) h with
    ⟨hitem, rfl, htree', hpaths', hdirs'⟩ | ⟨hitem, rfl, htree', -⟩
  · have hnew : s'.wdirs = Function.update s.wdirs d (some { w with items := p :: w.items }) := by
      rw [hdirs', ← hdirs]
      exact Function.update_idem ..
    refine .opened (w := { w with items := p :: w.items }) hitem hq hd hfind ?_
      (hpaths'.trans hpaths) hwq hnew
    rw [htree']
    exact hins
  · refine .lostOpened hreach hitem hfind ?_ (d := d)
    rw [htree']
    exact hins

/-- A new directory is undone, as far as it has come, or registered. -/
theorem openDir_outcome (hf : env.Fresh s) (hq : env.path = some q)
    (hfind : rbFind s.watchdirs dir = none)
    (hreach : reachesItem s p env =
      (env.wdir.isSome && env.handle ≠ invalidHandle && env.buf.isSome && env.notify))
    (h : openDir (s.setPath q (some dir)) p q dir env = some (s', i)) :
    StartOutcome s p env s' i := by
  have hqnone := hf.path q hq
  unfold openDir at h
  cases hd : env.wdir with
  | none =>
    rw [hd] at h hreach
    obtain ⟨rfl, rfl⟩ := Prod.mk.inj (Option.some.inj h)
    rw [setPath_none hqnone]
    exact .undone hreach (.refl s)
  | some d =>
    have hdnone := hf.wdir d hd
    rw [hd] at h hreach
    by_cases hinv : env.handle = invalidHandle
    · simp only [if_pos hinv] at h
      have hopened (h' : Handle) (h0 : h' ≠ 0) :
          if (h' = env.handle ∨ h' = 0) ∧ h' ≠ invalidHandle then s.opened h' = false
          else s.opened h' = s.opened h' := by
        rw [if_neg fun hc => hc.1.elim (fun hh => hc.2 (hh.trans hinv)) h0]
      obtain ⟨rfl, hundone⟩ := Undone.of_startErr hqnone hdnone (.inl ⟨rfl, rfl⟩) hopened h
      exact .undone (by simp [hreach, hinv]) hundone
    · obtain ⟨hh0, hhclosed⟩ := hf.handle hinv
      simp only [if_neg hinv] at h
      cases hb : env.buf with
      | none =>
        rw [hb] at h hreach
        have hopened (h' : Handle) (h0 : h' ≠ 0) :
            if (h' = env.handle ∨ h' = 0) ∧ h' ≠ invalidHandle then s.opened h' = false
            else Function.update s.opened env.handle true h' = s.opened h' := by
          by_cases hh : h' = env.handle
          · rw [if_pos ⟨.inl hh, hh ▸ hinv⟩, hh, hhclosed]
          · rw [if_neg fun hc => hc.1.elim hh h0, Function.update_of_ne hh]
        obtain ⟨rfl, hundone⟩ := Undone.of_startErr hqnone hdnone (.inl ⟨rfl, rfl⟩) hopened h
        exact .undone (by simp [hreach]) hundone
      | some b =>
        rw [hb] at h hreach
        cases hnotify : env.notify with
        | false =>
          simp only [hnotify, Bool.false_eq_true, if_false] at h
          have hopened (h' : Handle) (h0 : h' ≠ 0) :
              if (h' = env.handle ∨ h' = env.hEvent) ∧ h' ≠ invalidHandle then s.opened h' = false
              else Function.update (Function.update s.opened env.handle true) env.hEvent
                (decide (env.hEvent ≠ 0)) h' = s.opened h' := by
            by_cases he : h' = env.hEvent
            · obtain ⟨heinv, -, heclosed⟩ := hf.hEvent (he ▸ h0)
              rw [if_pos ⟨.inr he, he ▸ heinv⟩, he, heclosed]
            · by_cases hh : h' = env.handle
              · rw [if_pos ⟨.inl hh, hh ▸ hinv⟩, hh, hhclosed]
              · rw [if_neg fun hc => hc.1.elim hh he, Function.update_of_ne he,
                  Function.update_of_ne hh]
          obtain ⟨rfl, hundone⟩ := Undone.of_startErr hqnone hdnone
            (.inr ⟨b, rfl, hf.buf b hb, rfl⟩) hopened h
          exact .undone (by simp [hreach, hnotify]) hundone
        | true =>
          have hreach' : reachesItem s p env = true := by simp [hreach, hinv, hnotify]
          simp only [hnotify, if_true] at h
          refine register_outcome hqnone hdnone hfind hreach' ?_ ?_ ?_ ?_ h <;> rfl

theorem startWatch_outcome (hf : env.Fresh s) (h : startWatch s p env = some (s', i)) :
    StartOutcome s p env s' i := by
  simp only [startWatch, Option.bind_eq_bind, Option.bind_eq_some_iff] at h
  obtain ⟨r, hr, full, hfull, h⟩ := h
  cases hq : env.path with
  | none =>
    rw [hq] at h
    obtain ⟨rfl, rfl⟩ := Prod.mk.inj (Option.some.inj h)
    exact .undone (by simp [reachesItem, hq]) (.refl s)
  | some q =>
    rw [hq] at h
    obtain ⟨clean, hclean, h⟩ := Option.bind_eq_some_iff.1 h
    have hdir : dirPath env.cwd r.name = some (cutLastSlash clean) := by
      simp [dirPath, hfull, hclean]
    cases hcut : cutLastSlash clean with
    | none =>
      rw [hcut] at h hdir
      obtain ⟨rfl, rfl⟩ := Prod.mk.inj (Option.some.inj h)
      have hsame : s.setPath q none = s := by
        rw [State.setPath, Function.update_eq_self_iff.2 (hf.path q hq).symm]
      rw [hsame]
      exact .undone (by simp [reachesItem, hr, hdir]) (.refl s)
    | some dir =>
      rw [hcut] at h hdir
      have hreach : reachesItem s p env = ((rbFind s.watchdirs dir).isSome ||
          (env.wdir.isSome && env.handle ≠ invalidHandle && env.buf.isSome && env.notify)) := by
        simp [reachesItem, hq, hr, hdir]
      dsimp only at h
      cases hfind : rbFind s.watchdirs dir with
      | some d =>
        rw [show rbFind (s.setPath q (some dir)).watchdirs dir = some d from hfind] at h
        exact shareDir_outcome (hf.path q hq) (by rw [hreach, hfind]; rfl) h
      | none =>
        rw [show rbFind (s.setPath q (some dir)).watchdirs dir = none from hfind] at h
        exact openDir_outcome hf hq hfind (by rw [hreach, hfind]; rfl) h

/-! ## Steps -/

theorem Undone.wired (h : Undone s s') (hwired : Wired s) : Wired s' :=
  hwired.of_same h.watchdirs (fun d w hw => ⟨w, h.dir d w hw, rfl⟩)
    fun q path hpath => by rw [h.paths, hpath]

theorem Undone.kept (h : Undone s s') (hwired : Wired s) : Kept s s' where
  watchdirs := h.watchdirs
  wdirbyev := h.wdirbyev
  waitHandles := h.waitHandles
  dir := h.dir
  buf _ _ b _ _ := congrFun h.bufs b
  opened _ _ h' _ _ h0 := h.opened h' h0
  key := (h.wired hwired).entry

/-- `watchdirs` has another entry than before. -/
theorem Wired.insert_ne (h : Wired s) {alloc : Option Addr} {watchdirs : RbTree Text DirPtr}
    (hfind : rbFind s.watchdirs dir = none)
    (hins : rbInsert s.watchdirs alloc dir (some d) = some watchdirs) :
    watchdirs ≠ s.watchdirs := by
  rintro rfl
  obtain ⟨n, rfl⟩ := h.insert_isSome hfind hins
  obtain ⟨-, -, hent⟩ := h.insert hins
  have he : (dir, some d) ∈ rbForeach s.watchdirs := by
    rw [hent, mem_put strcmp_strictTotal]
    exact .inl rfl
  exact h.path_ne he hfind rfl

/-- A call whose item is given. -/
theorem Wired.outcome (h : Wired s) (ho : StartOutcome s p env s' i)
    (hc : ItemGiven s (.startWatch p env)) :
    Wired s' := by
  cases ho with
  | undone _ hundone => exact hundone.wired h
  | @shared q dir d w items _ hq hw htree hpaths hdirs =>
    exact h.attach hq htree hpaths (hdirs ▸ watchPath_update hw rfl)
  | opened _ hq hd hfind hins hpaths hwq hdirs => exact h.register hq hd hfind hins hpaths hwq hdirs
  | lostShared hreach hitem => exact absurd (hc hreach) (by simp [hitem])
  | lostOpened hreach hitem => exact absurd (hc hreach) (by simp [hitem])

/-- A call that is lost has counted a reference, or has put a key into `watchdirs`. -/
theorem kept_iff (h : Wired s) (ho : StartOutcome s p env s' i) :
    (i = -1 → Kept s s') ↔ ItemGiven s (.startWatch p env) := by
  cases ho with
  | undone hreach hundone =>
    refine iff_of_true (fun _ => hundone.kept h) fun hr => ?_
    rw [hreach] at hr
    cases hr
  | shared hitem => exact iff_of_true nofun fun _ => hitem
  | opened hitem => exact iff_of_true nofun fun _ => hitem
  | lostShared hreach hitem hw hw' =>
    refine iff_of_false (fun hkept => ?_) fun hc => absurd (hc hreach) (by simp [hitem])
    have hsame := congrArg WatchDir.nref (Option.some.inj (((hkept rfl).dir _ _ hw).symm.trans hw'))
    simp only at hsame
    omega
  | lostOpened hreach hitem hfind hins =>
    refine iff_of_false (fun hkept => ?_) fun hc => absurd (hc hreach) (by simp [hitem])
    exact h.insert_ne hfind hins (hkept rfl).watchdirs

theorem atomicStart_iff_itemGiven {a : Action} (h : Wired s) (hs : step s a = some s') :
    AtomicStart s a ↔ ItemGiven s a := by
  cases a with
  | create | stopWatch | remove => exact Iff.rfl
  | startWatch p env =>
    simp only [step] at hs
    split at hs
    · next hf =>
      obtain ⟨⟨s₁, i⟩, hstart, -⟩ := Option.map_eq_some_iff.1 hs
      rw [← kept_iff h (startWatch_outcome hf hstart)]
      simp only [AtomicStart, hstart, Option.some.injEq, Prod.mk.injEq]
      constructor
      · exact fun hall hi => hall s₁ ⟨rfl, hi⟩
      · rintro hall s₂ ⟨rfl, hi⟩
        exact hall hi
    · cases hs

theorem Wired.step {a : Action} (h : Wired s) (hc : ItemGiven s a) (hs : Win32.step s a = some s') :
    Wired s' := by
  cases a with
  | create p name =>
    simp only [Win32.step] at hs
    split at hs
    · obtain rfl := Option.some.inj hs
      exact h.congr rfl rfl rfl
    · cases hs
  | startWatch p env =>
    simp only [Win32.step] at hs
    split at hs
    · next hf =>
      obtain ⟨⟨s₁, i⟩, hstart, rfl⟩ := Option.map_eq_some_iff.1 hs
      exact h.outcome (startWatch_outcome hf hstart) hc
    · cases hs
  | stopWatch p env => exact h.stopped (stopWatch_stopped hs)
  | remove p env =>
    obtain ⟨s₁, hstop, hs⟩ := Option.bind_eq_some_iff.1 hs
    obtain rfl := Option.some.inj hs
    exact (h.stopped (stopWatch_stopped hstop)).congr rfl rfl rfl

/-- **Failed starts**: every call of a run that returns -1 leaves everything as it was exactly when
there is always memory for the item. -/
theorem atomicStart_iff (pool : Handle) (acts : List Action) (s : State)
    (h : exec step (.initial pool) acts = some s) :
    Along step AtomicStart (.initial pool) acts ↔ Along step ItemGiven (.initial pool) acts :=
  along_iff_along (I := Wired) (fun _ _ _ hm hs => atomicStart_iff_itemGiven hm hs)
    (fun _ _ _ hm hc hs => hm.step hc hs) (.initial pool) h

/-- The watch of a directory can not be started, then it can, and it is shared. -/
def startsAgain : List Action :=
  [.create 1 "a/f".toList, .startWatch 1 { StartEnv.nth 1 with notify := false },
    .startWatch 1 (.nth 2), .create 2 "a/g".toList,
    .startWatch 2 { StartEnv.nth 3 with path := none }, .startWatch 2 (.nth 4),
    .remove 1 ⟨true, false⟩]

theorem atomicStart_iff_startsAgain :
    Along step ItemGiven (.initial 4) startsAgain ∧
    Along step AtomicStart (.initial 4) startsAgain := by
  have hC : Along step ItemGiven (.initial 4) startsAgain := by decide +kernel
  have h := (Option.some_get (by decide +kernel : (exec step (.initial 4) startsAgain).isSome)).symm
  exact ⟨hC, (atomicStart_iff 4 _ _ h).2 hC⟩

/-- There is no memory for the item of a second file, and its directory counts it. -/
theorem not_atomicStart_second :
    ¬ ∀ pool acts s, exec step (.initial pool) acts = some s →
      Along step AtomicStart (.initial pool) acts := by
  intro hall
  have hrun : ((exec step (.initial 4)
      [.create 1 "a/f".toList, .startWatch 1 (.nth 1), .create 2 "a/g".toList]).any fun s =>
        (step s (.startWatch 2 { StartEnv.nth 2 with item := false })).isSome ∧
        (s.wdirs 1).any fun w => w.nref = 1 ∧
          (startWatch s 2 { StartEnv.nth 2 with item := false }).any fun r =>
            r.2 = -1 ∧ (r.1.wdirs 1).any fun w => w.nref = 2) = true := by
    decide +kernel
  obtain ⟨s, hs, hrun⟩ := (Option.any_eq_true _ _).1 hrun
  obtain ⟨hdefined, hrun⟩ := of_decide_eq_true hrun
  obtain ⟨w, hw, hrun⟩ := (Option.any_eq_true _ _).1 hrun
  obtain ⟨hn, hrun⟩ := of_decide_eq_true hrun
  obtain ⟨⟨s', i⟩, hstart, hrun⟩ := (Option.any_eq_true _ _).1 hrun
  obtain ⟨rfl, hrun⟩ := of_decide_eq_true hrun
  obtain ⟨w', hw', hn'⟩ := (Option.any_eq_true _ _).1 hrun
  obtain ⟨s'', hs''⟩ := Option.isSome_iff_exists.1 hdefined
  have hatomic := ((along_snoc hs).1 (hall 4 _ s'' (exec_snoc.2 ⟨s, hs, hs''⟩))).2 s' hstart
  rw [hatomic.dir 1 w hw] at hw'
  obtain rfl := Option.some.inj hw'
  rw [hn] at hn'
  exact absurd hn' (by decide)

end Resman.Win32
