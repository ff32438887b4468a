import Resman.Lib.Tally
import Resman.RbTree.FiniteMap
import Resman.RbTree.IntKeys
import Resman.Win32.System

/-!
# What starting and stopping a watch do

`Started` and `Stopped` list what a call can do when the system calls and allocations succeed, and
`Wired` is what every run keeps of `watchdirs`: it is a search tree whose entries are directories
under their own paths.
-/

namespace Resman.Win32

open Rb Dynarr Lib

variable {s s' : State} {p : ResPtr} {env : StartEnv} {i : Int}

/-! ## The calls -/

/-- A call of `resman_start_watch` finds no slash in the path, shares a
directory, or opens a new one. -/
inductive Started (s : State) (p : ResPtr) (env : StartEnv) : State → Prop where
  | noSlash {r : Resource} (hr : s.resources p = some r)
      (hdir : dirPath env.cwd r.name = some none) :
      Started s p env s
  | shared {r : Resource} {q : PathPtr} {dir : Text} {d : DirPtr} {w : WatchDir}
      (hr : s.resources p = some r) (hdir : dirPath env.cwd r.name = some (some dir))
      (hq : s.paths q = none) (hfind : rbFind s.watchdirs dir = some d) (hw : s.wdirs d = some w) :
      Started s p env { s with
        resources := Function.update s.resources p (some { r with watchPath := some q })
        wdirs := Function.update s.wdirs d
          (some { w with nref := w.nref + 1, items := p :: w.items })
        paths := Function.update s.paths q (some dir) }
  | opened {r : Resource} {q : PathPtr} {dir : Text} {d : DirPtr} {b : BufPtr} {n n' : Addr}
      {watchdirs : RbTree Text DirPtr} {wdirbyev : RbTree Handle DirPtr} {da da' : DynArr}
      (hr : s.resources p = some r) (hdir : dirPath env.cwd r.name = some (some dir))
      (hq : s.paths q = none) (hfind : rbFind s.watchdirs dir = none) (hd : s.wdirs d = none)
      (hins : rbInsert s.watchdirs (some n) dir (some d) = some watchdirs)
      (hins' : rbInsert s.wdirbyev (some n') env.hEvent (some d) = some wdirbyev)
      (hda : s.waitHandles = some da)
      (hpush : dynarrPush da (some (wordBytes env.hEvent)) true = some da') :
      Started s p env { s with
        resources := Function.update s.resources p (some { r with watchPath := some q })
        wdirs := Function.update s.wdirs d (some ⟨env.handle, env.hEvent, some b, 1, some q, [p]⟩)
        paths := Function.update s.paths q (some dir)
        bufs := Function.update s.bufs b true
        opened := Function.update (Function.update s.opened env.handle true) env.hEvent true
        watchdirs, wdirbyev, waitHandles := some da' }

/-- A call of `resman_stop_watch` finds no directory, drops one of its
references, or its last one. -/
inductive Stopped (s : State) (p : ResPtr) (env : StopEnv) : State → Prop where
  | unwatched {r : Resource} (hr : s.resources p = some r) (h : s.dirOf p = none) :
      Stopped s p env s
  | kept {r : Resource} {d : DirPtr} {w : WatchDir} {items : List ResPtr}
      (hr : s.resources p = some r) (hd : s.dirOf p = some d) (hw : s.wdirs d = some w)
      (hn : 1 < w.nref) (hi : removeItem p w.items = some items) :
      Stopped s p env (s.setDir d (some { w with nref := w.nref - 1, items }))
  | released {r : Resource} {d : DirPtr} {w : WatchDir} {q : PathPtr} {path : Text} {da : DynArr}
      {watchdirs : RbTree Text DirPtr} {wdirbyev : RbTree Handle DirPtr}
      {waitHandles : Option DynArr} {calls : List (Rb.Call Text DirPtr)}
      {calls' : List (Rb.Call Handle DirPtr)} (hr : s.resources p = some r)
      (hd : s.dirOf p = some d) (hw : s.wdirs d = some w) (hn : w.nref ≤ 1)
      (hda : s.waitHandles = some da) (hdrop : dropHandle da w.handle env = some waitHandles)
      (hq : w.watchPath = some q) (hpath : s.paths q = some path)
      (hdel : rbDelete s.watchdirs path = some (watchdirs, calls))
      (hdel' : rbDelete s.wdirbyev w.hEvent = some (wdirbyev, calls')) :
      Stopped s p env { s with
        resources := Function.update s.resources p (some { r with watchPath := none })
        wdirs := Function.update s.wdirs d none
        paths := Function.update s.paths q none
        opened := Function.update (Function.update s.opened w.handle false) w.hEvent false
        watchdirs, wdirbyev, waitHandles }

theorem addItem_success {q : PathPtr} {d : DirPtr} (hitem : env.item = true)
    (h : addItem s p q d env = some (s', i)) :
    ∃ w r, s.wdirs d = some w ∧ s.resources p = some r ∧
      s' = (s.setDir d (some { w with items := p :: w.items })).setResource p
        (some { r with watchPath := some q }) := by
  simp only [addItem, hitem, if_true, Option.bind_eq_bind, Option.bind_eq_some_iff] at h
  obtain ⟨w, hw, r, hr, h⟩ := h
  obtain ⟨rfl, -⟩ := Prod.mk.inj (Option.some.inj h)
  exact ⟨w, r, hw, hr, rfl⟩

theorem startWatch_started (hs : env.Succeeds) (hf : env.Fresh s)
    (h : startWatch s p env = some (s', i)) :
    Started s p env s' := by
  obtain ⟨q, hq⟩ := Option.isSome_iff_exists.1 hs.path
  have hqnone := hf.path q hq
  simp only [startWatch, hq, Option.bind_eq_bind, Option.bind_eq_some_iff] at h
  obtain ⟨r, hr, full, hfull, clean, hclean, h⟩ := h
  have hdir : dirPath env.cwd r.name = some (cutLastSlash clean) := by simp [dirPath, hfull, hclean]
  split at h
  · next hcut =>
    obtain ⟨rfl, -⟩ := Prod.mk.inj (Option.some.inj h)
    have hsame : s.setPath q none = s := by
      rw [State.setPath, Function.update_eq_self_iff.2 hqnone.symm]
    rw [hsame]
    exact .noSlash hr (hdir.trans (congrArg some hcut))
  · next dir hcut =>
    rw [hcut] at hdir
    split at h
    · next d hfind =>
      simp only [shareDir, Option.bind_eq_bind, Option.bind_eq_some_iff] at h
      obtain ⟨w, hw, h⟩ := h
      split at h
      · obtain ⟨w', r', hw', hr', rfl⟩ := addItem_success hs.item h
        obtain rfl := Option.some.inj (hr.symm.trans hr')
        have hw'' : w' = { w with nref := w.nref + 1 } := by
          have hset : Function.update s.wdirs d (some { w with nref := w.nref + 1 }) d = some w' :=
            hw'
          rw [Function.update_self] at hset
          exact (Option.some.inj hset).symm
        subst hw''
        have hstate := Started.shared hr hdir hqnone hfind hw
        simpa only [State.setDir, State.setResource, State.setPath, Function.update_idem]
          using hstate
      · cases h
    · next hfind =>
      obtain ⟨d, hd⟩ := Option.isSome_iff_exists.1 hs.wdir
      obtain ⟨b, hb⟩ := Option.isSome_iff_exists.1 hs.buf
      obtain ⟨n, hn⟩ := Option.isSome_iff_exists.1 hs.dirNode
      obtain ⟨n', hn'⟩ := Option.isSome_iff_exists.1 hs.evNode
      simp only [openDir, hd, hb, hs.notify, if_neg hs.handle, if_true,
        registerDir, hn, hn', hs.grow, Option.bind_eq_bind, Option.bind_eq_some_iff] at h
      obtain ⟨s₁, ⟨watchdirs, hins, wdirbyev, hins', da, hda, da', hpush, h₁⟩, h⟩ := h
      obtain rfl := Option.some.inj h₁
      obtain ⟨w', r', hw', hr', rfl⟩ := addItem_success hs.item h
      obtain rfl := Option.some.inj (hr.symm.trans hr')
      have hw'' : w' = ⟨env.handle, env.hEvent, some b, 1, some q, []⟩ := by
        have hset : Function.update s.wdirs d
          (some ⟨env.handle, env.hEvent, some b, 1, some q, []⟩) d =
          some w' := hw'
        rw [Function.update_self] at hset
        exact (Option.some.inj hset).symm
      subst hw''
      have hopen : decide (env.hEvent ≠ 0) = true := decide_eq_true hs.hEvent
      have hstate := Started.opened hr hdir hqnone hfind
        (hf.wdir d hd) hins hins' hda hpush (b := b)
      simpa only [State.setDir, State.setResource, State.setPath, State.setBuf,
        State.setOpened, hopen, Function.update_idem] using hstate

theorem stopWatch_stopped {env : StopEnv} (h : stopWatch s p env = some s') :
    Stopped s p env s' := by
  simp only [stopWatch, Option.bind_eq_bind, Option.bind_eq_some_iff] at h
  obtain ⟨r, hr, h⟩ := h
  split at h
  · next hq =>
    obtain rfl := Option.some.inj h
    exact .unwatched hr (by simp [State.dirOf, hr, hq])
  · next q hq =>
    simp only [Option.bind_eq_some_iff] at h
    obtain ⟨path, hpath, h⟩ := h
    split at h
    · next hfind =>
      obtain rfl := Option.some.inj h
      exact .unwatched hr (by simp [State.dirOf, hr, hq, hpath, hfind])
    · next d hfind =>
      have hd : s.dirOf p = some d := by simp [State.dirOf, hr, hq, hpath, hfind]
      obtain ⟨w, hw, h⟩ := Option.bind_eq_some_iff.1 h
      split at h
      · next hn =>
        simp only [releaseDir, Option.bind_eq_bind, Option.bind_eq_some_iff] at h
        obtain ⟨da, hda, waitHandles, hdrop, ⟨wdirbyev, calls'⟩, hdel', q', hq', path', hpath',
          ⟨watchdirs, calls⟩, hdel, r', hr', h⟩ := h
        obtain rfl := Option.some.inj h
        obtain rfl := Option.some.inj (hr.symm.trans hr')
        have hn' : w.nref ≤ 1 := by
          have hle : w.nref - 1 ≤ 0 := hn
          omega
        have hstate := Stopped.released hr hd hw hn' hda hdrop hq' hpath' hdel hdel'
        simpa only [State.setDir, State.setResource, State.setPath, State.setOpened,
          Function.update_idem] using hstate
      · next hn =>
        obtain ⟨items, hi, h⟩ := Option.bind_eq_some_iff.1 h
        obtain rfl := Option.some.inj h
        have hn' : 1 < w.nref := by
          have hlt : ¬ w.nref - 1 ≤ 0 := hn
          omega
        exact .kept hr hd hw hn' hi

/-- What one action can do. -/
inductive Stepped (s : State) : Action → State → Prop where
  | create {p : ResPtr} {name : Text} (hp : s.resources p = none) :
      Stepped s (.create p name) (s.setResource p (some ⟨name, none⟩))
  | startWatch {p : ResPtr} {env : StartEnv} {s' : State} (hsucc : env.Succeeds) (hf : env.Fresh s)
      (hs : Started s p env s') : Stepped s (.startWatch p env) s'
  | stopWatch {p : ResPtr} {env : StopEnv} {s' : State} (hs : Stopped s p env s') :
      Stepped s (.stopWatch p env) s'
  | remove {p : ResPtr} {env : StopEnv} {s' : State} (hs : Stopped s p env s') :
      Stepped s (.remove p env) (s'.setResource p none)

theorem step_stepped {a : Action} (ha : a.Succeeds) (h : step s a = some s') : Stepped s a s' := by
  cases a with
  | create p name =>
    simp only [step] at h
    split at h
    · next hp =>
      obtain rfl := Option.some.inj h
      exact .create hp
    · cases h
  | startWatch p env =>
    simp only [step] at h
    split at h
    · next hf =>
      obtain ⟨⟨s₁, i⟩, hstart, rfl⟩ := Option.map_eq_some_iff.1 h
      exact .startWatch ha hf (startWatch_started ha hf hstart)
    · cases h
  | stopWatch p env => exact .stopWatch (stopWatch_stopped h)
  | remove p env =>
    obtain ⟨s₁, hstop, h⟩ := Option.bind_eq_some_iff.1 h
    obtain rfl := Option.some.inj h
    exact .remove (stopWatch_stopped hstop)

/-! ## The directories -/

/-- `watchdirs` is a search tree, and an entry is a directory under its path. -/
structure Wired (s : State) : Prop where
  tree : WF s.watchdirs
  cmp : s.watchdirs.cmp = strcmp
  entry : ∀ path e, (path, e) ∈ rbForeach s.watchdirs → ∃ d w q, e = some d ∧ s.wdirs d = some w ∧
    w.watchPath = some q ∧ s.paths q = some path

section Wired

variable {path path' : Text} {d d' : DirPtr} {w : WatchDir} {q : PathPtr}

theorem Wired.initial (pool : Handle) : Wired (.initial pool) :=
  ⟨.create strcmp_strictTotal false, rfl, fun _ _ h => by cases h⟩

theorem Wired.dir (h : Wired s) (he : (path, some d) ∈ rbForeach s.watchdirs) :
    ∃ w q, s.wdirs d = some w ∧ w.watchPath = some q ∧ s.paths q = some path := by
  obtain ⟨d', w, q, hd, hw⟩ := h.entry path _ he
  obtain rfl := Option.some.inj hd
  exact ⟨w, q, hw⟩

theorem Wired.find_iff (h : Wired s) :
    rbFind s.watchdirs path = some d ↔ (path, some d) ∈ rbForeach s.watchdirs := by
  constructor
  · intro hfind
    by_cases hk : path ∈ keys s.watchdirs.root
    · obtain ⟨e, he⟩ := mem_keys.1 hk
      have hfind' : rbFind s.watchdirs path = e := find_of_mem h.tree.total h.tree.sorted he
      rw [hfind] at hfind'
      exact hfind' ▸ he
    · rw [rbFind, find_of_not_mem h.tree.total hk] at hfind
      cases hfind
  · exact find_of_mem h.tree.total h.tree.sorted

/-- The path of an entry is not one under which nothing is found. -/
theorem Wired.path_ne (h : Wired s) {e : Option DirPtr} (he : (path, e) ∈ rbForeach s.watchdirs)
    (hfind : rbFind s.watchdirs path' = none) : path ≠ path' := by
  rintro rfl
  obtain ⟨d, -, -, rfl, -⟩ := h.entry path e he
  rw [h.find_iff.2 he] at hfind
  cases hfind

/-- The directory that is found for a resource is under the path of the resource. -/
theorem Wired.entry_of_dirOf (h : Wired s) (hd : s.dirOf p = some d) :
    ∃ path r q, (path, some d) ∈ rbForeach s.watchdirs ∧ s.resources p = some r ∧
      r.watchPath = some q ∧
      s.paths q = some path := by
  simp only [State.dirOf, Option.bind_eq_bind, Option.bind_eq_some_iff] at hd
  obtain ⟨r, hr, q, hq, path, hpath, hfind⟩ := hd
  exact ⟨path, r, q, h.find_iff.1 hfind, hr, hq, hpath⟩

/-- A directory is under one path only. -/
theorem Wired.path_eq (h : Wired s) (he : (path, some d) ∈ rbForeach s.watchdirs)
    (he' : (path', some d) ∈ rbForeach s.watchdirs) : path = path' := by
  obtain ⟨w, q, hw, hq, hpath⟩ := h.dir he
  obtain ⟨w', q', hw', hq', hpath'⟩ := h.dir he'
  obtain rfl := Option.some.inj (hw.symm.trans hw')
  obtain rfl := Option.some.inj (hq.symm.trans hq')
  exact Option.some.inj (hpath.symm.trans hpath')

/-- The entries after a directory has been registered. -/
theorem Wired.insert (h : Wired s) {n : Addr} {watchdirs : RbTree Text DirPtr}
    (hins : rbInsert s.watchdirs (some n) path (some d) = some watchdirs) :
    WF watchdirs ∧ watchdirs.cmp = strcmp ∧
      rbForeach watchdirs = put strcmp path (some d) (rbForeach s.watchdirs) := by
  obtain ⟨rb, hrb, hwf, hcmp, htrav⟩ := rbInsert_spec h.tree n path (some d)
  obtain rfl := Option.some.inj (hins.symm.trans hrb)
  exact ⟨hwf, hcmp.trans h.cmp, by rw [rbForeach, htrav, h.cmp]; rfl⟩

/-- The entries after a directory has been taken out. -/
theorem Wired.delete (h : Wired s) {watchdirs : RbTree Text DirPtr}
    {calls : List (Rb.Call Text DirPtr)}
    (hdel : rbDelete s.watchdirs path = some (watchdirs, calls)) :
    WF watchdirs ∧ watchdirs.cmp = strcmp ∧
    rbForeach watchdirs = del path (rbForeach s.watchdirs) := by
  obtain ⟨hk, h2⟩ := rbDelete_allowed h.tree hdel
  obtain ⟨rb, calls', hrb, hwf, hcmp, htrav⟩ := rbDelete_spec h.tree hk h2
  obtain ⟨rfl, -⟩ := Prod.mk.inj (Option.some.inj (hdel.symm.trans hrb))
  exact ⟨hwf, hcmp.trans h.cmp, htrav⟩

/-- The entries are the same, and so are the paths of their directories. -/
theorem Wired.of_same (h : Wired s) (htree : s'.watchdirs = s.watchdirs)
    (hdirs : ∀ d w, s.wdirs d = some w → ∃ w', s'.wdirs d = some w' ∧ w'.watchPath = w.watchPath)
    (hpaths : ∀ q path, s.paths q = some path → s'.paths q = some path) : Wired s' := by
  refine ⟨htree ▸ h.tree, htree ▸ h.cmp, fun path e he => ?_⟩
  obtain ⟨d, w, q, rfl, hw, hq, hpath⟩ := h.entry path e (htree ▸ he)
  obtain ⟨w', hw', hq'⟩ := hdirs d w hw
  exact ⟨d, w', q, rfl, hw', hq'.trans hq, hpaths q path hpath⟩

/-- Nothing of the watched directories is written. -/
theorem Wired.congr (h : Wired s) (htree : s'.watchdirs = s.watchdirs) (hdirs : s'.wdirs = s.wdirs)
    (hpaths : s'.paths = s.paths) : Wired s' :=
  h.of_same htree (fun d w hw => ⟨w, (congrFun hdirs d).trans hw, rfl⟩)
    fun q _ hpath => (congrFun hpaths q).trans hpath

/-- A directory that is written keeps its path. -/
theorem watchPath_update {w' : WatchDir} (hw : s.wdirs d = some w)
    (hpath : w'.watchPath = w.watchPath) (d₁ : DirPtr) (w₁ : WatchDir)
    (hw₁ : s.wdirs d₁ = some w₁) :
    ∃ w₂, Function.update s.wdirs d (some w') d₁ = some w₂ ∧ w₂.watchPath = w₁.watchPath := by
  by_cases hd : d₁ = d
  · subst hd
    obtain rfl := Option.some.inj (hw.symm.trans hw₁)
    exact ⟨w', Function.update_self .., hpath⟩
  · exact ⟨w₁, (Function.update_of_ne hd ..).trans hw₁, rfl⟩

/-- A new key needs memory for its node. -/
theorem Wired.insert_isSome (h : Wired s) {alloc : Option Addr} {watchdirs : RbTree Text DirPtr}
    (hfind : rbFind s.watchdirs path' = none)
    (hins : rbInsert s.watchdirs alloc path' (some d) = some watchdirs) :
    ∃ n, alloc = some n := by
  cases alloc with
  | some n => exact ⟨n, rfl⟩
  | none =>
    have hnew : ∀ k ∈ keys s.watchdirs.root, s.watchdirs.cmp path' k ≠ 0 := by
      intro k hk hz
      obtain ⟨e, he⟩ := mem_keys.1 hk
      exact h.path_ne he hfind (h.tree.total.eq_of_zero hz).symm
    rw [rbInsert_none (some d) hnew] at hins
    cases hins

/-- A resource has been given a path, and the directories keep theirs. -/
theorem Wired.attach (h : Wired s) (hq : s.paths q = none) (htree : s'.watchdirs = s.watchdirs)
    (hpaths : s'.paths = Function.update s.paths q (some path'))
    (hdirs : ∀ d w, s.wdirs d = some w → ∃ w', s'.wdirs d = some w' ∧ w'.watchPath = w.watchPath) :
    Wired s' := by
  refine h.of_same htree hdirs fun q' path hpath => ?_
  have hne : q' ≠ q := ne_of_none hq hpath
  rw [hpaths, Function.update_of_ne hne, hpath]

/-- A directory has been registered under its path. -/
theorem Wired.register (h : Wired s) {w : WatchDir} {alloc : Option Addr} (hq : s.paths q = none)
    (hd : s.wdirs d = none) (hfind : rbFind s.watchdirs path' = none)
    (hins : rbInsert s.watchdirs alloc path' (some d) = some s'.watchdirs)
    (hpaths : s'.paths = Function.update s.paths q (some path')) (hwq : w.watchPath = some q)
    (hdirs : s'.wdirs = Function.update s.wdirs d (some w)) : Wired s' := by
  obtain ⟨n, rfl⟩ := h.insert_isSome hfind hins
  obtain ⟨hwf, hcmp, hent⟩ := h.insert hins
  refine ⟨hwf, hcmp, fun path e he => ?_⟩
  rw [hpaths, hdirs]
  rw [hent, mem_put strcmp_strictTotal] at he
  rcases he with he | ⟨he, -⟩
  · obtain ⟨rfl, rfl⟩ := Prod.mk.inj he
    exact ⟨d, w, q, rfl, Function.update_self .., hwq, Function.update_self ..⟩
  · obtain ⟨d', w', q', rfl, hw', hq', hpath⟩ := h.entry path e he
    have hdne : d' ≠ d := ne_of_none hd hw'
    have hqne : q' ≠ q := ne_of_none hq hpath
    exact ⟨d', w', q', rfl, (Function.update_of_ne hdne ..).trans hw', hq',
      (Function.update_of_ne hqne ..).trans hpath⟩

theorem Wired.started (h : Wired s) (hs : Started s p env s') : Wired s' := by
  cases hs with
  | noSlash => exact h
  | shared hr hdir hq hfind hw => exact h.attach hq rfl rfl (watchPath_update hw rfl)
  | opened hr hdir hq hfind hd hins => exact h.register hq hd hfind hins rfl rfl rfl

theorem Wired.stopped {env : StopEnv} (h : Wired s) (hs : Stopped s p env s') : Wired s' := by
  cases hs with
  | unwatched => exact h
  | kept hr hd hw => exact h.of_same rfl (watchPath_update hw rfl) fun _ _ hpath => hpath
  | @released r d w q path da watchdirs wdirbyev waitHandles calls calls' hr hd
      hw hn hda hdrop hq hpath hdel =>
    obtain ⟨hwf, hcmp, hent⟩ := h.delete hdel
    refine ⟨hwf, hcmp, fun path' e he => ?_⟩
    rw [hent, mem_del] at he
    obtain ⟨he, hne⟩ := he
    obtain ⟨d', w', q', rfl, hw', hq', hpath'⟩ := h.entry path' e he
    have hqne : q' ≠ q := by
      rintro rfl
      exact hne (Option.some.inj (hpath'.symm.trans hpath))
    have hdne : d' ≠ d := by
      rintro rfl
      obtain rfl := Option.some.inj (hw.symm.trans hw')
      exact hqne (Option.some.inj (hq'.symm.trans hq))
    exact ⟨d', w', q', rfl, (Function.update_of_ne hdne ..).trans hw', hq',
      (Function.update_of_ne hqne ..).trans hpath'⟩

end Wired

end Resman.Win32
