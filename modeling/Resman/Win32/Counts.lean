import Resman.Lib.Refcount
import Resman.Lib.Run
import Resman.Lib.Tally
import Resman.Win32.Steps

/-!
# Reference counts of the watched directories

A directory counts the calls of `resman_start_watch` that gave it to a resource. `exact_iff` says
when these are the resources that it watches.
-/

namespace Resman.Win32

open Rb Dynarr Lib

variable {s s' : State} {p x : ResPtr} {env : StartEnv} {path : Text} {d : DirPtr} {w : WatchDir}

/-! ## What the counts should be -/

/-- The live resources whose `watch_path` is the path of a directory. -/
def State.watchedIn (s : State) (path : Text) : Set ResPtr :=
  {p | ∃ r q, s.resources p = some r ∧ r.watchPath = some q ∧ s.paths q = some path}

theorem mem_watchedIn : p ∈ s.watchedIn path ↔
    ∃ r q, s.resources p = some r ∧ r.watchPath = some q ∧ s.paths q = some path :=
  Iff.rfl

/-- Every directory of `watchdirs` counts the live resources that it watches, its items are these
resources, each once, and no item is of a freed resource. -/
def Exact (s : State) : Prop :=
  ∀ path d, (path, some d) ∈ rbForeach s.watchdirs → ∃ w, s.wdirs d = some w ∧
    w.nref = (s.watchedIn path).ncard ∧ (∀ p, p ∈ w.items ↔ p ∈ s.watchedIn path) ∧ w.items.Nodup ∧
    ∀ p ∈ w.items, (s.resources p).isSome

/-- Loads, reloads and removals: no other call stops a watch. All that they ask for succeeds. -/
def Action.Loads : Action → Prop
  | stopWatch .. => False
  | a => a.Succeeds

/-- A watch is started for a resource that has none, or fails since there is no directory in its
path, and a resource is removed while its item is one of the first two of the directory. -/
def Orderly (s : State) : Action → Prop
  | .startWatch p env =>
    ∀ r ∈ s.resources p, r.watchPath = none ∨ dirPath env.cwd r.name = some none
  | .remove p _ => ∀ d ∈ s.dirOf p, ∀ w ∈ s.wdirs d, p ∈ w.items.take 2
  | _ => True

instance : DecidablePred Action.Loads
  | .stopWatch .. => isFalse id
  | .create p name => inferInstanceAs (Decidable (Action.create p name).Succeeds)
  | .startWatch p env => inferInstanceAs (Decidable (Action.startWatch p env).Succeeds)
  | .remove p env => inferInstanceAs (Decidable (Action.remove p env).Succeeds)

instance (s : State) : DecidablePred (Orderly s)
  | .startWatch p env => Option.decidableForallMem
      (p := fun r : Resource => r.watchPath = none ∨ dirPath env.cwd r.name = some none)
      (s.resources p)
  | .remove p _ =>
    haveI (d : DirPtr) := Option.decidableForallMem (p := fun w : WatchDir => p ∈ w.items.take 2)
      (s.wdirs d)
    Option.decidableForallMem (p := fun d : DirPtr => ∀ w ∈ s.wdirs d, p ∈ w.items.take 2)
      (s.dirOf p)
  | .create .. | .stopWatch .. => isTrue trivial

/-! ## Items -/

section Items

variable {items items' : List ResPtr}

theorem itemsAfter_suffix : ∀ {items items' : List ResPtr}, itemsAfter p items = some items' →
    items' <:+ items
  | [], _, h => by cases h
  | witem :: next, items', h => by
    unfold itemsAfter at h
    split at h
    · obtain rfl := Option.some.inj h
      exact List.suffix_cons witem next
    · exact (itemsAfter_suffix h).trans (List.suffix_cons witem next)

theorem itemsAfter_isSome : ∀ {items : List ResPtr}, p ∈ items → (itemsAfter p items).isSome
  | witem :: next, h => by
    unfold itemsAfter
    split
    · rfl
    · next hne => exact itemsAfter_isSome ((List.mem_cons.1 h).resolve_left (Ne.symm hne))

/-- The first item and the second are unlinked. -/
theorem removeItem_of_near (h : p ∈ items.take 2) : removeItem p items = some (items.erase p) := by
  match items, h with
  | a :: next, h =>
    rw [removeItem]
    split
    · next ha => rw [ha, List.erase_cons_head]
    · next ha =>
      match next, h with
      | [], h => exact absurd (List.mem_singleton.1 h) (Ne.symm ha)
      | b :: next, h =>
        have hb : b = p := by
          simp only [List.take_succ_cons, List.take_zero, List.mem_cons, List.not_mem_nil, or_false]
            at h
          exact (h.resolve_left (Ne.symm ha)).symm
        rw [itemsAfter, if_pos hb, Option.getD_some, List.erase_cons_tail (by simpa using ha), hb,
          List.erase_cons_head]

/-- With an item further on, the second one is lost. -/
theorem removeItem_of_far (hn : items.Nodup) (hp : p ∈ items) (hfar : p ∉ items.take 2)
    (h : removeItem p items = some items') : ∃ x ∈ items, x ≠ p ∧ x ∉ items' := by
  match items, hn, hp, hfar, h with
  | [_], _, hp, hfar, _ => exact absurd hp hfar
  | a :: b :: next, hn, hp, hfar, h =>
    simp only [List.take_succ_cons, List.take_zero, List.mem_cons, List.not_mem_nil, or_false,
      not_or] at hfar
    obtain ⟨ha, hb⟩ := hfar
    have hnext : p ∈ next := by simpa [ha, hb] using hp
    obtain ⟨after, hafter⟩ := Option.isSome_iff_exists.1 (itemsAfter_isSome hnext)
    simp only [removeItem, itemsAfter, if_neg (Ne.symm ha), if_neg (Ne.symm hb), hafter,
      Option.getD_some] at h
    obtain rfl := Option.some.inj h
    simp only [List.nodup_cons, List.mem_cons, not_or] at hn
    refine ⟨b, by simp, Ne.symm hb, ?_⟩
    rw [List.mem_cons, not_or]
    exact ⟨Ne.symm hn.1.1, fun hmem => hn.2.1 ((itemsAfter_suffix hafter).subset hmem)⟩

end Items

/-! ## The invariant -/

/-- Every watched resource is in a directory of `watchdirs`, and the directories count theirs. -/
structure Counted (s : State) : Prop where
  wired : Wired s
  placed : ∀ p r q, s.resources p = some r → r.watchPath = some q →
    ∃ path d, s.paths q = some path ∧ (path, some d) ∈ rbForeach s.watchdirs
  counts : ∀ path d w, (path, some d) ∈ rbForeach s.watchdirs → s.wdirs d = some w →
    Counts w.nref w.items (s.watchedIn path)

theorem Counted.exact (h : Counted s) : Exact s := by
  intro path d he
  obtain ⟨w, q, hw, -, -⟩ := h.wired.dir he
  have hc := h.counts path d w he hw
  refine ⟨w, hw, hc.count, hc.mem, hc.once, fun p hp => ?_⟩
  obtain ⟨r, q, hr, -⟩ := (hc.mem p).1 hp
  rw [hr]
  rfl

theorem Exact.counts (h : Exact s) (he : (path, some d) ∈ rbForeach s.watchdirs)
    (hw : s.wdirs d = some w) :
    Counts w.nref w.items (s.watchedIn path) := by
  obtain ⟨w', hw', hn, hmem, honce, -⟩ := h path d he
  obtain rfl := Option.some.inj (hw.symm.trans hw')
  exact ⟨hn, hmem, honce⟩

theorem Counted.initial (pool : Handle) : Counted (.initial pool) where
  wired := .initial pool
  placed _ _ _ hr _ := by cases hr
  counts _ _ _ he _ := by cases he

/-- The directory that is found for a resource watches it. -/
theorem Wired.of_dirOf (h : Wired s) (hd : s.dirOf p = some d) :
    ∃ path, (path, some d) ∈ rbForeach s.watchdirs ∧ p ∈ s.watchedIn path := by
  obtain ⟨path, r, q, he, hr⟩ := h.entry_of_dirOf hd
  exact ⟨path, he, r, q, hr⟩

theorem Counted.dirOf_iff (h : Counted s) (he : (path, some d) ∈ rbForeach s.watchdirs) :
    s.dirOf p = some d ↔ p ∈ s.watchedIn path := by
  constructor
  · intro hd
    obtain ⟨path', he', hp⟩ := h.wired.of_dirOf hd
    exact h.wired.path_eq he' he ▸ hp
  · rintro ⟨r, q, hr, hq, hpath⟩
    simp [State.dirOf, hr, hq, hpath, h.wired.find_iff.2 he]

/-! ## Who is watched after a call -/

/-- After a resource has been given a path, it is watched in that directory only. -/
theorem Counted.watchedIn_attach (h : Counted s) {r : Resource} {q : PathPtr} {dir : Text}
    (hq : s.paths q = none)
    (hres : s'.resources = Function.update s.resources p (some { r with watchPath := some q }))
    (hpaths : s'.paths = Function.update s.paths q (some dir)) :
    x ∈ s'.watchedIn path ↔ x = p ∧ path = dir ∨ x ≠ p ∧ x ∈ s.watchedIn path := by
  simp only [mem_watchedIn, hres, hpaths, update_eq_some]
  constructor
  · rintro ⟨r', q', ⟨rfl, hr'⟩ | ⟨hx, hr'⟩, hq', ⟨hqq, hdir⟩ | ⟨hqq, hpath⟩⟩
    · exact .inl ⟨rfl, (Option.some.inj hdir).symm⟩
    · obtain rfl := Option.some.inj hr'
      exact absurd (Option.some.inj hq').symm hqq
    · subst hqq
      obtain ⟨path', d, hpath', -⟩ := h.placed x r' q' hr' hq'
      rw [hq] at hpath'
      cases hpath'
    · exact .inr ⟨hx, r', q', hr', hq', hpath⟩
  · rintro (⟨rfl, rfl⟩ | ⟨hx, r', q', hr', hq', hpath⟩)
    · exact ⟨_, q, .inl ⟨rfl, rfl⟩, rfl, .inl ⟨rfl, rfl⟩⟩
    · have hqq : q' ≠ q := ne_of_none hq hpath
      exact ⟨r', q', .inr ⟨hx, hr'⟩, hq', .inr ⟨hqq, hpath⟩⟩

/-- A resource is given the path of its directory once more. -/
theorem Counted.watchedIn_again (h : Counted s) {r : Resource} {q : PathPtr}
    (hp : p ∈ s.watchedIn path) (hq : s.paths q = none)
    (hres : s'.resources = Function.update s.resources p (some { r with watchPath := some q }))
    (hpaths : s'.paths = Function.update s.paths q (some path)) :
    s'.watchedIn path = s.watchedIn path := by
  ext x
  rw [h.watchedIn_attach hq hres hpaths]
  by_cases hx : x = p
  · simp [hx, hp]
  · simp [hx]

/-- After a resource has been freed, the others are watched as before. -/
theorem watchedIn_free (hres : ∀ y, y ≠ p → s'.resources y = s.resources y)
    (hpaths : ∀ q, s'.paths q = some path ↔ s.paths q = some path) :
    (s'.setResource p none).watchedIn path = s.watchedIn path \ {p} := by
  ext y
  simp only [mem_watchedIn, State.setResource, update_none_eq_some, Set.mem_sdiff,
    Set.mem_singleton_iff, hpaths]
  constructor
  · rintro ⟨r, q, ⟨hy, hr⟩, hq⟩
    exact ⟨⟨r, q, (hres y hy).symm.trans hr, hq⟩, hy⟩
  · rintro ⟨⟨r, q, hr, hq⟩, hy⟩
    exact ⟨r, q, ⟨hy, (hres y hy).trans hr⟩, hq⟩

theorem watchedIn_free_setDir {o : Option WatchDir} :
    ((s.setDir d o).setResource p none).watchedIn path = s.watchedIn path \ {p} :=
  watchedIn_free (fun _ _ => rfl) fun _ => Iff.rfl

theorem watchedIn_create {name : Text} (hp : s.resources p = none) :
    (s.setResource p (some ⟨name, none⟩)).watchedIn path = s.watchedIn path := by
  ext y
  simp only [mem_watchedIn, State.setResource, update_eq_some]
  constructor
  · rintro ⟨r, q, ⟨-, hr⟩ | ⟨-, hr⟩, hq, hpath⟩
    · obtain rfl := Option.some.inj hr
      cases hq
    · exact ⟨r, q, hr, hq, hpath⟩
  · rintro ⟨r, q, hr, hq, hpath⟩
    have hne : y ≠ p := ne_of_none hp hr
    exact ⟨r, q, .inr ⟨hne, hr⟩, hq, hpath⟩

/-! ## Steps -/

theorem Counted.create (h : Counted s) {name : Text} (hp : s.resources p = none) :
    Counted (s.setResource p (some ⟨name, none⟩)) := by
  refine ⟨h.wired.congr rfl rfl rfl, ?_, ?_⟩
  · intro x r q hr hq
    rcases update_eq_some.1 hr with ⟨-, hnew⟩ | ⟨-, hold⟩
    · obtain rfl := Option.some.inj hnew
      cases hq
    · exact h.placed x r q hold hq
  · intro path d w he hw
    rw [watchedIn_create hp]
    exact h.counts path d w he hw

/-- One directory has got a new resource, and the other ones are as before. -/
theorem Counted.attach (h : Counted s) (hwired : Wired s') {r : Resource} {q : PathPtr} {dir : Text}
    (hr : s.resources p = some r) (hnone : r.watchPath = none) (hq : s.paths q = none)
    (hres : s'.resources = Function.update s.resources p (some { r with watchPath := some q }))
    (hpaths : s'.paths = Function.update s.paths q (some dir))
    (hkeep : ∀ path d, (path, some d) ∈ rbForeach s.watchdirs →
      (path, some d) ∈ rbForeach s'.watchdirs)
    (hent : (dir, some d) ∈ rbForeach s'.watchdirs) (hw : s'.wdirs d = some w)
    (hcount : Counts w.nref w.items (insert p (s.watchedIn dir)))
    (hother : ∀ path d' w', (path, some d') ∈ rbForeach s'.watchdirs → path ≠ dir →
      s'.wdirs d' = some w' →
      (path, some d') ∈ rbForeach s.watchdirs ∧ s.wdirs d' = some w') : Counted s' := by
  have hfree (path : Text) : p ∉ s.watchedIn path := by
    rintro ⟨r', q', hr', hq', -⟩
    obtain rfl := Option.some.inj (hr.symm.trans hr')
    rw [hnone] at hq'
    cases hq'
  refine ⟨hwired, fun x r' q' hr' hq' => ?_, fun path d' w' he hw' => ?_⟩
  · rw [hres] at hr'
    rw [hpaths]
    rcases update_eq_some.1 hr' with ⟨-, hnew⟩ | ⟨-, hold⟩
    · obtain rfl := Option.some.inj hnew
      obtain rfl := Option.some.inj hq'
      exact ⟨dir, d, Function.update_self .., hent⟩
    · obtain ⟨path, d', hpath, he⟩ := h.placed x r' q' hold hq'
      have hqne : q' ≠ q := ne_of_none hq hpath
      exact ⟨path, d', (Function.update_of_ne hqne ..).trans hpath, hkeep path d' he⟩
  · by_cases hdir : path = dir
    · subst hdir
      obtain rfl : d = d' :=
        Option.some.inj ((hwired.find_iff.2 hent).symm.trans (hwired.find_iff.2 he))
      obtain rfl := Option.some.inj (hw.symm.trans hw')
      have hset : s'.watchedIn path = insert p (s.watchedIn path) := by
        ext x
        rw [h.watchedIn_attach hq hres hpaths, Set.mem_insert_iff]
        by_cases hx : x = p
        · simp [hx]
        · simp [hx]
      rw [hset]
      exact hcount
    · obtain ⟨he, hw'⟩ := hother path d' w' he hdir hw'
      have hset : s'.watchedIn path = s.watchedIn path := by
        ext x
        rw [h.watchedIn_attach hq hres hpaths]
        by_cases hx : x = p
        · simp [hx, hdir, hfree]
        · simp [hx]
      rw [hset]
      exact h.counts path d' w' he hw'

/-- A watch is started for a resource that has none. -/
theorem Counted.started (h : Counted s) (hs : Started s p env s')
    (hc : Orderly s (.startWatch p env)) : Counted s' := by
  have hwired := h.wired.started hs
  have hnone {r : Resource} {dir : Text} (hr : s.resources p = some r)
      (hdir : dirPath env.cwd r.name = some (some dir)) : r.watchPath = none :=
    (hc r hr).resolve_right fun hno => by
      rw [hdir] at hno
      cases hno
  cases hs with
  | noSlash => exact h
  | @shared r q dir d w hr hdir hq hfind hw =>
    have hent := h.wired.find_iff.1 hfind
    refine h.attach hwired hr (hnone hr hdir) hq rfl rfl (fun path d' he => he) hent
      (Function.update_self ..) ((h.counts dir d w hent hw).join ?_) fun path d' w' he hne hw' => ?_
    · rintro ⟨r', q', hr', hq', -⟩
      obtain rfl := Option.some.inj (hr.symm.trans hr')
      rw [hnone hr hdir] at hq'
      cases hq'
    · have hdne : d' ≠ d := by
        rintro rfl
        exact hne (h.wired.path_eq he hent)
      exact ⟨he, (Function.update_of_ne hdne ..).symm.trans hw'⟩
  | @opened r q dir d b n n' watchdirs wdirbyev da da' hr hdir hq hfind hd hins =>
    obtain ⟨-, -, hforeach⟩ := h.wired.insert hins
    have hempty : s.watchedIn dir = ∅ := by
      refine Set.eq_empty_of_forall_notMem ?_
      rintro x ⟨r', q', hr', hq', hpath⟩
      obtain ⟨path, d', hpath', he⟩ := h.placed x r' q' hr' hq'
      exact h.wired.path_ne he hfind (Option.some.inj (hpath'.symm.trans hpath))
    have hmem {path : Text} {d' : DirPtr} : (path, some d') ∈ rbForeach watchdirs ↔
        (path, some d') = (dir, some d) ∨ (path, some d') ∈ rbForeach s.watchdirs ∧ path ≠ dir := by
      rw [hforeach, mem_put strcmp_strictTotal]
    refine h.attach hwired hr (hnone hr hdir) hq rfl rfl
      (fun path d' he => hmem.2 (.inr ⟨he, h.wired.path_ne he hfind⟩)) (hmem.2 (.inl rfl))
      (Function.update_self ..) ?_ fun path d' w' he hne hw' => ?_
    · rw [hempty, insert_empty_eq]
      exact .single p
    · have he' := (hmem.1 he).resolve_left fun heq => hne (Prod.mk.inj heq).1
      have hdne : d' ≠ d := by
        rintro rfl
        obtain ⟨w'', -, hw'', -⟩ := h.wired.dir he'.1
        rw [hd] at hw''
        cases hw''
      exact ⟨he'.1, (Function.update_of_ne hdne ..).symm.trans hw'⟩

/-- The one path that the entries of a directory have. -/
theorem Counted.not_mem_watchedIn (h : Counted s) {d' : DirPtr} (hd : s.dirOf p = some d)
    (hne : d' ≠ d) (he : (path, some d') ∈ rbForeach s.watchdirs) :
    p ∉ s.watchedIn path := fun hp =>
  hne (Option.some.inj (((h.dirOf_iff he).2 hp).symm.trans hd))

theorem Wired.free (h : Wired s) : Wired (s.setResource p none) :=
  h.congr rfl rfl rfl

/-- A resource is removed whose item is one of the first two. -/
theorem Counted.removed {env : StopEnv} {s₁ : State} (h : Counted s) (hs : Stopped s p env s₁)
    (hc : Orderly s (.remove p env)) : Counted (s₁.setResource p none) := by
  have hwired := (h.wired.stopped hs).free (p := p)
  cases hs with
  | @unwatched r hr hd =>
    refine ⟨hwired, fun x r q hx hq => ?_, fun path d w he hw => ?_⟩
    · exact h.placed x r q (update_none_eq_some.1 hx).2 hq
    · have hp : p ∉ s.watchedIn path := fun hp => by
        rw [(h.dirOf_iff he).2 hp] at hd
        cases hd
      rw [watchedIn_free (fun y _ => rfl) (fun q => Iff.rfl), Set.sdiff_singleton_eq_self hp]
      exact h.counts path d w he hw
  | @kept r d w items hr hd hw hn hi =>
    refine ⟨hwired, fun x r q hx hq => ?_, fun path d' w' he hw' => ?_⟩
    · exact h.placed x r q (update_none_eq_some.1 hx).2 hq
    · rw [watchedIn_free_setDir]
      rcases update_eq_some.1 hw' with ⟨rfl, hset⟩ | ⟨hne, hold⟩
      · obtain rfl := Option.some.inj hset
        rw [removeItem_of_near (hc d' hd w hw)] at hi
        obtain rfl := Option.some.inj hi
        exact (h.counts path d' w he hw).leave ((h.dirOf_iff he).1 hd)
      · rw [Set.sdiff_singleton_eq_self (h.not_mem_watchedIn hd hne he)]
        exact h.counts path d' w' he hold
  | @released r d w q path da watchdirs wdirbyev waitHandles calls calls' hr hd
      hw hn hda hdrop hq hpath hdel =>
    obtain ⟨-, -, hforeach⟩ := h.wired.delete hdel
    obtain ⟨path', he', hp'⟩ := h.wired.of_dirOf hd
    obtain rfl : path' = path := by
      obtain ⟨w', q', hw', hq', hpath'⟩ := h.wired.dir he'
      obtain rfl := Option.some.inj (hw.symm.trans hw')
      obtain rfl := Option.some.inj (hq.symm.trans hq')
      exact Option.some.inj (hpath'.symm.trans hpath)
    have hpaths {q' : PathPtr} {path'' : Text} (hne : path'' ≠ path') :
        Function.update s.paths q none q' = some path'' ↔ s.paths q' = some path'' := by
      rw [update_none_eq_some, and_iff_right_of_imp]
      rintro hq' rfl
      exact hne (Option.some.inj (hq'.symm.trans hpath))
    refine ⟨hwired, fun x r' q' hx hq' => ?_, fun path'' d' w' he hw' => ?_⟩
    · obtain ⟨hx, hold⟩ := update_none_eq_some.1 hx
      have hres : s.resources x = some r' := (Function.update_of_ne hx ..).symm.trans hold
      obtain ⟨path'', d', hpath'', he⟩ := h.placed x r' q' hres hq'
      have hne : path'' ≠ path' := by
        rintro rfl
        exact hx ((h.counts path'' d w he' hw).eq_of_le_one hn ⟨r', q', hres, hq', hpath''⟩ hp')
      refine ⟨path'', d', (hpaths hne).2 hpath'', ?_⟩
      show _ ∈ rbForeach watchdirs
      rw [hforeach, mem_del]
      exact ⟨he, hne⟩
    · have he : (path'', some d') ∈ rbForeach watchdirs := he
      rw [hforeach, mem_del] at he
      obtain ⟨he, hne⟩ := he
      obtain ⟨hdne, hold⟩ := update_none_eq_some.1 hw'
      rw [watchedIn_free (s := s) (fun y hy => Function.update_of_ne hy ..) fun q' => hpaths hne,
        Set.sdiff_singleton_eq_self (h.not_mem_watchedIn hd hdne he)]
      exact h.counts path'' d' w' he hold

/-- A second call for a watched resource is counted, or the directory it has left still lists it. -/
theorem Counted.not_exact_started (h : Counted s) (hs : Started s p env s')
    (hc : ¬ Orderly s (.startWatch p env)) : ¬ Exact s' := by
  intro hex
  simp only [Orderly, Option.mem_def, not_forall, not_or] at hc
  obtain ⟨r₀, hr₀, hwatch, hslash⟩ := hc
  obtain ⟨q₀, hq₀⟩ := Option.ne_none_iff_exists'.1 hwatch
  obtain ⟨path, d₀, hpath, he⟩ := h.placed p r₀ q₀ hr₀ hq₀
  have hp : p ∈ s.watchedIn path := ⟨r₀, q₀, hr₀, hq₀, hpath⟩
  obtain ⟨w₀, -, hw₀, -⟩ := h.wired.dir he
  have hcount := h.counts path d₀ w₀ he hw₀
  cases hs with
  | noSlash hr hdir =>
    obtain rfl := Option.some.inj (hr₀.symm.trans hr)
    exact hslash hdir
  | @shared r q dir d w hr hdir hq hfind hw =>
    by_cases hsame : path = dir
    · subst hsame
      obtain rfl : d = d₀ := Option.some.inj (hfind.symm.trans (h.wired.find_iff.2 he))
      obtain rfl := Option.some.inj (hw.symm.trans hw₀)
      refine hcount.not_succ (p :: w.items) ?_
      have hset := hex.counts he (Function.update_self ..)
      rwa [h.watchedIn_again hp hq rfl rfl] at hset
    · have hne : d₀ ≠ d := by
        rintro rfl
        exact hsame (h.wired.path_eq he (h.wired.find_iff.1 hfind))
      have hset := hex.counts he ((Function.update_of_ne hne ..).trans hw₀)
      have hmem := (hset.mem p).1 ((hcount.mem p).2 hp)
      rw [h.watchedIn_attach hq rfl rfl] at hmem
      simp [hsame] at hmem
  | @opened r q dir d b n n' watchdirs wdirbyev da da' hr hdir hq hfind hd hins =>
    obtain ⟨-, -, hforeach⟩ := h.wired.insert hins
    have hsame : path ≠ dir := h.wired.path_ne he hfind
    have he' : (path, some d₀) ∈ rbForeach watchdirs := by
      rw [hforeach, mem_put strcmp_strictTotal]
      exact .inr ⟨he, hsame⟩
    have hne : d₀ ≠ d := ne_of_none hd hw₀
    have hset := hex.counts he' ((Function.update_of_ne hne ..).trans hw₀)
    have hmem := (hset.mem p).1 ((hcount.mem p).2 hp)
    rw [h.watchedIn_attach hq rfl rfl] at hmem
    simp [hsame] at hmem

/-- An item behind the second takes the second with it. -/
theorem Counted.not_exact_removed {env : StopEnv} {s₁ : State} (h : Counted s)
    (hs : Stopped s p env s₁) (hc : ¬ Orderly s (.remove p env)) :
    ¬ Exact (s₁.setResource p none) := by
  intro hex
  simp only [Orderly, Option.mem_def, not_forall] at hc
  obtain ⟨d₀, hd₀, w₀, hw₀, hfar⟩ := hc
  obtain ⟨path, he, hp⟩ := h.wired.of_dirOf hd₀
  have hcount := h.counts path d₀ w₀ he hw₀
  have hitem := (hcount.mem p).2 hp
  cases hs with
  | unwatched hr hd =>
    rw [hd₀] at hd
    cases hd
  | @kept r d w items hr hd hw hn hi =>
    obtain rfl := Option.some.inj (hd₀.symm.trans hd)
    obtain rfl := Option.some.inj (hw₀.symm.trans hw)
    obtain ⟨x, hx, hne, hlost⟩ := removeItem_of_far hcount.once hitem hfar hi
    have hset := hex.counts he (Function.update_self ..)
    refine hlost ((hset.mem x).2 ?_)
    rw [watchedIn_free_setDir]
    exact ⟨(hcount.mem x).1 hx, hne⟩
  | @released r d w q path da watchdirs wdirbyev waitHandles calls calls' hr hd hw hn =>
    obtain rfl := Option.some.inj (hd₀.symm.trans hd)
    obtain rfl := Option.some.inj (hw₀.symm.trans hw)
    -- the only item is the first one
    have hlen := hcount.length
    match hitems : w₀.items, hitem with
    | a :: next, hitem =>
      rw [hitems, List.length_cons] at hlen
      have hnil : next = [] := List.eq_nil_of_length_eq_zero (by omega)
      rw [hitems, hnil] at hfar
      rw [hnil] at hitem
      exact hfar hitem

/-! ## Runs -/

theorem Action.Loads.succeeds {a : Action} (ha : a.Loads) : a.Succeeds := by
  cases a with
  | stopWatch => exact absurd ha id
  | create | startWatch | remove => exact ha

theorem Counted.step {a : Action} (h : Counted s) (ha : a.Loads) (hc : Orderly s a)
    (hs : step s a = some s') : Counted s' := by
  cases step_stepped ha.succeeds hs with
  | create hp => exact h.create hp
  | startWatch _ _ hstart => exact h.started hstart hc
  | stopWatch => exact absurd ha id
  | remove hstop => exact h.removed hstop hc

theorem Counted.not_exact {a : Action} (h : Counted s) (ha : a.Loads) (hc : ¬ Orderly s a)
    (hs : Win32.step s a = some s') : ¬ Exact s' := by
  cases step_stepped ha.succeeds hs with
  | create => exact absurd trivial hc
  | startWatch _ _ hstart => exact h.not_exact_started hstart hc
  | stopWatch => exact absurd ha id
  | remove hstop => exact h.not_exact_removed hstop hc

/-- **Exact counts**: the directories count the resources that they watch in every state of a run of
loads, reloads and removals exactly when no watch is started for a resource that has one and each
resource is removed while its item is one of the first two. -/
theorem exact_iff (pool : Handle) (acts : List Action) (s : State) (hacts : ∀ a ∈ acts, a.Loads)
    (h : exec step (.initial pool) acts = some s) :
    (∀ pre m, pre <+: acts → exec step (.initial pool) pre = some m → Exact m) ↔
      Along step Orderly (.initial pool) acts :=
  forall_prefix_iff_along (D := fun _ a => a.Loads) (I := Counted) (fun _ hm => hm.exact)
    (fun _ _ _ hm ha hc hs => hm.step ha hc hs) (fun _ _ _ hm ha hc hs => hm.not_exact ha hc hs)
    (.initial pool) (along_of_forall_mem fun a ha _ => hacts a ha) h

/-- Two files of one directory are loaded, and one of another directory. -/
def loadsThree : List Action :=
  [.create 1 "a/f".toList, .startWatch 1 (.nth 1), .create 2 "b/../a/g".toList,
    .startWatch 2 (.nth 2), .create 3 "C:\\c\\h".toList, .startWatch 3 (.nth 3)]

theorem exact_iff_loadsThree :
    Along step Orderly (.initial 4) (loadsThree ++ [.remove 1 ⟨true, false⟩]) ∧
      ∀ pre m, pre <+: loadsThree ++ [.remove 1 ⟨true, false⟩] →
        exec step (.initial 4) pre = some m → Exact m := by
  have hC : Along step Orderly (.initial 4) (loadsThree ++ [.remove 1 ⟨true, false⟩]) := by
    decide +kernel
  have h := (Option.some_get (by decide +kernel :
    (exec step (.initial 4) (loadsThree ++ [.remove 1 ⟨true, false⟩])).isSome)).symm
  exact ⟨hC, (exact_iff 4 _ _ (by decide +kernel) h).2 hC⟩

/-- A file is loaded, modified, and loaded again. -/
theorem not_exact_reload :
    ¬ ∀ pool acts s, (∀ a ∈ acts, a.Loads) → exec step (.initial pool) acts = some s → Exact s := by
  intro hall
  have hrun : ((exec step (.initial 4)
      [.create 1 "a/f".toList, .startWatch 1 (.nth 1), .startWatch 1 (.nth 2)]).any fun s =>
        ("C:\\w\\a".toList, some 1) ∈ rbForeach s.watchdirs ∧
          (s.wdirs 1).map WatchDir.items = some [1, 1]) =
      true := by
    decide +kernel
  obtain ⟨s, hs, hrun⟩ := (Option.any_eq_true _ _).1 hrun
  obtain ⟨he, hitems⟩ := of_decide_eq_true hrun
  obtain ⟨w, hw, -, -, honce, -⟩ := hall 4 _ s (by decide +kernel) hs _ _ he
  rw [hw] at hitems
  rw [Option.some.inj hitems] at honce
  simp at honce

end Resman.Win32
