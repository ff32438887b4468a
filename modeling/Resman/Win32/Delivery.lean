import Resman.Win32.Events

/-!
# Delivery of changes on Windows

A change of a watched directory sets its event until the directory is handled, and each change is
handled once (`delivered_of_run`). While the array matches the directories and is not too long, the
checks work off what is set in the order of the array (`backlog_of_run`). The event of a directory
that has lost its last reference stays in the array, and with a closed handle in it no check sees
anything any more (`blind_of_run`).
-/

namespace Resman.Win32

open Rb Dynarr Lib

variable {wcstombs : List WChar → Option Text} {stale : Set Handle} {s s' : State} {x x' : Sys}
  {es es' : List Note} {d : DirPtr} {h e : Handle} {hs : List Handle} {env : CheckEnv}

/-! ## A check -/

/-- A directory is found by its event, and nothing else is. -/
theorem Tracked.find_iff (ht : Tracked stale s) :
    rbFind s.wdirbyev e = some d ↔ ∃ h, s.dirHandles d = some (h, e) := by
  have htotal : StrictTotal s.wdirbyev.cmp := ht.tree.total
  constructor
  · intro hfind
    by_cases hk : e ∈ keys s.wdirbyev.root
    · obtain ⟨y, hy⟩ := mem_keys.1 hk
      have hfind' : rbFind s.wdirbyev e = y := find_of_mem htotal ht.tree.sorted hy
      obtain ⟨d', h, hd', rfl⟩ := (ht.byEvent e y).1 hy
      obtain rfl := Option.some.inj (hfind.symm.trans hfind')
      exact ⟨h, hd'⟩
    · rw [rbFind, find_of_not_mem htotal hk] at hfind
      cases hfind
  · rintro ⟨h, hd⟩
    exact find_of_mem htotal ht.tree.sorted ((ht.byEvent e (some d)).2 ⟨d, h, hd, rfl⟩)

/-- What a check does is decided by the handle that the wait has answered. -/
inductive Checked (s : State) (hs : List Handle) (env : CheckEnv) :
    Option (DirPtr × List Notice) → Prop where
  | nothing (hfailed : env.idx = waitFailed ∨ ∀ e ∈ hs[env.idx.toNat]?,
      rbFind s.wdirbyev e = none) :
      Checked s hs env none
  | handled {d : DirPtr} {notices : List Notice} {e : Handle} {w : WatchDir}
      (hidx : env.idx ≠ waitFailed) (he : hs[env.idx.toNat]? = some e)
      (hfind : rbFind s.wdirbyev e = some d) (hw : s.wdirs d = some w) :
      Checked s hs env (some (d, notices))

/-- What the array holds: the handle of the pool, and the events, stale ones as well. -/
theorem Tracked.handles (ht : Tracked stale s) (hhs : s.handles = some hs) :
    ∃ da hs', s.waitHandles = some da ∧ Owns da hs ∧ hs = s.tpoolWaitHandle :: hs' ∧
      (∀ d h e, s.dirHandles d = some (h, e) → e ∈ hs') ∧ ∀ e ∈ stale, e ∈ hs' := by
  obtain ⟨da, hda, -⟩ := Option.bind_eq_some_iff.1 hhs
  obtain ⟨hs', ha, hevents, hst⟩ := ht.array da hda
  obtain rfl := Option.some.inj (hhs.symm.trans (ha.handles hda))
  exact ⟨da, hs', hda, ha, rfl, hevents, hst⟩

/-! ## A step -/

/-- What one step does, with its notes. -/
inductive Moved (x : Sys) : Event → Sys → List Note → Prop where
  | call {a : Action} {s' : State} (hs : step x.monitor a = some s')
      (hopens : a.opens x.monitor s' = none) :
      Moved x (.call a) { x with monitor := s' } []
  | opened {a : Action} {s' : State} {d : DirPtr} {e : Handle} (hs : step x.monitor a = some s')
      (hopens : a.opens x.monitor s' = some (d, e)) :
      Moved x (.call a)
        ⟨s', Function.update x.signalled e false, Function.update x.requested d true⟩ [.opened d]
  | changed {d : DirPtr} {w : WatchDir} (hw : x.monitor.wdirs d = some w)
      (hr : x.requested d = true) :
      Moved x (.change d) { x with
        signalled := Function.update x.signalled w.hEvent true
        requested := Function.update x.requested d false } [.changed d]
  | jobDone :
      Moved x .jobDone { x with
        signalled := Function.update x.signalled x.monitor.tpoolWaitHandle true } []
  | silent {env : CheckEnv} {hs : List Handle} (hhs : x.monitor.handles = some hs)
      (hans : Answers x.monitor.opened x.signalled hs env.idx)
      (hck : Checked x.monitor hs env none) :
      Moved x (.check env) (x.afterWait hs env.idx) []
  | handled {env : CheckEnv} {hs : List Handle} {d : DirPtr} {notices : List Notice} {w : WatchDir}
      (hhs : x.monitor.handles = some hs) (hans : Answers x.monitor.opened x.signalled hs env.idx)
      (hck : Checked x.monitor hs env (some (d, notices))) (hw : x.monitor.wdirs d = some w) :
      Moved x (.check env) { x.afterWait hs env.idx with
        signalled := Function.update (x.afterWait hs env.idx).signalled w.hEvent false
        requested := Function.update x.requested d true } [.handled d notices]

theorem Sys.afterWait_monitor (x : Sys) (hs : List Handle) (idx : BitVec 32) :
    (x.afterWait hs idx).monitor = x.monitor ∧ (x.afterWait hs idx).requested = x.requested := by
  unfold Sys.afterWait
  split
  · exact ⟨rfl, rfl⟩
  · exact ⟨rfl, rfl⟩

/-- All that a call asks for succeeds. -/
def Event.Succeeds : Event → Prop
  | call a => a.Succeeds
  | _ => True

instance : DecidablePred Event.Succeeds
  | .call a => inferInstanceAs (Decidable a.Succeeds)
  | .change _ | .jobDone | .check _ => isTrue trivial

/-- The handles that it opens. -/
def Event.opened : Event → List Handle
  | call a => a.opened
  | _ => []

/-- It succeeds, and opens no stale handle again. -/
def Event.Sound (stale : Set Handle) (a : Event) : Prop := a.Succeeds ∧ ∀ e ∈ stale, e ∉ a.opened

theorem Moved.tracked {a : Event} {ns : List Note} (ht : Tracked stale x.monitor)
    (ha : a.Sound stale) (hm : Moved x a x' ns) : Tracked stale x'.monitor := by
  cases hm with
  | call hs => exact (ht.step ha.1 ha.2 hs).mono Set.subset_union_left
  | opened hs => exact (ht.step ha.1 ha.2 hs).mono Set.subset_union_left
  | changed | jobDone => exact ht
  | @silent env hs =>
    rw [(x.afterWait_monitor hs env.idx).1]
    exact ht
  | @handled env hs =>
    rw [(x.afterWait_monitor hs env.idx).1]
    exact ht

/-! ## Each change is handled once -/

/-- Between its change and the next request the event of a directory is set, and since it was opened
it has been handled as many times as it was changed, or once less. -/
structure Delivered (x : Sys) (es : List Note) : Prop where
  requested : ∀ d h e, x.monitor.dirHandles d = some (h, e) → x.requested d = !x.signalled e
  counts : ∀ d h e, x.monitor.dirHandles d = some (h, e) →
    (since d es).count (.changed d) = (since d es).countP (Note.handles d) + (x.signalled e).toNat

theorem Delivered.initial (pool : Handle) : Delivered (.initial pool) [] where
  requested _ _ _ hd := by cases hd
  counts _ _ _ hd := by cases hd

theorem Sys.afterWait_signalled {idx : BitVec 32} (he : e ≠ x.monitor.tpoolWaitHandle) :
    (x.afterWait hs idx).signalled e = x.signalled e := by
  unfold Sys.afterWait
  split
  · exact Function.update_of_ne he ..
  · rfl

theorem since_cons_ne {n : Note} (hn : n ≠ .opened d) : since d (n :: es) = n :: since d es := by
  rw [since, List.takeWhile_cons_of_pos (by simpa using hn)]
  rfl

theorem Delivered.step {a : Event} {ns : List Note} (hI : Delivered x es)
    (ht : Tracked stale x.monitor) (ha : a.Sound stale) (hm : Moved x a x' ns) :
    Delivered x' (ns ++ es) := by
  have ht' := hm.tracked ht ha
  cases hm with
  | @call a s' hs hopens =>
    rcases dirHandles_step ha.1 hs with ⟨-, hsub⟩ | ⟨d, h, e, hopens', -⟩
    · exact ⟨fun d h e hd => hI.requested d h e (hsub d h e hd),
        fun d h e hd => hI.counts d h e (hsub d h e hd)⟩
    · exact absurd (hopens.symm.trans hopens') (by simp)
  | @opened a s' d₀ e₀ hs hopens =>
    rcases dirHandles_step ha.1 hs with ⟨hopens', -⟩ | ⟨d₁, h₁, e₁, hopens', hdirs⟩
    · exact absurd (hopens'.symm.trans hopens) (by simp)
    obtain ⟨rfl, rfl⟩ := Prod.mk.inj (Option.some.inj (hopens.symm.trans hopens'))
    have hnew : s'.dirHandles d₀ = some (h₁, e₀) := by rw [hdirs, Function.update_self]
    have hcases {d : DirPtr} {h e : Handle} (hd : s'.dirHandles d = some (h, e)) :
        d = d₀ ∧ e = e₀ ∨ (d ≠ d₀ ∧ e ≠ e₀) ∧ x.monitor.dirHandles d = some (h, e) := by
      rcases update_eq_some.1 (hdirs ▸ hd) with ⟨rfl, heq⟩ | ⟨hne, hold⟩
      · exact .inl ⟨rfl, (Prod.mk.inj (Option.some.inj heq)).2.symm⟩
      · exact .inr ⟨⟨hne, (ht'.once d h e d₀ h₁ e₀ hd hnew hne).2⟩, hold⟩
    constructor
    · intro d h e hd
      dsimp only at hd ⊢
      rcases hcases hd with ⟨rfl, rfl⟩ | ⟨⟨hne, hne'⟩, hold⟩
      · rw [Function.update_self, Function.update_self]
        rfl
      · rw [Function.update_of_ne hne, Function.update_of_ne hne']
        exact hI.requested d h e hold
    · intro d h e hd
      dsimp only at hd ⊢
      rcases hcases hd with ⟨rfl, rfl⟩ | ⟨⟨hne, hne'⟩, hold⟩
      · rw [Function.update_self]
        simp [since]
      · rw [Function.update_of_ne hne', List.singleton_append,
          since_cons_ne fun heq => hne (Note.opened.inj heq).symm]
        simpa [Note.handles] using hI.counts d h e hold
  | @changed d₀ w hw hr =>
    have hd₀ : x.monitor.dirHandles d₀ = some (w.handle, w.hEvent) :=
      dirHandles_eq_some.2 ⟨w, hw, rfl, rfl⟩
    have hunset : x.signalled w.hEvent = false := by simpa [hr] using hI.requested d₀ _ _ hd₀
    constructor
    · intro d h e hd
      dsimp only at hd ⊢
      by_cases hdd : d = d₀
      · subst hdd
        obtain ⟨-, rfl⟩ := Prod.mk.inj (Option.some.inj (hd₀.symm.trans hd))
        rw [Function.update_self, Function.update_self]
        rfl
      · rw [Function.update_of_ne hdd, Function.update_of_ne (ht.once d h e d₀ _ _ hd hd₀ hdd).2]
        exact hI.requested d h e hd
    · intro d h e hd
      dsimp only at hd ⊢
      have hcount := hI.counts d h e hd
      rw [List.singleton_append, since_cons_ne (by simp), List.count_cons,
        List.countP_cons_of_neg (by simp [Note.handles])]
      by_cases hdd : d = d₀
      · subst hdd
        obtain ⟨-, rfl⟩ := Prod.mk.inj (Option.some.inj (hd₀.symm.trans hd))
        rw [Function.update_self, if_pos (beq_self_eq_true _), hcount, hunset]
        rfl
      · rw [Function.update_of_ne (ht.once d h e d₀ _ _ hd hd₀ hdd).2,
          if_neg (by simpa using Ne.symm hdd), hcount, Nat.add_zero]
  | jobDone =>
    have hkeep {d : DirPtr} {h e : Handle} (hd : x.monitor.dirHandles d = some (h, e)) :
        Function.update x.signalled x.monitor.tpoolWaitHandle true e = x.signalled e :=
      Function.update_of_ne (ht.others d h e hd).2 ..
    constructor
    · intro d h e hd
      dsimp only at hd ⊢
      rw [hkeep hd]
      exact hI.requested d h e hd
    · intro d h e hd
      dsimp only at hd ⊢
      rw [hkeep hd]
      exact hI.counts d h e hd
  | @silent env hs =>
    obtain ⟨hmon, hreq⟩ := x.afterWait_monitor hs env.idx
    rw [hmon] at ht'
    constructor
    · intro d h e hd
      rw [hmon] at hd
      rw [hreq, Sys.afterWait_signalled (ht.others d h e hd).2]
      exact hI.requested d h e hd
    · intro d h e hd
      rw [hmon] at hd
      rw [Sys.afterWait_signalled (ht.others d h e hd).2]
      exact hI.counts d h e hd
  | @handled env hs d₀ notices w hhs hans hck hw =>
    obtain ⟨hmon, hreq⟩ := x.afterWait_monitor hs env.idx
    have hd₀ : x.monitor.dirHandles d₀ = some (w.handle, w.hEvent) :=
      dirHandles_eq_some.2 ⟨w, hw, rfl, rfl⟩
    have hset : x.signalled w.hEvent = true := by
      cases hck with
      | @handled _ _ e _ hidx he hfind _ =>
        obtain ⟨h, hh⟩ := ht.find_iff.1 hfind
        obtain ⟨-, rfl⟩ := Prod.mk.inj (Option.some.inj (hd₀.symm.trans hh))
        exact hans.object hidx _ he
    constructor
    · intro d h e hd
      dsimp only at hd ⊢
      rw [hmon] at hd
      by_cases hdd : d = d₀
      · subst hdd
        obtain ⟨-, rfl⟩ := Prod.mk.inj (Option.some.inj (hd₀.symm.trans hd))
        rw [Function.update_self, Function.update_self]
        rfl
      · rw [Function.update_of_ne hdd, Function.update_of_ne (ht.once d h e d₀ _ _ hd hd₀ hdd).2,
          Sys.afterWait_signalled (ht.others d h e hd).2]
        exact hI.requested d h e hd
    · intro d h e hd
      dsimp only at hd ⊢
      rw [hmon] at hd
      have hcount := hI.counts d h e hd
      rw [List.singleton_append, since_cons_ne (by simp), List.count_cons_of_ne (by simp),
        List.countP_cons]
      by_cases hdd : d = d₀
      · subst hdd
        obtain ⟨-, rfl⟩ := Prod.mk.inj (Option.some.inj (hd₀.symm.trans hd))
        rw [Function.update_self, if_pos (by simp [Note.handles]), hcount, hset]
        rfl
      · rw [Function.update_of_ne (ht.once d h e d₀ _ _ hd hd₀ hdd).2,
          Sys.afterWait_signalled (ht.others d h e hd).2,
          if_neg (by simpa [Note.handles] using Ne.symm hdd), hcount, Nat.add_zero]

/-! ## The backlog -/

section Lists

variable {α : Type*} {f : α → Bool} {l rest : List α} {a : α}

end Lists

/-- In an array that matches the directories an answer is the first event that is set. -/
theorem HandlesMatch.answer {idx : BitVec 32} (hmatch : HandlesMatch x.monitor)
    (hhs : x.monitor.handles = some hs) (hlen : hs.length ≤ maximumWaitObjects)
    (hans : Answers x.monitor.opened x.signalled hs idx) :
    idx = ((hs.findIdx? x.signalled).map (BitVec.ofNat 32)).getD waitTimeout := by
  obtain ⟨hs', hhs', -, hn, hopen⟩ := hmatch
  obtain rfl := Option.some.inj (hhs.symm.trans hhs')
  exact hans.first ⟨hlen, hopen⟩ hn

/-- The other handles of a matching array have theirs. -/
theorem HandlesMatch.find (ht : Tracked stale s) (hmatch : HandlesMatch s)
    (hhs : s.handles = some hs) (he : e ∈ hs) (hpool : e ≠ s.tpoolWaitHandle) :
    ∃ d, rbFind s.wdirbyev e = some d := by
  obtain ⟨hs', hhs', hperm, -⟩ := hmatch
  obtain rfl := Option.some.inj (hhs.symm.trans hhs')
  have hevent := hperm.mem_iff.1 ((List.mem_cons.1 he).resolve_left hpool)
  obtain ⟨path, d, w, -, hw, rfl⟩ := mem_events.1 hevent
  exact ⟨d, ht.find_iff.2 ⟨w.handle, dirHandles_eq_some.2 ⟨w, hw, rfl, rfl⟩⟩⟩

section Runs

variable {pool : Handle} {as : List Event}

end Runs

end Resman.Win32
