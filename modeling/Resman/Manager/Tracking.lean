import Resman.Manager.Watches

/-!
# What holds of the watches over whole runs

Three questions about the map from descriptors to resources, for every run of operations:

* does an entry ever point to a resource that is gone or that carries another descriptor
  (`neverStale_iff`): only after a deleted file has come back under a new descriptor;
* is a resource with `nfd > 0` under its descriptor (`watchesAgree_iff`): until a watch is stopped
  while its resource stays;
* are two resources that share a descriptor both served (`not_servesBoth`): never.
-/

namespace Resman.Manager

open Lib Rb FileWatch

variable {rman rman' : Rman} {p q : ResPtr}

/-- What every run keeps. -/
structure WatchInv (rman : Rman) : Prop where
  base : WatchBase rman
  active : (registry rman).Active Watched

theorem WatchInv.init (doneFunc destroyFunc : Bool) : WatchInv (.init doneFunc destroyFunc) where
  base := .init doneFunc destroyFunc
  active := ⟨fun h => (by cases h), fun h _ => (by cases h)⟩

theorem WatchInv.step (h : WatchInv rman) {op : WatchOp} (hpos : PositiveWatch rman op)
    (hstep : watchStep rman op = some rman') :
    WatchInv rman' ∧ registry rman' = (registry rman).step Watched (regOp rman op) := by
  obtain ⟨hb, hreg⟩ := watchStep_refines h.base hpos hstep
  exact ⟨⟨hb, hreg ▸ h.active.step (regOp_fair h.base hpos)⟩, hreg⟩

/-! ## Stale entries -/

/-- Every entry points to a live resource that carries its descriptor, and the assertion of
`reload_modified` holds for every descriptor. -/
structure NeverStale (rman : Rman) : Prop where
  entry : ∀ e ∈ rbForeach rman.nresmap, ∃ p r, e.2 = some p ∧ rman.heap p = some r ∧
    e.1 = int2ptr r.nfd
  assertion : ∀ wd wds, reloadModified rman wd wds ≠ none

theorem neverStale_iff_sound (hb : WatchBase rman) : NeverStale rman ↔ (registry rman).Sound := by
  constructor
  · intro h wd p hwd
    obtain ⟨p', r, hp', hr, hkey⟩ := h.entry _ ((rbFindi_eq_some hb.tree).1 hwd)
    obtain rfl := Option.some.inj hp'
    rw [int2ptr_inj] at hkey
    simp [registry, hr, hkey]
  · intro h
    have hlive : ∀ wd p, rbFindi rman.nresmap wd = some p →
        ∃ r, rman.heap p = some r ∧ r.nfd = wd := fun wd p hwd =>
      Option.map_eq_some_iff.1 (h wd p hwd)
    refine ⟨fun e he => ?_, fun wd wds hnone => ?_⟩
    · obtain ⟨k, d⟩ := e
      obtain ⟨wd, -, rfl⟩ := hb.tree.nonneg k (mem_keys.2 ⟨d, he⟩)
      cases d with
      | none => exact absurd he (hb.full wd)
      | some p =>
        obtain ⟨r, hr, rfl⟩ := hlive wd p ((rbFindi_eq_some hb.tree).2 he)
        exact ⟨p, r, rfl, hr, rfl⟩
    · unfold reloadModified at hnone
      split at hnone
      · cases hnone
      · next p hfind =>
        obtain ⟨r, hr, rfl⟩ := hlive wd p hfind
        simp [hr] at hnone

/-- A file that is watched again after its deletion gets the descriptor that it had. -/
def ReaddsSame (rman : Rman) : WatchOp → Prop
  | .event _ ev o =>
    ev.has inIgnored → rbFindi rman.nresmap ev.wd ≠ none → ∀ fd ∈ o.watch, fd = ev.wd
  | _ => True

instance (rman : Rman) : ∀ op, Decidable (ReaddsSame rman op)
  | .event _ ev o =>
    haveI := Option.decidableForallMem (p := fun fd => fd = ev.wd) o.watch
    inferInstanceAs (Decidable (ev.has inIgnored → rbFindi rman.nresmap ev.wd ≠ none →
      ∀ fd ∈ o.watch, fd = ev.wd))
  | .add .. | .remove _ | .start .. | .stop _ | .reloads => isTrue trivial

theorem renewsKey_iff {op : WatchOp} :
    (registry rman).RenewsKey (regOp rman op) ↔ ReaddsSame rman op := by
  cases op with
  | add fname data mem =>
    rw [regOp]
    split <;> exact ⟨fun _ => trivial, fun _ => trivial⟩
  | remove idx =>
    rw [regOp]
    split <;> exact ⟨fun _ => trivial, fun _ => trivial⟩
  | start p o => exact ⟨fun _ => trivial, fun _ => trivial⟩
  | stop p => exact ⟨fun _ => trivial, fun _ => trivial⟩
  | reloads => exact ⟨fun _ => trivial, fun _ => trivial⟩
  | event msec ev o =>
    rw [regOp, ReaddsSame]
    split
    · next hev =>
      cases hw : o.watch with
      | none => exact ⟨fun _ _ _ fd hfd => (by cases hfd), fun _ => trivial⟩
      | some fd =>
        refine ⟨fun h _ hne fd' hfd' => ?_, fun h hne => h hev hne fd rfl⟩
        obtain rfl : fd = fd' := Option.some.inj hfd'
        exact h hne
    · next hev => exact ⟨fun _ hev' => absurd hev' hev, fun _ => trivial⟩

/-- **Entries are never stale**, in the runs, and only in the runs, in which a file that is watched
again after its deletion gets the descriptor that it had. -/
theorem neverStale_iff {doneFunc destroyFunc : Bool} {ops : List WatchOp}
    (hpos : Along watchStep PositiveWatch (.init doneFunc destroyFunc) ops)
    (h : exec watchStep (.init doneFunc destroyFunc) ops = some rman) :
    (∀ pre m, pre <+: ops → exec watchStep (.init doneFunc destroyFunc) pre = some m →
        NeverStale m) ↔
      Along watchStep ReaddsSame (.init doneFunc destroyFunc) ops := by
  have hsound : ∀ {m op m'}, WatchInv m → (registry m).Sound → PositiveWatch m op →
      watchStep m op = some m' → WatchInv m' ∧ ((registry m').Sound ↔ ReaddsSame m op) := by
    intro m op m' hm hs hp hstep
    obtain ⟨hm', hreg⟩ := hm.step hp hstep
    rw [hreg, Registry.sound_step_iff hs hm.active (regOp_fair hm.base hp), renewsKey_iff]
    exact ⟨hm', Iff.rfl⟩
  refine forall_prefix_iff_along (I := fun m => WatchInv m ∧ (registry m).Sound)
    (fun m hm => (neverStale_iff_sound hm.1.base).2 hm.2) ?_ ?_
    ⟨.init _ _, fun wd p hwd => by cases hwd⟩ hpos h
  · rintro m op m' ⟨hm, hs⟩ hp hc hstep
    obtain ⟨hm', hiff⟩ := hsound hm hs hp hstep
    exact ⟨hm', hiff.2 hc⟩
  · rintro m op m' ⟨hm, hs⟩ hp hc hstep hgood
    obtain ⟨hm', hiff⟩ := hsound hm hs hp hstep
    exact hc (hiff.1 ((neverStale_iff_sound hm'.base).1 hgood))

/-- A watched file is deleted and comes back under its old descriptor. -/
def readdedSame : List WatchOp :=
  [.add "a" 0 {}, .start 0 { watch := some 1 },
    .event 0 ⟨1, inIgnored, 0, 0⟩ { watch := some 1 }, .reloads]

theorem neverStale_iff_readdedSame :
    Along watchStep ReaddsSame (.init true true) readdedSame ∧
      ∀ pre m, pre <+: readdedSame → exec watchStep (.init true true) pre = some m →
        NeverStale m := by
  have hC : Along watchStep ReaddsSame (.init true true) readdedSame := by decide +kernel
  have h := (Option.some_get
    (by decide +kernel : (exec watchStep (.init true true) readdedSame).isSome)).symm
  exact ⟨hC, (neverStale_iff (by decide +kernel) h).2 hC⟩

/-- A watched file is deleted and comes back under a new descriptor. -/
def readdedNew : List WatchOp :=
  [.add "a" 0 {}, .start 0 { watch := some 1 },
    .event 0 ⟨1, inIgnored, 0, 0⟩ { watch := some 2 }]

/-- The old descriptor still leads to the resource, and its next event fails the assertion. -/
theorem not_neverStale_readdedNew :
    ¬ ∀ doneFunc destroyFunc ops rman,
      Along watchStep PositiveWatch (.init doneFunc destroyFunc) ops →
      exec watchStep (.init doneFunc destroyFunc) ops = some rman → NeverStale rman := by
  intro hall
  have hgood := hall true true readdedNew _ (by decide +kernel)
    (Option.some_get (by decide +kernel : (exec watchStep _ readdedNew).isSome)).symm
  exact hgood.assertion 1 [] (by decide +kernel)

/-! ## Watched resources -/

/-- A resource with `nfd > 0` is under its descriptor; for one that is not under its
descriptor, `resman_stop_watch` changes nothing and `resman_start_watch` registers it
if inotify watches the file. -/
structure WatchesAgree (rman : Rman) : Prop where
  registered : ∀ p r, rman.heap p = some r → 0 < r.nfd.toInt → rbFindi rman.nresmap r.nfd = some p
  again : ∀ p r, rman.heap p = some r → rbFindi rman.nresmap r.nfd ≠ some p →
    stopWatch rman p = some rman ∧ ∀ o fd, o.watch = some fd → 0 < fd.toInt →
      ∃ rman', startWatch rman p o = some (rman', true) ∧ rbFindi rman'.nresmap fd = some p

/-- A resource that is not watched is registered by `resman_start_watch`. -/
theorem startWatch_registers (hb : WatchBase rman) {r : Resource} (hr : rman.heap p = some r)
    (hnfd : ¬ 0 < r.nfd.toInt) {o : Oracle} {fd : BitVec 32} (hw : o.watch = some fd)
    (hfd : 0 < fd.toInt) :
    ∃ rman', startWatch rman p o = some (rman', true) ∧ rbFindi rman'.nresmap fd = some p := by
  obtain ⟨nresmap, hins, -, -⟩ := rbInserti_spec hb.tree (Int.le_of_lt hfd) o.node (some p)
  obtain ⟨-, -, hfind⟩ := rbFindi_rbInserti hb.tree hb.full (Int.le_of_lt hfd) hins
  refine ⟨{ rman with nresmap, heap := Function.update rman.heap p (some { r with nfd := fd }) },
    ?_, ?_⟩
  · simp [startWatch, hr, hnfd, hw, hins, Rman.update]
  · exact (congrFun hfind fd).trans (Function.update_self ..)

theorem watchesAgree_iff_complete (hb : WatchBase rman) :
    WatchesAgree rman ↔ (registry rman).Complete Watched := by
  constructor
  · intro h p fd hkey hfd
    obtain ⟨r, hr, rfl⟩ := Option.map_eq_some_iff.1 hkey
    exact h.registered p r hr hfd
  · intro h
    have hreg : ∀ p r, rman.heap p = some r → 0 < r.nfd.toInt →
        rbFindi rman.nresmap r.nfd = some p := fun p r hr hfd =>
      h p r.nfd (by simp [registry, hr]) hfd
    refine ⟨hreg, fun p r hr hne => ?_⟩
    have hnfd : ¬ 0 < r.nfd.toInt := fun hfd => hne (hreg p r hr hfd)
    refine ⟨by simp [stopWatch, hr, hnfd], fun o fd hw hfd => ?_⟩
    exact startWatch_registers hb hr hnfd hw hfd

/-- No resource but `p` carries the descriptor. -/
def Unshared (rman : Rman) (p : ResPtr) (fd : BitVec 32) : Prop :=
  ∀ q < rman.nalloc, q ≠ p → (rman.heap q).map Resource.nfd ≠ some fd

/-- `inotify_add_watch` returns a descriptor that no other resource carries. -/
def DistinctWatch (rman : Rman) : WatchOp → Prop
  | .start p o => ∀ fd ∈ o.watch, Unshared rman p fd
  | .event _ ev o => ev.has inIgnored → ∀ fd ∈ o.watch, ∀ p ∈ rbFindi rman.nresmap ev.wd,
    Unshared rman p fd
  | _ => True

/-- No watch is stopped while its resource stays: `resman_stop_watch` is not called for a watched
resource, and a deleted file can be watched again. -/
def KeepsWatches (rman : Rman) : WatchOp → Prop
  | .stop p => ∀ r ∈ rman.heap p, ¬ Watched r.nfd
  | .event _ ev o => ev.has inIgnored → rbFindi rman.nresmap ev.wd ≠ none → o.watch ≠ none
  | _ => True

instance (rman : Rman) (p : ResPtr) (fd : BitVec 32) : Decidable (Unshared rman p fd) :=
  inferInstanceAs (Decidable (∀ q < rman.nalloc, q ≠ p → (rman.heap q).map Resource.nfd ≠ some fd))

instance (rman : Rman) : ∀ op, Decidable (DistinctWatch rman op)
  | .start p o => Option.decidableForallMem (p := Unshared rman p) o.watch
  | .event _ ev o =>
    haveI := Option.decidableForallMem
      (p := fun fd => ∀ p ∈ rbFindi rman.nresmap ev.wd, Unshared rman p fd) o.watch
    inferInstanceAs (Decidable (ev.has inIgnored → ∀ fd ∈ o.watch,
      ∀ p ∈ rbFindi rman.nresmap ev.wd, Unshared rman p fd))
  | .add .. | .remove _ | .stop _ | .reloads => isTrue trivial

instance (rman : Rman) : ∀ op, Decidable (KeepsWatches rman op)
  | .stop p => inferInstanceAs (Decidable (∀ r ∈ rman.heap p, ¬ Watched r.nfd))
  | .event _ ev o => inferInstanceAs (Decidable (ev.has inIgnored →
      rbFindi rman.nresmap ev.wd ≠ none → o.watch ≠ none))
  | .add .. | .remove _ | .start .. | .reloads => isTrue trivial

theorem Unshared.key_ne (hb : WatchBase rman) {fd : BitVec 32} (h : Unshared rman p fd)
    (hq : q ≠ p) : (registry rman).key q ≠ some fd := by
  intro hkey
  obtain ⟨r, hr, -⟩ := Option.map_eq_some_iff.1 hkey
  exact h q (hb.lt hr) hq hkey

theorem regOp_distinct (hb : WatchBase rman) {op : WatchOp} (hd : DistinctWatch rman op) :
    (registry rman).Distinct (regOp rman op) := by
  cases op with
  | add fname data mem =>
    rw [regOp]
    split <;> trivial
  | remove idx =>
    rw [regOp]
    split <;> trivial
  | start p o =>
    rw [regOp]
    cases hw : o.watch with
    | none => trivial
    | some fd => exact fun q hq => (hd fd hw).key_ne hb hq
  | stop p => trivial
  | reloads => trivial
  | event msec ev o =>
    rw [regOp]
    split
    · next hev =>
      cases hw : o.watch with
      | none => trivial
      | some fd => exact fun p hp q hq => (hd hev fd hw p hp).key_ne hb hq
    · trivial

theorem takesNoneOut_iff (h : WatchInv rman) {op : WatchOp} (hpos : PositiveWatch rman op)
    (hstep : watchStep rman op = some rman') :
    (registry rman).TakesNoneOut Watched (regOp rman op) ↔ KeepsWatches rman op := by
  cases op with
  | add fname data mem =>
    rw [regOp]
    split <;> exact ⟨fun _ => trivial, fun _ => trivial⟩
  | remove idx =>
    rw [regOp]
    split <;> exact ⟨fun _ => trivial, fun _ => trivial⟩
  | start p o => exact ⟨fun _ => trivial, fun _ => trivial⟩
  | stop p =>
    constructor
    · intro hk r hr
      exact hk r.nfd (by simp [registry, Option.mem_def.1 hr])
    · intro hk fd hkey
      obtain ⟨r, hr, rfl⟩ := Option.map_eq_some_iff.1 hkey
      exact hk r hr
  | reloads => exact ⟨fun _ => trivial, fun _ => trivial⟩
  | event msec ev o =>
    obtain ⟨-, -, hlive⟩ := registry_handleEvent h.base hpos hstep
    rw [regOp, KeepsWatches]
    split
    · next hev =>
      cases hw : o.watch with
      | some fd => exact ⟨fun _ _ _ => Option.some_ne_none fd, fun _ => trivial⟩
      | none =>
        constructor
        · intro hnone _ hne _
          obtain ⟨p, hp⟩ := Option.ne_none_iff_exists'.1 hne
          exact hlive hev p hp (Option.map_eq_none_iff.1 (hnone p hp))
        · intro hk p hp
          exact absurd rfl (hk hev ((Option.ne_none_iff_exists').2 ⟨p, hp⟩))
    · next hev => exact ⟨fun _ hev' => absurd hev' hev, fun _ => trivial⟩

/-- **The flag and the map agree**, in the runs, and only in the runs, in which no watch is stopped
while its resource stays. -/
theorem watchesAgree_iff {doneFunc destroyFunc : Bool} {ops : List WatchOp}
    (hpos : Along watchStep (fun rman op => PositiveWatch rman op ∧ DistinctWatch rman op)
      (.init doneFunc destroyFunc) ops)
    (h : exec watchStep (.init doneFunc destroyFunc) ops = some rman) :
    (∀ pre m, pre <+: ops → exec watchStep (.init doneFunc destroyFunc) pre = some m →
        WatchesAgree m) ↔
      Along watchStep KeepsWatches (.init doneFunc destroyFunc) ops := by
  have hcomplete : ∀ {m op m'}, WatchInv m → (registry m).Complete Watched →
      PositiveWatch m op ∧ DistinctWatch m op → watchStep m op = some m' →
      WatchInv m' ∧ ((registry m').Complete Watched ↔ KeepsWatches m op) := by
    rintro m op m' hm hc ⟨hp, hd⟩ hstep
    obtain ⟨hm', hreg⟩ := hm.step hp hstep
    rw [hreg, Registry.complete_step_iff hc hm.active (regOp_fair hm.base hp)
      (regOp_distinct hm.base hd), takesNoneOut_iff hm hp hstep]
    exact ⟨hm', Iff.rfl⟩
  refine forall_prefix_iff_along (I := fun m => WatchInv m ∧ (registry m).Complete Watched)
    (fun m hm => (watchesAgree_iff_complete hm.1.base).2 hm.2) ?_ ?_
    ⟨.init _ _, fun p fd hkey => by cases hkey⟩ hpos h
  · rintro m op m' ⟨hm, hc⟩ hD hk hstep
    obtain ⟨hm', hiff⟩ := hcomplete hm hc hD hstep
    exact ⟨hm', hiff.2 hk⟩
  · rintro m op m' ⟨hm, hc⟩ hD hk hstep hgood
    obtain ⟨hm', hiff⟩ := hcomplete hm hc hD hstep
    exact hk (hiff.1 ((watchesAgree_iff_complete hm'.base).1 hgood))

/-- Two files are watched. -/
def twoWatches : List WatchOp :=
  [.add "a" 0 {}, .add "b" 0 {}, .start 0 { watch := some 1 }, .start 1 { watch := some 2 }]

/-- One of two files is deleted and comes back under a new descriptor, and the other resource is
removed. -/
def removedOther : List WatchOp :=
  twoWatches ++ [.event 0 ⟨1, inIgnored, 0, 0⟩ { watch := some 3 }, .reloads, .remove 1]

theorem watchesAgree_iff_removedOther :
    Along watchStep KeepsWatches (.init true true) removedOther ∧
      ∀ pre m, pre <+: removedOther → exec watchStep (.init true true) pre = some m →
        WatchesAgree m := by
  have hC : Along watchStep KeepsWatches (.init true true) removedOther := by decide +kernel
  have h := (Option.some_get
    (by decide +kernel : (exec watchStep (.init true true) removedOther).isSome)).symm
  exact ⟨hC, (watchesAgree_iff (by decide +kernel) h).2 hC⟩

/-- The watch of one of two files is stopped. -/
def stoppedWatch : List WatchOp := twoWatches ++ [.stop 0]

/-- The resource keeps its descriptor, which is no longer in the map. -/
theorem not_watchesAgree_stoppedWatch :
    ¬ ∀ doneFunc destroyFunc ops rman,
      Along watchStep (fun rman op => PositiveWatch rman op ∧ DistinctWatch rman op)
        (.init doneFunc destroyFunc) ops →
      exec watchStep (.init doneFunc destroyFunc) ops = some rman → WatchesAgree rman := by
  intro hall
  have hgood := hall true true stoppedWatch _ (by decide +kernel)
    (Option.some_get (by decide +kernel : (exec watchStep _ stoppedWatch).isSome)).symm
  have hheap : (((exec watchStep (.init true true) stoppedWatch).get (by decide +kernel)).heap
      0).map Resource.nfd = some 1 := by decide +kernel
  have hfind : rbFindi ((exec watchStep (.init true true) stoppedWatch).get
      (by decide +kernel)).nresmap 1 = none := by decide +kernel
  obtain ⟨r, hr, hnfd⟩ := Option.map_eq_some_iff.1 hheap
  have hreg := hgood.registered 0 r hr (hnfd ▸ by decide)
  rw [hnfd] at hreg
  exact absurd (hfind.symm.trans hreg) (Option.some_ne_none 0).symm

/-! ## Two resources under one descriptor -/

/-- An `IN_MODIFY` event for the descriptor sets up a delayed reload of both resources. -/
def ReloadsBoth (rman : Rman) (p q : ResPtr) (fd : BitVec 32) : Prop :=
  ∀ msec o, ∃ rman', handleEvent rman msec ⟨fd, inModify, 0, 0⟩ o = some rman' ∧
    (rman'.heap p).map Resource.reloadTimeout = some (msec + 128) ∧
    (rman'.heap q).map Resource.reloadTimeout = some (msec + 128)

/-- The resource in slot `idx` is removed, and `q` is still there, watched and
under the descriptor. -/
def KeepsOther (rman : Rman) (idx : Nat) (q : ResPtr) (fd : BitVec 32) : Prop :=
  ∃ rman', removeResource rman idx = some rman' ∧
    (rman'.heap q).map Resource.nfd = some fd ∧ rbFindi rman'.nresmap fd = some q

theorem handleEvent_modify (msec : Nat) (fd : BitVec 32) (o : Oracle) :
    handleEvent rman msec ⟨fd, inModify, 0, 0⟩ o = onModify rman msec fd := by
  have hmask : ∀ flag, InotifyEvent.has ⟨fd, inModify, 0, 0⟩ flag = (inModify &&& flag != 0) :=
    fun _ => rfl
  have hmod : (inModify &&& inModify != 0) = true := by decide
  have hclose : (inModify &&& inCloseWrite != 0) = false := by decide
  have hign : (inModify &&& inIgnored != 0) = false := by decide
  simp only [handleEvent, ifFlag, hmask, hmod, hclose, hign, if_true, Bool.false_eq_true, if_false]
  cases onModify rman msec fd with
  | none => rfl
  | some rman₁ => rfl

/-- The map holds one of the two resources at most, so one of them does not get the event. -/
theorem not_reloadsBoth (hpq : p ≠ q) (fd : BitVec 32) : ¬ ReloadsBoth rman p q fd := by
  intro h
  have hone : ∃ s, (s = p ∨ s = q) ∧ ∀ msec rman',
      handleEvent rman msec ⟨fd, inModify, 0, 0⟩ {} = some rman' → rman'.heap s = rman.heap s := by
    cases hfind : rbFindi rman.nresmap fd with
    | none =>
      refine ⟨p, .inl rfl, fun msec rman' h' => ?_⟩
      rw [handleEvent_modify, onModify, hfind] at h'
      rw [← Option.some.inj h']
    | some s =>
      obtain ⟨s', hs', hne⟩ : ∃ s', (s' = p ∨ s' = q) ∧ s' ≠ s := by
        by_cases hs : p = s
        · exact ⟨q, .inr rfl, fun hq => hpq (hs.trans hq.symm)⟩
        · exact ⟨p, .inl rfl, hs⟩
      refine ⟨s', hs', fun msec rman' h' => ?_⟩
      rw [handleEvent_modify, onModify, hfind] at h'
      obtain ⟨r, -, rfl⟩ := heap_of_update h'
      exact Function.update_of_ne hne ..
  obtain ⟨s, hs, hsame⟩ := hone
  have htime : ∀ msec, (rman.heap s).map Resource.reloadTimeout = some (msec + 128) := by
    intro msec
    obtain ⟨rman', h', hp, hq⟩ := h msec {}
    rw [← hsame msec rman' h']
    rcases hs with rfl | rfl
    · exact hp
    · exact hq
  cases (htime 0).symm.trans (htime 1)

/-- The removal of a watched resource clears the map at its descriptor. -/
theorem not_keepsOther (hb : WatchBase rman) {idx : Nat} (hi : rman.res[idx]? = some (some p))
    {r : Resource} (hr : rman.heap p = some r) (hnfd : 0 < r.nfd.toInt) (q : ResPtr) :
    ¬ KeepsOther rman idx q r.nfd := by
  rintro ⟨rman', h, -, hfind⟩
  obtain ⟨-, hreg⟩ := registry_removeResource hb h
  have hkey : (registry rman).key p = some r.nfd := by simp [registry, hr]
  have hslot : (registry rman').slot r.nfd = none := by
    rw [hreg, regOp, hi]
    exact Registry.slot_stop_key hkey hnfd
  exact absurd (hslot.symm.trans hfind) (Option.some_ne_none q).symm

/-- **Two names of one file are never both served.** Whatever has happened before, while two
resources with different names carry one descriptor, an event does not reload both, and the removal
of either one takes the descriptor out of the map. -/
theorem not_servesBoth {doneFunc destroyFunc : Bool} {ops : List WatchOp}
    (hpos : Along watchStep PositiveWatch (.init doneFunc destroyFunc) ops)
    (h : exec watchStep (.init doneFunc destroyFunc) ops = some rman) {i j : Nat}
    (hi : rman.res[i]? = some (some p)) (hj : rman.res[j]? = some (some q)) {r r' : Resource}
    (hr : rman.heap p = some r) (hr' : rman.heap q = some r') (hname : r.name ≠ r'.name)
    (hnfd : r.nfd = r'.nfd) (hwatched : 0 < r.nfd.toInt) :
    ¬ ReloadsBoth rman p q r.nfd ∧ ¬ KeepsOther rman i q r.nfd ∧ ¬ KeepsOther rman j p r.nfd := by
  have hb : WatchBase rman := (exec_invariant (WatchInv.init doneFunc destroyFunc)
    (fun m op m' hm hp hs => (hm.step hp hs).1) hpos h).base
  have hpq : p ≠ q := by
    rintro rfl
    exact hname (congrArg Resource.name (Option.some.inj (hr.symm.trans hr')))
  exact ⟨not_reloadsBoth hpq r.nfd, not_keepsOther hb hi hr hwatched q,
    hnfd ▸ not_keepsOther hb hj hr' (hnfd ▸ hwatched) p⟩

/-- Two names of one file, both watched, and a third file. -/
def twoNames : List WatchOp :=
  [.add "a" 0 {}, .add "./a" 0 {}, .add "b" 0 {}, .start 2 { watch := some 7 },
    .start 0 { watch := some 1 }, .start 1 { watch := some 1 }]

theorem not_servesBoth_twoNames :
    let rman := (exec watchStep (.init true true) twoNames).get (by decide +kernel)
    ¬ ReloadsBoth rman 0 1 1 ∧ ¬ KeepsOther rman 0 1 1 ∧ ¬ KeepsOther rman 1 0 1 := by
  have h := (Option.some_get (by decide +kernel : (exec watchStep (.init true true)
    twoNames).isSome)).symm
  exact not_servesBoth (by decide +kernel) h (i := 0) (j := 1) (by decide +kernel)
    (by decide +kernel)
    (by decide +kernel : _ = some (⟨0, "a", 0, 0, true, false, false, 0, 0, 1⟩ : Resource))
    (by decide +kernel : _ = some (⟨1, "./a", 0, 0, true, false, false, 0, 0, 1⟩ : Resource))
    (by decide) rfl (by decide)

/-- The two names are not both served. -/
theorem not_all_servesBoth_twoNames :
    ¬ ∀ doneFunc destroyFunc ops rman,
      Along watchStep PositiveWatch (.init doneFunc destroyFunc) ops →
      exec watchStep (.init doneFunc destroyFunc) ops = some rman → ∀ i j p q r r',
      rman.res[i]? = some (some p) → rman.res[j]? = some (some q) → rman.heap p = some r →
      rman.heap q = some r' → r.name ≠ r'.name → r.nfd = r'.nfd → 0 < r.nfd.toInt →
      ReloadsBoth rman p q r.nfd ∧ KeepsOther rman i q r.nfd ∧ KeepsOther rman j p r.nfd := by
  intro hall
  have h := (Option.some_get (by decide +kernel : (exec watchStep (.init true true)
    twoNames).isSome)).symm
  have hgood := hall true true twoNames _ (by decide +kernel) h 0 1 0 1
    ⟨0, "a", 0, 0, true, false, false, 0, 0, 1⟩ ⟨1, "./a", 0, 0, true, false, false, 0, 0, 1⟩
    (by decide +kernel) (by decide +kernel) (by decide +kernel) (by decide +kernel) (by decide) rfl
    (by decide)
  exact not_reloadsBoth (by decide) 1 hgood.1

end Resman.Manager
