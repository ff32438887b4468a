import Resman.Lib.Registry
import Resman.Manager.Steps
import Resman.RbTree.IntKeys

/-!
# The watches of a manager

`WatchOp` lists what acts on the watches of one manager: its resources come and go, watches are
started and stopped, inotify events are handled, and the modified set is processed. `watchStep` runs
the functions of the manager for it, so a run is any sequence of such calls and of event batches, of
any length and order.

`registry` is the view that matters: which resource `nresmap` holds under a descriptor, and the
field `nfd` of every live resource. `watchStep_refines` says that on this view an operation is a
step of a registry whose items know their key, where a descriptor is active if it is positive;
`WatchBase` is what the tree and the heap keep for it.
-/

namespace Resman.Manager

open Lib Rb FileWatch

/-! ## Operations -/

/-- `resman_reload`, with the job that it enqueues left out. -/
def reload (rman : Rman) (p : ResPtr) : Option Rman :=
  (allocTask rman).1.update p fun r => { r with pending := true }

/-- `resman_add` -/
def resmanAdd (rman : Rman) (fname : String) (data : Nat) (mem : AddMem) : Option Rman := do
  let idx ← findResource rman fname
  if idx ≠ -1 then return rman
  match ← addResource rman fname data mem with
  | (rman, none) => return rman
  | (rman, some p) => reload rman p

/-- `remove_resource` -/
def removeResource (rman : Rman) (idx : Nat) : Option Rman := do
  let p ← (← rman.res[idx]?)
  let rman ← stopWatch rman p
  freeResource (callDestroy rman idx) idx p

/-- The end of `resman_check_watch`: the rest of the loop over the modified set,
which is then cleared. -/
def reloadAll (rman : Rman) : List (BitVec 32) → Option Rman
  | [] => some { rman with modset := rbClear rman.modset }
  | wd :: wds => do
    match ← reloadModified rman wd wds with
    | .reloadTask p _ => reloadAll (← reload rman p) wds
    | _ => reloadAll rman wds

/-- A step for the watches; an event batch is a number of `event` steps and then `reloads`. -/
inductive WatchOp where
  | add (fname : String) (data : Nat) (mem : AddMem)
  | remove (idx : Nat)
  | start (p : ResPtr) (o : Oracle)
  | stop (p : ResPtr)
  | event (msec : Nat) (ev : InotifyEvent) (o : Oracle)
  | reloads

def watchStep (rman : Rman) : WatchOp → Option Rman
  | .add fname data mem => resmanAdd rman fname data mem
  | .remove idx => removeResource rman idx
  | .start p o => (startWatch rman p o).map Prod.fst
  | .stop p => stopWatch rman p
  | .event msec ev o => handleEvent rman msec ev o
  | .reloads => reloadAll rman (modifiedKeys rman)

/-- What `inotify_add_watch` returns if the operation calls it. -/
def WatchOp.watch : WatchOp → Option (BitVec 32)
  | start _ o | event _ _ o => o.watch
  | add .. | remove _ | stop _ | reloads => none

/-- Watch descriptors are numbered from 1. -/
def PositiveWatch (_ : Rman) (op : WatchOp) : Prop := ∀ fd ∈ op.watch, 0 < fd.toInt

instance (rman : Rman) (op : WatchOp) : Decidable (PositiveWatch rman op) :=
  Option.decidableForallMem (p := fun fd : BitVec 32 => 0 < fd.toInt) op.watch

/-! ## The registry -/

def registry (rman : Rman) : Registry (BitVec 32) ResPtr where
  slot := rbFindi rman.nresmap
  key p := (rman.heap p).map Resource.nfd

/-- `nfd > 0`: the resource is watched. -/
abbrev Watched (fd : BitVec 32) : Prop := 0 < fd.toInt

/-- The registry's step that an operation is. -/
def regOp (rman : Rman) : WatchOp → RegOp (BitVec 32) ResPtr
  | .add fname _ mem =>
    if findResource rman fname = some (-1) ∧ mem.res then .enter rman.nalloc 0 else .skip
  | .remove idx =>
    match rman.res[idx]? with
    | some (some p) => .drop p
    | _ => .skip
  | .start p o => .start p o.watch
  | .stop p => .stop p
  | .event _ ev o => if ev.has inIgnored then .renew ev.wd o.watch else .skip
  | .reloads => .skip

structure WatchBase (rman : Rman) : Prop where
  tree : IntTree rman.nresmap
  full : Full rman.nresmap
  fresh : ∀ p, rman.nalloc ≤ p → rman.heap p = none ∧ ∀ wd, rbFindi rman.nresmap wd ≠ some p

theorem WatchBase.init (doneFunc destroyFunc : Bool) : WatchBase (.init doneFunc destroyFunc) where
  tree := .create
  full _ := not_entry_create
  fresh _ _ := ⟨rfl, fun _ h => by cases h⟩

section Refines

variable {rman rman' : Rman} {p : ResPtr} {o : Oracle}

theorem WatchBase.lt (hb : WatchBase rman) {r : Resource} (hr : rman.heap p = some r) :
    p < rman.nalloc := by
  by_contra hp
  rw [(hb.fresh p (Nat.not_lt.1 hp)).1] at hr
  cases hr

/-! ## Changes that do not concern the watches -/

/-- The map and the descriptors of the resources are the same. -/
structure SameWatches (rman rman' : Rman) : Prop where
  nresmap : rman'.nresmap = rman.nresmap
  nalloc : rman'.nalloc = rman.nalloc
  nfd : ∀ q, (rman'.heap q).map Resource.nfd = (rman.heap q).map Resource.nfd

theorem SameWatches.refl (rman : Rman) : SameWatches rman rman := ⟨rfl, rfl, fun _ => rfl⟩

theorem SameWatches.trans {rman₁ rman₂ rman₃ : Rman} (h : SameWatches rman₁ rman₂)
    (h' : SameWatches rman₂ rman₃) : SameWatches rman₁ rman₃ :=
  ⟨h'.nresmap.trans h.nresmap, h'.nalloc.trans h.nalloc, fun q => (h'.nfd q).trans (h.nfd q)⟩

theorem SameWatches.registry (h : SameWatches rman rman') : registry rman' = registry rman := by
  rw [Manager.registry, Manager.registry, h.nresmap, funext h.nfd]

theorem SameWatches.base (h : SameWatches rman rman') (hb : WatchBase rman) : WatchBase rman' where
  tree := h.nresmap ▸ hb.tree
  full := h.nresmap ▸ hb.full
  fresh q hq := by
    obtain ⟨hnone, hslot⟩ := hb.fresh q (h.nalloc ▸ hq)
    have hnfd := h.nfd q
    rw [hnone] at hnfd
    exact ⟨Option.map_eq_none_iff.1 hnfd, h.nresmap ▸ hslot⟩

theorem sameWatches_update {f : Resource → Resource} (h : rman.update p f = some rman')
    (hf : ∀ r, (f r).nfd = r.nfd) : SameWatches rman rman' := by
  have hmap := map_heap_of_update h hf
  obtain ⟨r, -, rfl⟩ := heap_of_update h
  exact ⟨rfl, rfl, hmap⟩

theorem sameWatches_reload (h : reload rman p = some rman') : SameWatches rman rman' := by
  refine SameWatches.trans ?_ (sameWatches_update h fun _ => rfl)
  unfold allocTask
  split
  · exact ⟨rfl, rfl, fun _ => rfl⟩
  · exact ⟨rfl, rfl, fun _ => rfl⟩

theorem sameWatches_reloadAll {wds : List (BitVec 32)} (h : reloadAll rman wds = some rman') :
    SameWatches rman rman' := by
  induction wds generalizing rman with
  | nil =>
    obtain rfl := Option.some.inj h
    exact ⟨rfl, rfl, fun _ => rfl⟩
  | cons wd wds ih =>
    simp only [reloadAll, Option.bind_eq_bind, Option.bind_eq_some_iff] at h
    obtain ⟨pc, -, h⟩ := h
    split at h
    · obtain ⟨rman₁, hreload, h⟩ := Option.bind_eq_some_iff.1 h
      exact (sameWatches_reload hreload).trans (ih h)
    · exact ih h

theorem sameWatches_onModify {msec : Nat} {wd : BitVec 32}
    (h : onModify rman msec wd = some rman') : SameWatches rman rman' := by
  unfold onModify at h
  split at h
  · exact Option.some.inj h ▸ .refl _
  · exact sameWatches_update h fun _ => rfl

theorem sameWatches_onCloseWrite {wd : BitVec 32} (h : onCloseWrite rman wd o = some rman') :
    SameWatches rman rman' := by
  unfold onCloseWrite at h
  split at h
  · exact Option.some.inj h ▸ .refl _
  · obtain ⟨modset, -, h⟩ := Option.bind_eq_some_iff.1 h
    have hset : SameWatches rman { rman with modset } := ⟨rfl, rfl, fun _ => rfl⟩
    exact hset.trans (sameWatches_update h fun _ => rfl)

/-! ## Changes that do -/

/-- A descriptor is stored for the resource, in the map and in the resource. -/
theorem registry_link (hb : WatchBase rman) {r : Resource} (hr : rman.heap p = some r)
    {nresmap : RbTree (BitVec 64) ResPtr} {a : Rb.Addr} {fd : BitVec 32} (hfd : Watched fd)
    (hins : rbInserti rman.nresmap (some a) fd (some p) = some nresmap)
    (h : ({ rman with nresmap }.update p fun r => { r with nfd := fd }) = some rman') :
    WatchBase rman' ∧ registry rman' = (registry rman).link p fd := by
  obtain ⟨htree, hfull, hfind⟩ := rbFindi_rbInserti hb.tree hb.full (Int.le_of_lt hfd) hins
  obtain ⟨r', hr', rfl⟩ := heap_of_update h
  obtain rfl : r = r' := Option.some.inj (hr.symm.trans hr')
  refine ⟨⟨htree, hfull, fun q hq => ?_⟩, ?_⟩
  · have hqp : q ≠ p := fun he => Nat.not_le.2 (hb.lt hr) (he ▸ hq)
    obtain ⟨hnone, hslot⟩ := hb.fresh q hq
    refine ⟨(Function.update_of_ne hqp ..).trans hnone, fun wd hwd => ?_⟩
    rw [hfind] at hwd
    rcases update_eq_some.1 hwd with ⟨-, heq⟩ | ⟨-, hwd⟩
    · exact hqp (Option.some.inj heq).symm
    · exact hslot wd hwd
  · rw [registry, Registry.link, hfind]
    congr 1
    funext q
    by_cases hq : q = p
    · subst hq
      simp
    · simp [registry, hq]

/-- `startWatch` starts the registration of a live resource. -/
theorem registry_startWatch (hb : WatchBase rman) (hpos : ∀ fd ∈ o.watch, Watched fd) {ok : Bool}
    (h : startWatch rman p o = some (rman', ok)) :
    WatchBase rman' ∧ registry rman' = (registry rman).start Watched p o.watch := by
  obtain ⟨r, hr, hcases⟩ := startWatch_cases h
  have hkey : (registry rman).key p = some r.nfd := by simp [registry, hr]
  rcases hcases with ⟨hnfd, rfl, -⟩ | ⟨-, hw, rfl, -⟩ | ⟨fd, nresmap, hnfd, hw, hins, hup, -⟩
  · exact ⟨hb, (Registry.start_of_active hkey hnfd).symm⟩
  · rw [hw]
    exact ⟨hb, Registry.start_none.symm⟩
  · obtain ⟨hb', hreg⟩ := registry_link hb hr (hpos fd hw) hins hup
    rw [hw]
    exact ⟨hb', hreg.trans (Registry.start_of_not_active hkey hnfd).symm⟩

/-- `stopWatch` takes a live resource out and leaves its `nfd`. -/
theorem registry_stopWatch (hb : WatchBase rman) (h : stopWatch rman p = some rman') :
    WatchBase rman' ∧ registry rman' = (registry rman).stop Watched p := by
  obtain ⟨r, hr, hcases⟩ := stopWatch_cases h
  have hkey : (registry rman).key p = some r.nfd := by simp [registry, hr]
  rcases hcases with ⟨hnfd, rfl⟩ | ⟨nresmap, calls, hnfd, hdel, rfl⟩
  · refine ⟨hb, (Registry.stop_of_not_active fun n hn => ?_).symm⟩
    rw [hkey] at hn
    exact Option.some.inj hn ▸ hnfd
  · obtain ⟨htree, hfull, hfind⟩ := rbFindi_rbDeletei hb.tree hb.full (Int.le_of_lt hnfd) hdel
    refine ⟨⟨htree, hfull, fun q hq => ⟨(hb.fresh q hq).1, fun wd hwd => ?_⟩⟩, ?_⟩
    · rw [hfind] at hwd
      exact (hb.fresh q hq).2 wd (update_none_eq_some.1 hwd).2
    · rw [Registry.stop_of_active hkey hnfd, registry, hfind]
      rfl

/-- `IN_IGNORED` renews the registration of the resource under the descriptor. -/
theorem registry_onIgnored (hb : WatchBase rman) (hpos : ∀ fd ∈ o.watch, Watched fd)
    {wd : BitVec 32} (h : onIgnored rman wd o = some rman') :
    WatchBase rman' ∧ registry rman' = (registry rman).renew Watched wd o.watch ∧
      ∀ p, rbFindi rman.nresmap wd = some p → rman.heap p ≠ none := by
  unfold onIgnored at h
  cases hfind : rbFindi rman.nresmap wd with
  | none =>
    rw [hfind] at h
    obtain rfl := Option.some.inj h
    have hslot : (registry rman).slot wd = none := hfind
    exact ⟨hb, (Registry.renew_of_absent hslot).symm, fun p hp => by cases hp⟩
  | some p =>
    simp only [hfind, Option.bind_eq_bind, Option.bind_eq_some_iff] at h
    obtain ⟨r, hr, rman₁, hclear, ⟨rman₂, ok⟩, hstart, h⟩ := h
    have hslot : (registry rman).slot wd = some p := hfind
    have hlive : ∀ q, some p = some q → rman.heap q ≠ none := by
      rintro q hq
      rw [← Option.some.inj hq, hr]
      exact Option.some_ne_none r
    obtain ⟨r₁, hr₁, rfl⟩ := heap_of_update hclear
    obtain rfl : r = r₁ := Option.some.inj (hr.symm.trans hr₁)
    -- the field is zero for the call of `resman_start_watch`
    simp only [startWatch, Function.update_self, Option.bind_eq_bind, Option.bind_some] at hstart
    rw [if_neg (by decide)] at hstart
    cases hw : o.watch with
    | none =>
      rw [hw] at hstart
      obtain ⟨rfl, rfl⟩ := Prod.mk.inj (Option.some.inj hstart)
      simp only [Bool.false_eq_true, if_false] at h
      obtain ⟨rman₃, hback, hstop⟩ := Option.bind_eq_some_iff.1 h
      obtain ⟨r₂, hr₂, rfl⟩ := heap_of_update hback
      simp only [Function.update_self] at hr₂
      obtain rfl := Option.some.inj hr₂
      have hsame : ({ rman with heap := Function.update (Function.update rman.heap p
          (some { r with nfd := 0 })) p (some { r with nfd := r.nfd }) } : Rman) = rman := by
        rw [Function.update_idem, show ({ r with nfd := r.nfd } : Resource) = r from rfl, ← hr,
          Function.update_eq_self]
      rw [hsame] at hstop
      obtain ⟨hb', hreg⟩ := registry_stopWatch hb hstop
      exact ⟨hb', hreg.trans (Registry.renew_none hslot).symm, hlive⟩
    | some fd =>
      simp only [hw, Option.bind_eq_some_iff] at hstart
      obtain ⟨nresmap, hins, rman₃, hup, hstart⟩ := hstart
      obtain ⟨rfl, rfl⟩ := Prod.mk.inj (Option.some.inj hstart)
      obtain ⟨r₃, hr₃, rfl⟩ := heap_of_update hup
      simp only [Function.update_self] at hr₃
      obtain rfl := Option.some.inj hr₃
      simp only [if_true, Option.bind_eq_some_iff] at h
      obtain ⟨r₄, -, modset, -, h⟩ := h
      obtain rfl := Option.some.inj h
      have hlink : ({ rman with nresmap }.update p fun r => { r with nfd := fd }) = some
          { rman with
            nresmap
            heap := Function.update rman.heap p (some { r with nfd := fd }) } := by
        simp [Rman.update, hr]
      obtain ⟨hb', hreg⟩ := registry_link hb hr (hpos fd hw) hins hlink
      have hsame : SameWatches
          { rman with nresmap, heap := Function.update rman.heap p (some { r with nfd := fd }) }
          { rman with
            nresmap
            modset
            heap := Function.update (Function.update rman.heap p (some { r with nfd := 0 })) p
              (some { r with nfd := fd }) } :=
        ⟨rfl, rfl, fun q => by rw [Function.update_idem]⟩
      refine ⟨hsame.base hb', ?_, hlive⟩
      rw [hsame.registry, hreg, Registry.renew_some hslot]

theorem registry_handleEvent (hb : WatchBase rman) (hpos : ∀ fd ∈ o.watch, Watched fd) {msec : Nat}
    {ev : InotifyEvent} (h : handleEvent rman msec ev o = some rman') :
    WatchBase rman' ∧
      registry rman' = (registry rman).step Watched (regOp rman (.event msec ev o)) ∧
      (ev.has inIgnored → ∀ p, rbFindi rman.nresmap ev.wd = some p → rman.heap p ≠ none) := by
  simp only [handleEvent, Option.bind_eq_bind, Option.bind_eq_some_iff] at h
  obtain ⟨rman₁, h₁, rman₂, h₂, h₃⟩ := h
  have hsame : SameWatches rman rman₂ :=
    (ifFlag_rel (SameWatches.refl _) sameWatches_onModify h₁).trans
      (ifFlag_rel (SameWatches.refl _) sameWatches_onCloseWrite h₂)
  have hb₂ := hsame.base hb
  rw [regOp]
  rw [ifFlag] at h₃
  split at h₃
  · next hev =>
    obtain ⟨hb', hreg, hlive⟩ := registry_onIgnored hb₂ hpos h₃
    rw [hsame.registry] at hreg
    refine ⟨hb', by rw [hreg, if_pos hev]; rfl, fun _ p hp hnone => ?_⟩
    have hnfd := hsame.nfd p
    rw [hnone] at hnfd
    exact hlive p (hsame.nresmap ▸ hp) (Option.map_eq_none_iff.1 hnfd)
  · next hev =>
    obtain rfl := Option.some.inj h₃
    exact ⟨hb₂, by rw [hsame.registry, if_neg hev]; rfl, fun hev' => absurd hev' hev⟩

theorem registry_freeResource (hb : WatchBase rman) {i : Nat}
    (h : freeResource rman i p = some rman') :
    WatchBase rman' ∧ registry rman' = (registry rman).forget p := by
  obtain ⟨r, hr, h⟩ := Option.bind_eq_some_iff.1 h
  obtain rfl := Option.some.inj h
  refine ⟨⟨hb.tree, hb.full, fun q hq => ⟨?_, (hb.fresh q hq).2⟩⟩, ?_⟩
  · have hqp : q ≠ p := fun he => Nat.not_le.2 (hb.lt hr) (he ▸ hq)
    exact (Function.update_of_ne hqp ..).trans (hb.fresh q hq).1
  · simp only [registry, Registry.forget]
    congr 1
    funext q
    by_cases hq : q = p
    · subst hq
      simp
    · simp [hq]

theorem registry_appendResource (hb : WatchBase rman) (fname : String) (data : Nat) :
    WatchBase (appendResource rman fname data) ∧
      registry (appendResource rman fname data) = (registry rman).enter rman.nalloc 0 := by
  refine ⟨⟨hb.tree, hb.full, fun q hq => ?_⟩, ?_⟩
  · have hlt : rman.nalloc < q := hq
    rw [appendResource_heap_of_ne hlt.ne']
    exact hb.fresh q hlt.le
  · simp only [registry, Registry.enter]
    congr 1
    funext q
    by_cases hq : q = rman.nalloc
    · subst hq
      simp [appendResource_heap_self, newResource]
    · simp [appendResource_heap_of_ne hq, hq]

theorem sameWatches_callDestroy (i : Nat) : SameWatches rman (callDestroy rman i) := by
  unfold callDestroy
  split
  · exact ⟨rfl, rfl, fun _ => rfl⟩
  · exact .refl _

theorem registry_resmanAdd (hb : WatchBase rman) {fname : String} {data : Nat} {mem : AddMem}
    (h : resmanAdd rman fname data mem = some rman') :
    WatchBase rman' ∧
      registry rman' = (registry rman).step Watched (regOp rman (.add fname data mem)) := by
  simp only [resmanAdd, Option.bind_eq_bind, Option.bind_eq_some_iff] at h
  obtain ⟨idx, hidx, h⟩ := h
  rw [regOp, hidx]
  split at h
  · next hne =>
    obtain rfl := Option.some.inj h
    exact ⟨hb, by rw [if_neg fun hc => hne (Option.some.inj hc.1)]; rfl⟩
  · next heq =>
    obtain ⟨⟨rman₁, new⟩, hadd, h⟩ := Option.bind_eq_some_iff.1 h
    rw [not_not.1 heq]
    cases hmem : mem.res with
    | false =>
      rw [addResource, hmem] at hadd
      obtain ⟨rfl, rfl⟩ := Prod.mk.inj (Option.some.inj hadd)
      obtain rfl := Option.some.inj h
      exact ⟨hb, rfl⟩
    | true =>
      rcases addResource_cases hadd with ⟨rfl, -⟩ | ⟨rfl, rfl, -⟩
      · rw [addResource, hmem, if_pos rfl] at hadd
        split at hadd
        · split at hadd
          · cases (Prod.mk.inj (Option.some.inj hadd)).2
          · cases hadd
        · cases hadd
      · obtain ⟨hb', hreg⟩ := registry_appendResource hb fname data
        have hsame := sameWatches_reload h
        exact ⟨hsame.base hb', hsame.registry.trans hreg⟩

theorem registry_removeResource (hb : WatchBase rman) {idx : Nat}
    (h : removeResource rman idx = some rman') :
    WatchBase rman' ∧ registry rman' = (registry rman).step Watched (regOp rman (.remove idx)) := by
  simp only [removeResource, Option.bind_eq_bind, Option.bind_eq_some_iff] at h
  obtain ⟨slot, hslot, p, rfl, rman₁, hstop, hfree⟩ := h
  obtain ⟨hb₁, hreg₁⟩ := registry_stopWatch hb hstop
  have hsame : SameWatches rman₁ (callDestroy rman₁ idx) := sameWatches_callDestroy idx
  obtain ⟨hb', hreg'⟩ := registry_freeResource (hsame.base hb₁) hfree
  exact ⟨hb', by rw [hreg', hsame.registry, hreg₁, regOp, hslot]; rfl⟩

/-- **The watches of a manager are a registry**: an operation does to the map and to the fields
`nfd` what the step of the registry does. -/
theorem watchStep_refines {op : WatchOp} (hb : WatchBase rman) (hpos : PositiveWatch rman op)
    (h : watchStep rman op = some rman') :
    WatchBase rman' ∧ registry rman' = (registry rman).step Watched (regOp rman op) := by
  cases op with
  | add fname data mem => exact registry_resmanAdd hb h
  | remove idx => exact registry_removeResource hb h
  | start p o =>
    obtain ⟨⟨rman₁, ok⟩, hstart, rfl⟩ := Option.map_eq_some_iff.1 h
    exact registry_startWatch hb hpos hstart
  | stop p => exact registry_stopWatch hb h
  | event msec ev o =>
    obtain ⟨hb', hreg, -⟩ := registry_handleEvent hb hpos h
    exact ⟨hb', hreg⟩
  | reloads =>
    have hsame := sameWatches_reloadAll h
    exact ⟨hsame.base hb, hsame.registry⟩

/-- What the registry asks of its steps. -/
theorem regOp_fair {op : WatchOp} (hb : WatchBase rman) (hpos : PositiveWatch rman op) :
    (registry rman).Fair Watched (regOp rman op) := by
  cases op with
  | add fname data mem =>
    rw [regOp]
    split
    · obtain ⟨hnone, hslot⟩ := hb.fresh rman.nalloc (Nat.le_refl _)
      exact ⟨by simp [registry, hnone], hslot, by decide⟩
    · trivial
  | remove idx =>
    rw [regOp]
    split <;> trivial
  | start p o => exact fun fd hfd => hpos fd hfd
  | stop p => trivial
  | event msec ev o =>
    rw [regOp]
    split
    · exact fun fd hfd => hpos fd hfd
    · trivial
  | reloads => trivial

end Refines

end Resman.Manager
