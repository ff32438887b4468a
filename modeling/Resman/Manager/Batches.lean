import Resman.Manager.FileEvents
import Resman.Manager.Watches

/-!
# Events are handled in batches

The loop of `resman_check_watch` over the events puts the descriptors that it has to reload into a
set, and the set is worked off when there are no more events. `coalesced_of_run` is what comes of it
in every run of workers and managers: however many events there are for a file and in whatever
order, a call reloads each descriptor once at most, in increasing order and only for an event of
this call, and the loop over the set leaves no descriptor out.
-/

namespace Resman.Manager

open Lib Rb FileWatch

/-! ## The notes of one call -/

/-- The descriptor that the note puts into the modified set. -/
def FileNote.mark? : FileNote → Option (BitVec 32)
  | closed _ wd | renewed _ wd => some wd
  | opened _ | modified _ _ | reloaded _ _ | missed _ | delayed _ _ => none

/-- The descriptor that the note takes from the modified set. -/
def FileNote.visit? : FileNote → Option (BitVec 32)
  | reloaded _ wd | missed wd => some wd
  | opened _ | modified _ _ | closed _ _ | renewed _ _ | delayed _ _ => none

def FileNote.opens : FileNote → Bool
  | opened _ => true
  | modified _ _ | closed _ _ | renewed _ _ | reloaded _ _ | missed _ | delayed _ _ => false

/-- The notes since the last call of `resman_check_watch` began. -/
def sinceOpened (es : List FileNote) : List FileNote := es.takeWhile fun n => !n.opens

/-- The descriptors that events of this call have put into the modified set. -/
def marked (es : List FileNote) : List (BitVec 32) := (sinceOpened es).filterMap FileNote.mark?

/-- The descriptors that the loop over the modified set has come to, newest first. -/
def visited (es : List FileNote) : List (BitVec 32) := (sinceOpened es).filterMap FileNote.visit?

section Notes

variable {fs es : List FileNote}

theorem sinceOpened_append (h : ∀ n ∈ fs, n.opens = false) :
    sinceOpened (fs ++ es) = fs ++ sinceOpened es := by
  apply List.takeWhile_append_of_pos
  intro n hn
  rw [h n hn]
  rfl

theorem marked_append (h : ∀ n ∈ fs, n.opens = false) :
    marked (fs ++ es) = fs.filterMap FileNote.mark? ++ marked es := by
  rw [marked, sinceOpened_append h, List.filterMap_append]
  rfl

theorem visited_append (h : ∀ n ∈ fs, n.opens = false) :
    visited (fs ++ es) = fs.filterMap FileNote.visit? ++ visited es := by
  rw [visited, sinceOpened_append h, List.filterMap_append]
  rfl

end Notes

/-! ## The modified set -/

/-- The descriptor is in the modified set. -/
def InSet (rman : Rman) (wd : BitVec 32) : Prop := ∃ d, Entry rman.modset wd d

/-- Watch descriptors are numbered from 1. -/
def PositiveAnswer : Action → Prop
  | .client _ o | .worker _ o => ∀ fd ∈ o.watch, Watched fd
  | .create .. | .call .. => True

instance : ∀ a, Decidable (PositiveAnswer a)
  | .client _ o | .worker _ o =>
    Option.decidableForallMem (p := fun fd : BitVec 32 => 0 < fd.toInt) o.watch
  | .create .. | .call .. => isTrue trivial

section Sets

variable {rman rman₁ rman' : Rman} {pc pc' : Pc} {p : ResPtr} {o : Oracle} {msec : Nat}
  {ev : InotifyEvent} {wd : BitVec 32}

theorem intTree_clear {V : Type} {rb : RbTree (BitVec 64) V} (h : IntTree rb) :
    IntTree (rbClear rb) where
  cmp := h.cmp
  nonneg k hk := by cases hk
  wf := WF.create cmpkey_strictTotal rb.del

theorem not_inSet_clear : ¬ InSet { rman with modset := rbClear rman.modset } wd := by
  rintro ⟨d, hd⟩
  cases hd

theorem startWatch_modset {ok : Bool} (h : startWatch rman p o = some (rman', ok)) :
    rman'.modset = rman.modset := by
  obtain ⟨r, -, ⟨-, rfl, -⟩ | ⟨-, -, rfl, -⟩ | ⟨fd, nresmap, -, -, -, hup, -⟩⟩ := startWatch_cases h
  · rfl
  · rfl
  · obtain ⟨r', -, rfl⟩ := heap_of_update hup
    rfl

theorem stopWatch_modset (h : stopWatch rman p = some rman') : rman'.modset = rman.modset := by
  obtain ⟨r, -, ⟨-, rfl⟩ | ⟨nresmap, calls, -, -, rfl⟩⟩ := stopWatch_cases h
  · rfl
  · rfl

theorem update_modset {f : Resource → Resource} (h : rman.update p f = some rman') :
    rman'.modset = rman.modset := by
  obtain ⟨r, -, rfl⟩ := heap_of_update h
  rfl

/-- A descriptor is put into the set. -/
theorem insert_modset {modset : RbTree (BitVec 64) Unit} {a : Rb.Addr} {fd : BitVec 32}
    (hset : IntTree rman.modset) (hfd : 0 ≤ fd.toInt)
    (h : rbInserti rman.modset (some a) fd none = some modset) (heq : rman'.modset = modset) :
    IntTree rman'.modset ∧ ∀ wd, InSet rman' wd ↔ wd = fd ∨ InSet rman wd := by
  obtain ⟨modset', hins, htree, hentry⟩ := rbInserti_spec hset hfd a (none : Option Unit)
  obtain rfl := Option.some.inj (hins.symm.trans h)
  rw [heq]
  refine ⟨htree, fun wd => ?_⟩
  rw [InSet, heq, InSet]
  constructor
  · rintro ⟨d, hd⟩
    rcases (hentry wd d).1 hd with ⟨rfl, -⟩ | ⟨-, hold⟩
    · exact .inl rfl
    · exact .inr ⟨d, hold⟩
  · intro hwd
    by_cases hfd : wd = fd
    · exact ⟨none, (hentry wd none).2 (.inl ⟨hfd, rfl⟩)⟩
    · obtain ⟨d, hd⟩ := hwd.resolve_left hfd
      exact ⟨d, (hentry wd d).2 (.inr ⟨hfd, hd⟩)⟩

theorem onModify_modset (h : onModify rman msec wd = some rman') : rman'.modset = rman.modset := by
  unfold onModify at h
  split at h
  · rw [Option.some.inj h]
  · exact update_modset h

theorem onCloseWrite_modset (hb : WatchBase rman) (hset : IntTree rman.modset)
    (h : onCloseWrite rman wd o = some rman') :
    IntTree rman'.modset ∧
      ∀ x, InSet rman' x ↔ ((∃ q, rbFindi rman.nresmap wd = some q) ∧ x = wd) ∨ InSet rman x := by
  unfold onCloseWrite at h
  split at h
  · next hnone =>
    obtain rfl := Option.some.inj h
    simp [hnone, hset]
  · next q hsome =>
    obtain ⟨modset, hins, h⟩ := Option.bind_eq_some_iff.1 h
    have hnonneg : 0 ≤ wd.toInt := ((rbFindi_eq_some hb.tree).1 hsome).nonneg hb.tree
    simpa [hsome] using insert_modset hset hnonneg hins (update_modset h)

/-- The descriptor of a watch that was started again is put into the set. -/
theorem onIgnored_modset (hpos : ∀ fd ∈ o.watch, Watched fd) (hset : IntTree rman.modset)
    (h : onIgnored rman wd o = some rman') :
    IntTree rman'.modset ∧
      ∀ x, InSet rman' x ↔ ((∃ q, rbFindi rman.nresmap wd = some q) ∧ o.watch = some x) ∨
        InSet rman x := by
  unfold onIgnored at h
  split at h
  · next hnone =>
    obtain rfl := Option.some.inj h
    simp [hnone, hset]
  · next q hsome =>
    simp only [Option.bind_eq_bind, Option.bind_eq_some_iff] at h
    obtain ⟨r, hr, rman₁, hclear, ⟨rman₂, ok⟩, hstart, h⟩ := h
    have hsame : rman₂.modset = rman.modset :=
      (startWatch_modset hstart).trans (update_modset hclear)
    obtain ⟨r₁, hr₁, rfl⟩ := heap_of_update hclear
    -- the field is zero for the call of `resman_start_watch`
    simp only [startWatch, Function.update_self, Option.bind_eq_bind, Option.bind_some] at hstart
    rw [if_neg (by decide)] at hstart
    cases hw : o.watch with
    | none =>
      rw [hw] at hstart
      obtain ⟨rfl, rfl⟩ := Prod.mk.inj (Option.some.inj hstart)
      simp only [Bool.false_eq_true, if_false] at h
      obtain ⟨rman₃, hback, hstop⟩ := Option.bind_eq_some_iff.1 h
      have heq : rman'.modset = rman.modset :=
        (stopWatch_modset hstop).trans ((update_modset hback).trans hsame)
      simp [InSet, heq, hset]
    | some fd =>
      simp only [hw, Option.bind_eq_some_iff] at hstart
      obtain ⟨nresmap, -, rman₃, hup, hstart⟩ := hstart
      obtain ⟨rfl, rfl⟩ := Prod.mk.inj (Option.some.inj hstart)
      obtain ⟨r₃, -, rfl⟩ := heap_of_update hup
      simp only [if_true, Option.bind_eq_some_iff, Function.update_self] at h
      obtain ⟨r₄, hr₄, modset, hins, h⟩ := h
      obtain rfl := Option.some.inj hr₄
      have heq : rman'.modset = modset := by rw [← Option.some.inj h]
      obtain ⟨htree, hmem⟩ := insert_modset hset (Int.le_of_lt (hpos fd hw)) hins heq
      refine ⟨htree, fun x => ?_⟩
      rw [Option.some_inj, eq_comm (a := fd)]
      simpa [hsome] using hmem x

/-- **What an event does to the modified set**: it puts in the descriptors that its notes mark. -/
theorem handleEvent_modset (hb : WatchBase rman) (hpos : ∀ fd ∈ o.watch, Watched fd)
    (hset : IntTree rman.modset) (h : handleEvent rman msec ev o = some rman') :
    IntTree rman'.modset ∧
      ∀ x, InSet rman' x ↔ x ∈ (eventNotes rman msec ev o).filterMap FileNote.mark? ∨
        InSet rman x := by
  simp only [handleEvent, Option.bind_eq_bind, Option.bind_eq_some_iff] at h
  obtain ⟨rman₁, h₁, rman₂, h₂, h₃⟩ := h
  have hsame₁ : SameWatches rman rman₁ := ifFlag_rel (SameWatches.refl _) sameWatches_onModify h₁
  have hmod₁ : rman₁.modset = rman.modset := by
    rw [ifFlag] at h₁
    split at h₁
    · exact onModify_modset h₁
    · rw [Option.some.inj h₁]
  have hsame₂ : SameWatches rman₁ rman₂ :=
    ifFlag_rel (SameWatches.refl _) sameWatches_onCloseWrite h₂
  have hclose : IntTree rman₂.modset ∧ ∀ x, InSet rman₂ x ↔
      (ev.has inCloseWrite = true ∧ (∃ q, rbFindi rman.nresmap ev.wd = some q) ∧ x = ev.wd) ∨
      InSet rman x := by
    have hset₁ : IntTree rman₁.modset := hmod₁ ▸ hset
    have hin : ∀ x, InSet rman₁ x ↔ InSet rman x := fun x => by rw [InSet, hmod₁, InSet]
    rw [ifFlag] at h₂
    split at h₂
    · next hflag =>
      obtain ⟨htree, hmem⟩ := onCloseWrite_modset (hsame₁.base hb) hset₁ h₂
      refine ⟨htree, fun x => ?_⟩
      rw [hmem, hin, hsame₁.nresmap]
      simp [hflag]
    · next hflag =>
      obtain rfl := Option.some.inj h₂
      simpa [hflag, hset₁] using hin
  have hignore : IntTree rman'.modset ∧ ∀ x, InSet rman' x ↔
      (ev.has inIgnored = true ∧ (∃ q, rbFindi rman.nresmap ev.wd = some q) ∧ o.watch = some x) ∨
      InSet rman₂ x := by
    rw [ifFlag] at h₃
    split at h₃
    · next hflag =>
      obtain ⟨htree, hmem⟩ := onIgnored_modset hpos hclose.1 h₃
      refine ⟨htree, fun x => ?_⟩
      rw [hmem, hsame₂.nresmap, hsame₁.nresmap]
      simp [hflag]
    · next hflag =>
      obtain rfl := Option.some.inj h₃
      simpa [hflag] using hclose.1
  refine ⟨hignore.1, fun x => ?_⟩
  rw [hignore.2, hclose.2, List.mem_filterMap, ← or_assoc]
  refine or_congr_left ⟨?_, ?_⟩
  · rintro (⟨hflag, ⟨q, hq⟩, hx⟩ | ⟨hflag, ⟨q, hq⟩, rfl⟩)
    · exact ⟨.renewed q x, mem_eventNotes.2 ⟨q, hq, .inl ⟨hflag, x, hx, rfl⟩⟩, rfl⟩
    · exact ⟨.closed q ev.wd, mem_eventNotes.2 ⟨q, hq, .inr (.inl ⟨hflag, rfl⟩)⟩, rfl⟩
  · rintro ⟨n, hn, hmark⟩
    obtain ⟨q, hq, ⟨hflag, fd, hfd, rfl⟩ | ⟨hflag, rfl⟩ | ⟨-, rfl⟩⟩ := mem_eventNotes.1 hn
    · obtain rfl := Option.some.inj hmark
      exact .inl ⟨hflag, ⟨q, hq⟩, hfd⟩
    · obtain rfl := Option.some.inj hmark
      exact .inr ⟨hflag, ⟨q, hq⟩, rfl⟩
    · cases hmark

/-- The loop over the modified set comes to its descriptors in increasing order. -/
theorem modifiedKeys_spec (hset : IntTree rman.modset) :
    (modifiedKeys rman).Pairwise (fun x y => x.toInt < y.toInt) ∧
      ∀ x, x ∈ modifiedKeys rman ↔ InSet rman x := by
  have hkey : ∀ e ∈ traverse rman.modset.root, ∃ x : BitVec 32, 0 ≤ x.toInt ∧ e.1 = int2ptr x := by
    intro e he
    exact hset.nonneg e.1 (Rb.mem_keys.2 ⟨e.2, he⟩)
  constructor
  · rw [modifiedKeys, rbForeach, List.pairwise_map]
    refine hset.wf.sorted.imp_of_mem fun {e e'} he he' hlt => ?_
    obtain ⟨x, hx, heq⟩ := hkey e he
    obtain ⟨x', hx', heq'⟩ := hkey e' he'
    have hkeys : cmpkey (int2ptr x) (int2ptr x') < 0 := heq ▸ heq' ▸ hlt
    rw [cmpkey, toNat_int2ptr hx, toNat_int2ptr hx'] at hkeys
    rw [heq, heq', ptr2int_int2ptr, ptr2int_int2ptr]
    omega
  · intro x
    rw [modifiedKeys, rbForeach, List.mem_map]
    constructor
    · rintro ⟨e, he, rfl⟩
      obtain ⟨x, -, heq⟩ := hkey e he
      refine ⟨e.2, ?_⟩
      rw [heq, ptr2int_int2ptr, Entry, ← heq]
      exact he
    · rintro ⟨d, hd⟩
      exact ⟨_, hd, ptr2int_int2ptr x⟩

/-! ## Steps that keep the modified set -/

theorem Change.modset (h : Change rman o pc rman') : rman'.modset = rman.modset := by
  cases h with
  | none | tasks | free => rfl
  | destroy =>
    unfold callDestroy
    split <;> rfl
  | write hup | cancel _ hup => exact update_modset hup
  | start hup _ hstart => exact (startWatch_modset hstart).trans (update_modset hup)
  | stop hstop => exact stopWatch_modset hstop

/-- The watches stay in order. -/
theorem Change.base (h : Change rman o pc rman') (hb : WatchBase rman)
    (hpos : ∀ fd ∈ o.watch, Watched fd) :
    WatchBase rman' := by
  cases h with
  | none => exact hb
  | tasks => exact ⟨hb.tree, hb.full, hb.fresh⟩
  | destroy => exact (sameWatches_callDestroy _).base hb
  | write hup hf => exact (sameWatches_update hup fun r => (hf r).1).base hb
  | cancel _ hup => exact (sameWatches_update hup fun _ => rfl).base hb
  | start hup hf hstart =>
    exact (registry_startWatch ((sameWatches_update hup fun r => (hf r).1).base hb) hpos hstart).1
  | stop hstop => exact (registry_stopWatch hb hstop).1
  | @free q r _ hr =>
    refine ⟨hb.tree, hb.full, fun p hp => ⟨?_, (hb.fresh p hp).2⟩⟩
    have hne : p ≠ q := fun heq => Nat.not_le.2 (hb.lt hr) (heq ▸ hp)
    exact (Function.update_of_ne hne ..).trans (hb.fresh p hp).1

end Sets

/-! ## The guarantee -/

/-- What is left to do of the modified set, by a reload that goes on there. -/
def Cont.rest? : Cont → Option (List (BitVec 32))
  | modset wds => some wds
  | add | del _ | done _ _ => none

/-- The descriptors that the loop over the modified set has still to come to. -/
def Pc.rest? : Pc → Option (List (BitVec 32))
  | modset wds => some wds
  | reloadTask _ k | reloadFlag _ _ k | reloadEnq _ _ k | rmStop _ _ k | rmCall _ _ k
  | rmFree _ _ k => k.rest?
  | _ => none

/-- The time of the call, in the loop over the events. -/
def Pc.watch? : Pc → Option Nat
  | watch msec => some msec
  | _ => none

/-- A manager and the notes of its file monitor: its trees, and what the modified set holds before,
in and after the two loops of `resman_check_watch`. -/
structure Batched (c : Client) (es : List FileNote) : Prop where
  base : WatchBase c.rman
  set : IntTree c.rman.modset
  outside : (∀ msec, c.pc ≠ .watch msec) → c.pc.rest? = none → ∀ wd, ¬ InSet c.rman wd
  collect : ∀ msec, c.pc = .watch msec → visited es = [] ∧ ∀ wd, InSet c.rman wd ↔ wd ∈ marked es
  workOff : ∀ wds, c.pc.rest? = some wds →
    (visited es).reverse ++ wds = modifiedKeys c.rman ∧ ∀ wd, InSet c.rman wd ↔ wd ∈ marked es
  increasing : (visited es).Pairwise fun x y => y.toInt < x.toInt
  justified : ∀ wd ∈ visited es, wd ∈ marked es

section Batch

variable {rman rman' : Rman} {pc pc' : Pc} {o : Oracle} {es : List FileNote}
  {m : MgrPtr} {a : Action} {c c' : Client} {ns : List Note} {msec : Nat}

@[simp] theorem Cont.rest?_resume (k : Cont) : k.resume.rest? = k.rest? := by cases k <;> rfl

@[simp] theorem Cont.watch?_resume (k : Cont) : k.resume.watch? = none := by cases k <;> rfl

theorem Pc.watch?_eq_some : pc.watch? = some msec ↔ pc = .watch msec := by
  cases pc <;> simp [Pc.watch?]

theorem Pc.ne_watch (h : pc.watch? = none) : pc ≠ .watch msec := by
  rintro rfl
  cases h

theorem Batched.init (d f : Bool) : Batched ⟨.init d f, .idle⟩ [] where
  base := .init d f
  set := .create
  outside _ _ wd hwd := by
    obtain ⟨d, hd⟩ := hwd
    cases hd
  collect msec h := by cases h
  workOff wds h := by cases h
  increasing := .nil
  justified _ h := by cases h

/-- A step outside of the two loops, or inside of a reload. -/
theorem Batched.pass (hI : Batched ⟨rman, pc⟩ es) (hb : WatchBase rman')
    (hset : rman'.modset = rman.modset) (hrest : pc'.rest? = pc.rest?)
    (hwatch : pc'.watch? = pc.watch?) : Batched ⟨rman', pc'⟩ es := by
  have hsame : ∀ msec, pc' = .watch msec ↔ pc = .watch msec := by
    intro msec
    rw [← Pc.watch?_eq_some, hwatch, Pc.watch?_eq_some]
  have hin : ∀ wd, InSet rman' wd ↔ InSet rman wd := fun wd => by rw [InSet, hset, InSet]
  have hkeys : modifiedKeys rman' = modifiedKeys rman := by rw [modifiedKeys, hset, modifiedKeys]
  refine ⟨hb, hset ▸ hI.set, ?_, ?_, ?_, hI.increasing, hI.justified⟩
  · intro hne hnone wd hwd
    exact hI.outside (fun msec heq => hne msec ((hsame msec).2 heq)) (hrest ▸ hnone) wd
      ((hin wd).1 hwd)
  · intro msec heq
    obtain ⟨hvisited, hmem⟩ := hI.collect msec ((hsame msec).1 heq)
    exact ⟨hvisited, fun wd => (hin wd).trans (hmem wd)⟩
  · intro wds heq
    obtain ⟨hsplit, hmem⟩ := hI.workOff wds (hrest ▸ heq)
    exact ⟨hsplit.trans hkeys.symm, fun wd => (hin wd).trans (hmem wd)⟩

/-- A note that is not about the modified set. -/
theorem Batched.unrelated {n : FileNote} (hI : Batched c es) (hvisit : n.visit? = none)
    (hmark : n.mark? = none) (hopen : n.opens = false) : Batched c (n :: es) := by
  have hopens : ∀ x ∈ [n], x.opens = false := by simpa using hopen
  have hvisited : visited (n :: es) = visited es := by
    rw [← List.singleton_append, visited_append hopens, List.filterMap_cons_none hvisit]
    rfl
  have hmarked : marked (n :: es) = marked es := by
    rw [← List.singleton_append, marked_append hopens, List.filterMap_cons_none hmark]
    rfl
  exact ⟨hI.base, hI.set, hI.outside, hvisited ▸ hmarked ▸ hI.collect,
    hvisited ▸ hmarked ▸ hI.workOff, hvisited ▸ hI.increasing, hvisited ▸ hmarked ▸ hI.justified⟩

/-- `resman_check_watch` begins. -/
theorem Batched.opened (hI : Batched ⟨rman, pc⟩ es) (hwatch : pc.watch? = none)
    (hrest : pc.rest? = none) :
    Batched ⟨rman, .watch msec⟩ (.opened msec :: es) where
  base := hI.base
  set := hI.set
  outside h := absurd rfl (h msec)
  collect _ _ := ⟨rfl, fun wd => iff_of_false (hI.outside (fun _ => Pc.ne_watch hwatch) hrest wd)
    List.not_mem_nil⟩
  workOff wds h := by cases h
  increasing := .nil
  justified wd h := by cases h

theorem Batched.event {ev : InotifyEvent} (hI : Batched ⟨rman, .watch msec⟩ es)
    (hpos : ∀ fd ∈ o.watch, Watched fd) (h : handleEvent rman msec ev o = some rman') :
    Batched ⟨rman', .watch msec⟩ (eventNotes rman msec ev o ++ es) := by
  obtain ⟨hset, hin⟩ := handleEvent_modset hI.base hpos hI.set h
  obtain ⟨hvisited, hmem⟩ := hI.collect msec rfl
  have hopens : ∀ n ∈ eventNotes rman msec ev o, n.opens = false := by
    intro n hn
    obtain ⟨q, -, ⟨-, fd, -, rfl⟩ | ⟨-, rfl⟩ | ⟨-, rfl⟩⟩ := mem_eventNotes.1 hn
    all_goals rfl
  have hvisit : (eventNotes rman msec ev o).filterMap FileNote.visit? = [] := by
    rw [List.filterMap_eq_nil_iff]
    intro n hn
    obtain ⟨q, -, ⟨-, fd, -, rfl⟩ | ⟨-, rfl⟩ | ⟨-, rfl⟩⟩ := mem_eventNotes.1 hn
    all_goals rfl
  have hnone : visited (eventNotes rman msec ev o ++ es) = [] := by
    rw [visited_append hopens, hvisit, hvisited]
    rfl
  refine ⟨(registry_handleEvent hI.base hpos h).1, hset, fun hne => absurd rfl (hne msec),
    ?_, nofun, ?_, ?_⟩
  · intro _ _
    refine ⟨hnone, fun wd => ?_⟩
    rw [hin, hmem, marked_append hopens, List.mem_append]
  · rw [hnone]
    exact .nil
  · intro wd hwd
    rw [hnone] at hwd
    cases hwd

/-- The loop over the modified set begins. -/
theorem Batched.collected (hI : Batched ⟨rman, .watch msec⟩ es) :
    Batched ⟨rman, .modset (modifiedKeys rman)⟩ es := by
  obtain ⟨hvisited, hmem⟩ := hI.collect msec rfl
  refine ⟨hI.base, hI.set, fun _ h => (by cases h), nofun, ?_, hI.increasing, hI.justified⟩
  intro wds h
  obtain rfl := Option.some.inj h
  refine ⟨?_, hmem⟩
  rw [hvisited]
  rfl

/-- The loop over the modified set comes to its next descriptor. -/
theorem Batched.visit {n : FileNote} {wd : BitVec 32} {wds : List (BitVec 32)}
    (hI : Batched ⟨rman, .modset (wd :: wds)⟩ es) (hn : n.visit? = some wd) (hmark : n.mark? = none)
    (hopen : n.opens = false) (hrest : pc'.rest? = some wds) (hwatch : pc'.watch? = none) :
    Batched ⟨rman, pc'⟩ (n :: es) := by
  obtain ⟨hsplit, hmem⟩ := hI.workOff _ rfl
  have hopens : ∀ x ∈ [n], x.opens = false := by simpa using hopen
  have hvisited : visited (n :: es) = wd :: visited es := by
    rw [← List.singleton_append, visited_append hopens, List.filterMap_cons_some hn]
    rfl
  have hmarked : marked (n :: es) = marked es := by
    rw [← List.singleton_append, marked_append hopens, List.filterMap_cons_none hmark]
    rfl
  have hsplit' : (visited (n :: es)).reverse ++ wds = modifiedKeys rman := by
    rw [hvisited, List.reverse_cons, List.append_assoc]
    exact hsplit
  obtain ⟨hsorted, hkeys⟩ := modifiedKeys_spec hI.set
  refine ⟨hI.base, hI.set, fun _ h => ?_, fun msec h => absurd h (Pc.ne_watch hwatch), ?_, ?_, ?_⟩
  · rw [hrest] at h
    cases h
  · intro wds' h
    obtain rfl := Option.some.inj (hrest.symm.trans h)
    exact ⟨hsplit', hmarked ▸ hmem⟩
  · rw [← hsplit'] at hsorted
    exact List.pairwise_reverse.1 (List.pairwise_append.1 hsorted).1
  · intro x hx
    rw [hmarked, ← hmem, ← hkeys, ← hsplit']
    exact List.mem_append_left _ (List.mem_reverse.2 hx)

/-- The modified set is cleared. -/
theorem Batched.cleared (hI : Batched ⟨rman, .modset []⟩ es) :
    Batched ⟨{ rman with modset := rbClear rman.modset }, .drain⟩ es where
  base := ⟨hI.base.tree, hI.base.full, hI.base.fresh⟩
  set := intTree_clear hI.set
  outside _ _ _ := not_inSet_clear
  collect _ h := by cases h
  workOff _ h := by cases h
  increasing := hI.increasing
  justified := hI.justified

theorem Batched.client (hI : Batched ⟨rman, pc⟩ es) (hpos : ∀ fd ∈ o.watch, Watched fd)
    (h : localStep rman o pc = some (rman', pc')) :
    Batched ⟨rman', pc'⟩ (monitorNotes rman o pc pc' ++ es) := by
  by_cases hwatch : ∃ msec, pc = .watch msec
  · obtain ⟨msec, rfl⟩ := hwatch
    simp only [localStep] at h
    rw [monitorNotes.eq_def]
    dsimp only
    cases hev : o.event with
    | some ev =>
      rw [hev] at h
      obtain ⟨rman₁, hhandle, heq⟩ := Option.map_eq_some_iff.1 h
      obtain ⟨rfl, rfl⟩ := Prod.mk.inj heq
      exact hI.event hpos hhandle
    | none =>
      rw [hev] at h
      obtain ⟨rfl, rfl⟩ := Prod.mk.inj (Option.some.inj h)
      exact hI.collected
  by_cases hmodset : ∃ wds, pc = .modset wds
  · obtain ⟨wds, rfl⟩ := hmodset
    cases wds with
    | nil =>
      obtain ⟨rfl, rfl⟩ := Prod.mk.inj (Option.some.inj h)
      exact hI.cleared
    | cons wd wds =>
      obtain ⟨pc₁, hmod, heq⟩ := Option.map_eq_some_iff.1 h
      obtain ⟨rfl, rfl⟩ := Prod.mk.inj heq
      cases reloadModified_cases hmod with
      | modsetSkip => exact hI.visit rfl rfl rfl rfl rfl
      | modsetReload => exact hI.visit rfl rfl rfl rfl rfl
  have hchange : Change rman o pc rman' :=
    localStep_change (fun msec heq => hwatch ⟨msec, heq⟩) (fun heq => hmodset ⟨[], heq⟩) h
  have hb := hchange.base hI.base hpos
  have hsame := hchange.modset
  cases localStep_cases h with
  | event | watchEnd => exact absurd ⟨_, rfl⟩ hwatch
  | modsetEnd | modsetSkip | modsetReload => exact absurd ⟨_, rfl⟩ hmodset
  | delEnd => exact hI.opened rfl rfl
  | rmFree =>
    exact hI.pass hb hsame (Cont.rest?_resume _) (Cont.watch?_resume _)
  | doneOk _ _ hpc =>
    rcases hpc with rfl | rfl
    · exact hI.pass hb hsame rfl rfl
    · exact hI.pass hb hsame rfl rfl
  | @doneReload _ q t i =>
    have hpass : Batched ⟨rman', .reloadTask q (.done t (i + 1))⟩ es :=
      hI.pass hb hsame rfl rfl
    exact hpass.unrelated rfl rfl rfl
  | _ => exact hI.pass hb hsame rfl rfl

/-- **Every action keeps the batches in order.** -/
theorem Batched.step (hI : Batched c es) (ha : PositiveAnswer a) (hv : NoteStep m a c c' ns) :
    Batched c' (stepNotes m a c c' ++ es) := by
  cases hv with
  | frame hne =>
    rw [stepNotes_of_ne hne]
    exact hI
  | call h =>
    cases callStep_cases h with
    | setopt => exact hI.pass ⟨hI.base.tree, hI.base.full, hI.base.fresh⟩ rfl rfl rfl
    | stay => exact hI
    | poll | destroy => exact hI.pass hI.base rfl rfl rfl
    | added => exact hI.pass (registry_appendResource hI.base _ _).1 rfl rfl rfl
    | remove _ hup =>
      exact hI.pass ((sameWatches_update hup fun _ => rfl).base hI.base) (update_modset hup) rfl rfl
  | client h =>
    rw [stepNotes_client]
    exact hI.client ha h
  | pool h =>
    rw [stepNotes_client, monitorNotes_pool h]
    cases poolStep_cases h with
    | enqueue | lost =>
      exact hI.pass hI.base rfl (Cont.rest?_resume _) (Cont.watch?_resume _)
    | release hpc =>
      rcases hpc with rfl | rfl
      · exact hI.pass hI.base rfl rfl rfl
      · exact hI.pass hI.base rfl rfl rfl
    | drain | clear | quit | join => exact hI.pass hI.base rfl rfl rfl
  | taken => exact hI.pass ⟨hI.base.tree, hI.base.full, hI.base.fresh⟩ rfl rfl rfl
  | returned hup =>
    exact hI.pass ((sameWatches_update hup fun _ => rfl).base hI.base) (update_modset hup) rfl rfl
  | completed _ hdone =>
    have hchange : Change _ _ .idle _ := workDone_change hdone
    exact hI.pass (hchange.base hI.base ha) hchange.modset rfl rfl

end Batch

/-- **Events are coalesced**: in every run of workers and managers in which watch descriptors are
positive, the loop over the modified set comes to each descriptor once at most in a call, in
increasing order and only for an event of this call, and behind the loop it has come to all
descriptors that an event of this call has marked. -/
theorem coalesced_of_run {m : MgrPtr} {numThreads : Nat} {as : List Action}
    {x : Sys × List FileNote} (hpos : ∀ a ∈ as, PositiveAnswer a)
    (h : exec (record step (fileNotes m)) (.initial numThreads, []) as = some x) :
    (visited x.2).Pairwise (fun wd wd' => wd'.toInt < wd.toInt) ∧
      (∀ wd ∈ visited x.2, wd ∈ marked x.2) ∧
      ∀ c, x.1.clients m = some c → c.pc = .modset [] →
        ∀ wd, wd ∈ visited x.2 ↔ wd ∈ marked x.2 := by
  obtain ⟨s, es⟩ := x
  obtain ⟨hsome, hnone⟩ := file_invariant (C := fun _ a => PositiveAnswer a)
    (I := Batched) Batched.init
    (fun _ _ _ _ _ _ hI ha _ hv => hI.step ha hv) (along_of_forall_mem fun a ha _ => hpos a ha) h
  cases hc : s.clients m with
  | none =>
    rw [hnone hc]
    exact ⟨.nil, nofun, nofun⟩
  | some c =>
    have hI := hsome c hc
    refine ⟨hI.increasing, hI.justified, ?_⟩
    intro c' hc' hpc wd
    obtain rfl := Option.some.inj hc'
    obtain ⟨hsplit, hmem⟩ := hI.workOff [] (by rw [hpc]; rfl)
    rw [List.append_nil] at hsplit
    rw [← hmem, ← (modifiedKeys_spec hI.set).2, ← hsplit, List.mem_reverse]

/-- Two files are loaded and watched under 1 and 2. The second one and then the first one are
deleted and created again. -/
def recreatesFiles : List Action :=
  let ignored (wd fd : BitVec 32) : Action :=
    .client 0 { event := some ⟨wd, inIgnored, 0, 0⟩, watch := some fd }
  [.create 0 true false, .call 0 (.add "a" 0 {})] ++ clientSteps 0 {} 3 ++
    .call 0 (.add "b" 0 {}) ::
    clientSteps 0 {} 3 ++ workerSteps 0 {} 10 ++ .call 0 .poll :: clientSteps 0 {} 8 ++
    .client 0 { watch := some 1 } :: clientSteps 0 {} 1 ++
      .client 0 { watch := some 2 } :: clientSteps 0 {} 1 ++
    .call 0 .poll :: clientSteps 0 {} 3 ++ [ignored 2 3, ignored 1 4] ++ clientSteps 0 {} 9

theorem coalesced_of_run_recreatesFiles :
    ∃ x, exec (record step (fileNotes 0)) (.initial 1, []) recreatesFiles = some x ∧
      (visited x.2 = [4, 3] ∧ marked x.2 = [4, 3]) ∧
      (visited x.2).Pairwise (fun wd wd' => wd'.toInt < wd.toInt) ∧
      (∀ wd ∈ visited x.2, wd ∈ marked x.2) ∧
      ∀ c, x.1.clients 0 = some c → c.pc = .modset [] →
        ∀ wd, wd ∈ visited x.2 ↔ wd ∈ marked x.2 := by
  have hrun : ((exec (record step (fileNotes 0)) (.initial 1, []) recreatesFiles).any fun x =>
      visited x.2 = [4, 3] ∧ marked x.2 = [4, 3]) = true := by decide +kernel
  obtain ⟨x, hx, hlists⟩ := (Option.any_eq_true _ _).1 hrun
  exact ⟨x, hx, of_decide_eq_true hlists, coalesced_of_run (by decide +kernel) hx⟩

end Resman.Manager
