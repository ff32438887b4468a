import Mathlib.Data.Set.Basic
import Resman.Lib.Tally
import Resman.Manager.System
import Resman.RbTree.Entries

/-!
# Quiet changes

Most functions of a manager leave the table, the flags of the resources and the history alone and
only work for the file monitor or on the free list of tasks: `Quiet W` says so of two states of a
manager, where `W` holds the resources that a watch may have been started for. There is one lemma
for each function of the monitor (`startWatch_quiet`, `handleEvent_quiet`, ...).
-/

namespace Resman.Manager

open Lib Rb FileWatch

variable {rman rman₁ rman₂ rman₃ rman' : Rman} {p q : ResPtr} {W : Set ResPtr} {o : Oracle}

/-! ## Writes to the heap -/

/-- What a write to a resource leaves behind. -/
theorem heap_of_update {f : Resource → Resource} (h : rman.update p f = some rman') :
    ∃ r, rman.heap p = some r ∧ rman' =
      { rman with heap := Function.update rman.heap p (some (f r)) } := by
  obtain ⟨r, hr, rfl⟩ := Option.map_eq_some_iff.1 h
  exact ⟨r, hr, rfl⟩

theorem res_of_update {f : Resource → Resource} (h : rman.update p f = some rman') :
    rman'.res = rman.res := by
  obtain ⟨r, -, rfl⟩ := heap_of_update h
  rfl

/-- A write to a resource keeps what it does not write. -/
theorem map_heap_of_update {α : Type} {f : Resource → Resource} {g : Resource → α}
    (h : rman.update p f = some rman') (hg : ∀ r, g (f r) = g r) (q : ResPtr) :
    (rman'.heap q).map g = (rman.heap q).map g := by
  obtain ⟨r, hr, rfl⟩ := heap_of_update h
  by_cases hq : q = p
  · subst hq
    simp [hr, hg]
  · simp [hq]

/-! ## Quiet changes -/

/-- The fields of a resource that the file monitor does not write. -/
structure Core where
  id : Nat
  name : String
  pending : Bool
  donePending : Bool
  deletePending : Bool
  numLoads : Nat

def Resource.core (r : Resource) : Core :=
  ⟨r.id, r.name, r.pending, r.donePending, r.deletePending, r.numLoads⟩

/-- The resource is in the watch map or has a delayed reload. -/
def Touched (rman : Rman) (q : ResPtr) : Prop :=
  (∃ k, (k, some q) ∈ traverse rman.nresmap.root) ∨ ∃ r ∈ rman.heap q, r.reloadTimeout ≠ 0

structure Quiet (W : Set ResPtr) (rman rman' : Rman) : Prop where
  res : rman'.res = rman.res
  core : ∀ q, (rman'.heap q).map Resource.core = (rman.heap q).map Resource.core
  nalloc : rman'.nalloc = rman.nalloc
  doneFunc : rman'.doneFunc = rman.doneFunc
  destroyFunc : rman'.destroyFunc = rman.destroyFunc
  log : rman'.log = rman.log
  touched : ∀ q, Touched rman' q → Touched rman q ∨ q ∈ W

namespace Quiet

theorem refl (rman : Rman) : Quiet W rman rman :=
  ⟨rfl, fun _ => rfl, rfl, rfl, rfl, rfl, fun _ => .inl⟩

theorem trans (h : Quiet W rman₁ rman₂) (h' : Quiet W rman₂ rman₃) : Quiet W rman₁ rman₃ where
  res := h'.res.trans h.res
  core q := (h'.core q).trans (h.core q)
  nalloc := h'.nalloc.trans h.nalloc
  doneFunc := h'.doneFunc.trans h.doneFunc
  destroyFunc := h'.destroyFunc.trans h.destroyFunc
  log := h'.log.trans h.log
  touched q hq := (h'.touched q hq).elim (h.touched q) .inr

/-- A resource that was touched before need not be mentioned. -/
theorem absorb (h : Quiet {p} rman rman') (hp : Touched rman p) : Quiet ∅ rman rman' where
  __ := h
  touched q hq := (h.touched q hq).elim .inl fun hqp => by
    obtain rfl : q = p := hqp
    exact .inl hp

theorem heap_eq_none (h : Quiet W rman rman') : rman'.heap q = none ↔ rman.heap q = none := by
  have hcore := h.core q
  cases h₁ : rman'.heap q <;> cases h₂ : rman.heap q <;> simp [h₁, h₂] at hcore ⊢

/-- A resource of the later state was there before, with the same core. -/
theorem heap_eq_some (h : Quiet W rman rman') {r' : Resource} (hr : rman'.heap q = some r') :
    ∃ r, rman.heap q = some r ∧ r'.core = r.core := by
  have hcore := h.core q
  rw [hr] at hcore
  obtain ⟨r, hr', heq⟩ := Option.map_eq_some_iff.1 hcore.symm
  exact ⟨r, hr', heq.symm⟩

/-- A resource stays there, with the same core. -/
theorem heap_kept (h : Quiet W rman rman') {r : Resource} (hr : rman.heap q = some r) :
    ∃ r', rman'.heap q = some r' ∧ r'.core = r.core := by
  have hcore := h.core q
  rw [hr] at hcore
  exact Option.map_eq_some_iff.1 hcore

/-- The flags of loading are the same. -/
theorem flags (h : Quiet W rman rman') {r' : Resource} (hr : r' ∈ rman'.heap q) :
    ∃ r ∈ rman.heap q, r'.pending = r.pending ∧ r'.donePending = r.donePending ∧
      r'.numLoads = r.numLoads := by
  obtain ⟨r, hr, hcore⟩ := h.heap_eq_some hr
  obtain ⟨-, -, hpend, hdone, -, hloads⟩ := Core.mk.inj hcore
  exact ⟨r, hr, hpend, hdone, hloads⟩

end Quiet

/-- A write to a resource that keeps its core, and sets up no delayed reload unless it may. -/
theorem Rman.update_quiet {f : Resource → Resource} (h : rman.update p f = some rman')
    (hcore : ∀ r, (f r).core = r.core)
    (htime : ∀ r ∈ rman.heap p, (f r).reloadTimeout ≠ 0 → Touched rman p ∨ p ∈ W) :
    Quiet W rman rman' := by
  have hmap := map_heap_of_update h hcore
  obtain ⟨r, hr, rfl⟩ := heap_of_update h
  refine ⟨rfl, hmap, rfl, rfl, rfl, rfl, fun q hq => ?_⟩
  rcases hq with hq | ⟨r', hr', ht⟩
  · exact .inl (.inl hq)
  · rcases update_eq_some.1 hr' with ⟨rfl, hfr⟩ | ⟨-, hold⟩
    · obtain rfl : f r = r' := Option.some.inj hfr
      exact htime r hr ht
    · exact .inl (.inr ⟨r', hold, ht⟩)

/-- As `Rman.update_quiet`, where the delayed reload is not written. -/
theorem Rman.update_quiet' {f : Resource → Resource} (h : rman.update p f = some rman')
    (hcore : ∀ r, (f r).core = r.core) (htime : ∀ r, (f r).reloadTimeout = r.reloadTimeout) :
    Quiet W rman rman' :=
  Rman.update_quiet h hcore fun r hr ht => .inl (.inr ⟨r, hr, htime r ▸ ht⟩)

/-! ## The file monitor -/

theorem touched_of_find {wd : BitVec 32} (h : rbFindi rman.nresmap wd = some p) :
    Touched rman p :=
  .inl (mem_traverse_of_find h)

theorem allocTask_quiet : Quiet ∅ rman (allocTask rman).1 := by
  unfold allocTask
  split
  · exact ⟨rfl, fun _ => rfl, rfl, rfl, rfl, rfl, fun _ => .inl⟩
  · exact ⟨rfl, fun _ => rfl, rfl, rfl, rfl, rfl, fun _ => .inl⟩

theorem modset_quiet (modset : RbTree (BitVec 64) Unit) : Quiet ∅ rman { rman with modset } :=
  ⟨rfl, fun _ => rfl, rfl, rfl, rfl, rfl, fun _ => .inl⟩

/-- An insertion into the watch map touches the resource that it registers. -/
theorem rbInserti_quiet {nresmap : RbTree (BitVec 64) ResPtr} {node : Option Rb.Addr}
    {fd : BitVec 32} (h : rbInserti rman.nresmap node fd (some p) = some nresmap) :
    Quiet {p} rman { rman with nresmap } := by
  refine ⟨rfl, fun _ => rfl, rfl, rfl, rfl, rfl, fun q hq => ?_⟩
  simp only [rbInserti, rbInsert, Option.bind_eq_bind, Option.bind_eq_some_iff] at h
  obtain ⟨root, hins, root', hblack, h⟩ := h
  obtain rfl := Option.some.inj h
  rcases hq with ⟨k, hk⟩ | hq
  · have hmem : (k, some q) ∈ traverse root := by
      cases root with
      | null => cases hblack
      | node =>
        obtain rfl := Option.some.inj hblack
        exact hk
    rcases mem_traverse_insert hins hmem with hold | hnew
    · exact .inl (.inl ⟨k, hold⟩)
    · exact .inr (Option.some.inj hnew)
  · exact .inl (.inr hq)

theorem rbDeletei_quiet {nresmap : RbTree (BitVec 64) ResPtr} {fd : BitVec 32}
    {calls : List (Rb.Call (BitVec 64) ResPtr)}
    (h : rbDeletei rman.nresmap fd = some (nresmap, calls)) :
    Quiet ∅ rman { rman with nresmap } := by
  refine ⟨rfl, fun _ => rfl, rfl, rfl, rfl, rfl, fun q hq => ?_⟩
  simp only [rbDeletei, rbDelete, Option.bind_eq_bind, Option.bind_eq_some_iff] at h
  obtain ⟨⟨root, calls'⟩, hdel, root', hblack, h⟩ := h
  obtain ⟨rfl, -⟩ := Prod.mk.inj (Option.some.inj h)
  rcases hq with ⟨k, hk⟩ | hq
  · refine .inl (.inl ⟨k, mem_traverse_delete hdel ?_⟩)
    cases root with
    | null => cases hblack
    | node =>
      obtain rfl := Option.some.inj hblack
      exact hk
  · exact .inl (.inr hq)

/-- A call of `resman_start_watch` finds that the resource is watched, gets no
descriptor, or registers one. -/
theorem startWatch_cases {ok : Bool} (h : startWatch rman p o = some (rman', ok)) :
    ∃ r, rman.heap p = some r ∧
      ((0 < r.nfd.toInt ∧ rman' = rman ∧ ok = true) ∨
        (¬ 0 < r.nfd.toInt ∧ o.watch = none ∧ rman' = rman ∧ ok = false) ∨
        ∃ fd nresmap, ¬ 0 < r.nfd.toInt ∧ o.watch = some fd ∧
          rbInserti rman.nresmap (some o.node) fd (some p) = some nresmap ∧
          { rman with nresmap }.update p (fun r => { r with nfd := fd }) = some rman' ∧
            ok = true) := by
  simp only [startWatch, Option.bind_eq_bind, Option.bind_eq_some_iff] at h
  obtain ⟨r, hr, h⟩ := h
  refine ⟨r, hr, ?_⟩
  split at h
  · next hnfd =>
    obtain ⟨rfl, rfl⟩ := Prod.mk.inj (Option.some.inj h)
    exact .inl ⟨hnfd, rfl, rfl⟩
  · next hnfd =>
    split at h
    · next hw =>
      obtain ⟨rfl, rfl⟩ := Prod.mk.inj (Option.some.inj h)
      exact .inr (.inl ⟨hnfd, hw, rfl, rfl⟩)
    · next fd hw =>
      simp only [Option.bind_eq_some_iff] at h
      obtain ⟨nresmap, hins, rman₁, hup, h⟩ := h
      obtain ⟨rfl, rfl⟩ := Prod.mk.inj (Option.some.inj h)
      exact .inr (.inr ⟨fd, nresmap, hnfd, hw, hins, hup, rfl⟩)

/-- A call of `resman_stop_watch` takes the descriptor of the resource out, if it has one. -/
theorem stopWatch_cases (h : stopWatch rman p = some rman') :
    ∃ r, rman.heap p = some r ∧
      ((¬ 0 < r.nfd.toInt ∧ rman' = rman) ∨
        ∃ nresmap calls, 0 < r.nfd.toInt ∧ rbDeletei rman.nresmap r.nfd = some (nresmap, calls) ∧
          rman' = { rman with nresmap }) := by
  simp only [stopWatch, Option.bind_eq_bind, Option.bind_eq_some_iff] at h
  obtain ⟨r, hr, h⟩ := h
  refine ⟨r, hr, ?_⟩
  split at h
  · next hnfd =>
    obtain ⟨⟨nresmap, calls⟩, hdel, h⟩ := Option.bind_eq_some_iff.1 h
    exact .inr ⟨nresmap, calls, hnfd, hdel, (Option.some.inj h).symm⟩
  · next hnfd => exact .inl ⟨hnfd, (Option.some.inj h).symm⟩

theorem startWatch_quiet {ok : Bool} (h : startWatch rman p o = some (rman', ok)) :
    Quiet {p} rman rman' := by
  obtain ⟨r, -, ⟨-, rfl, -⟩ | ⟨-, -, rfl, -⟩ | ⟨fd, nresmap, -, -, hins, hup, -⟩⟩ :=
    startWatch_cases h
  · exact .refl _
  · exact .refl _
  · exact (rbInserti_quiet hins).trans (Rman.update_quiet' hup (fun _ => rfl) fun _ => rfl)

theorem stopWatch_quiet (h : stopWatch rman p = some rman') : Quiet ∅ rman rman' := by
  obtain ⟨r, -, ⟨-, rfl⟩ | ⟨nresmap, calls, -, hdel, rfl⟩⟩ := stopWatch_cases h
  · exact .refl _
  · exact rbDeletei_quiet hdel

theorem onModify_quiet {msec : Nat} {wd : BitVec 32} (h : onModify rman msec wd = some rman') :
    Quiet ∅ rman rman' := by
  unfold onModify at h
  split at h
  · obtain rfl := Option.some.inj h
    exact .refl _
  · next p hfind =>
    exact Rman.update_quiet h (fun _ => rfl) fun _ _ _ => .inl (touched_of_find hfind)

theorem onCloseWrite_quiet {wd : BitVec 32} (h : onCloseWrite rman wd o = some rman') :
    Quiet ∅ rman rman' := by
  unfold onCloseWrite at h
  split at h
  · obtain rfl := Option.some.inj h
    exact .refl _
  · next p hfind =>
    obtain ⟨modset, -, h⟩ := Option.bind_eq_some_iff.1 h
    exact (modset_quiet modset).trans
      (Rman.update_quiet h (fun _ => rfl) fun _ _ ht => absurd rfl ht)

theorem onIgnored_quiet {wd : BitVec 32} (h : onIgnored rman wd o = some rman') :
    Quiet ∅ rman rman' := by
  unfold onIgnored at h
  split at h
  · obtain rfl := Option.some.inj h
    exact .refl _
  · next p hfind =>
    simp only [Option.bind_eq_bind, Option.bind_eq_some_iff] at h
    obtain ⟨r, -, rman₁, hclear, ⟨rman₂, ok⟩, hstart, h⟩ := h
    have hq₁ : Quiet ∅ rman rman₁ := Rman.update_quiet' hclear (fun _ => rfl) fun _ => rfl
    have hq₂ : Quiet ∅ rman rman₂ := by
      refine Quiet.absorb ?_ (touched_of_find hfind)
      exact (Rman.update_quiet' hclear (fun _ => rfl) fun _ => rfl).trans (startWatch_quiet hstart)
    split at h
    · simp only [Option.bind_eq_some_iff] at h
      obtain ⟨r', -, modset, -, h⟩ := h
      obtain rfl := Option.some.inj h
      exact hq₂.trans (modset_quiet modset)
    · simp only [Option.bind_eq_some_iff] at h
      obtain ⟨rman₃, hback, hstop⟩ := h
      exact (hq₂.trans (Rman.update_quiet' hback (fun _ => rfl) fun _ => rfl)).trans
        (stopWatch_quiet hstop)

/-- A test for a flag calls the function or does nothing. -/
theorem ifFlag_rel {R : Rman → Rman → Prop} {ev : InotifyEvent} {flag : BitVec 32}
    {f : Rman → Option Rman} (hrefl : R rman rman)
    (hf : ∀ {rman'}, f rman = some rman' → R rman rman') (h : ifFlag ev flag f rman = some rman') :
    R rman rman' := by
  unfold ifFlag at h
  split at h
  · exact hf h
  · exact Option.some.inj h ▸ hrefl

theorem handleEvent_quiet {msec : Nat} {ev : InotifyEvent}
    (h : handleEvent rman msec ev o = some rman') : Quiet ∅ rman rman' := by
  simp only [handleEvent, Option.bind_eq_bind, Option.bind_eq_some_iff] at h
  obtain ⟨rman₁, h₁, rman₂, h₂, h₃⟩ := h
  have hmodify : Quiet ∅ rman rman₁ := ifFlag_rel (.refl _) onModify_quiet h₁
  have hclose : Quiet ∅ rman₁ rman₂ := ifFlag_rel (.refl _) onCloseWrite_quiet h₂
  exact (hmodify.trans hclose).trans (ifFlag_rel (.refl _) onIgnored_quiet h₃)

end Resman.Manager
