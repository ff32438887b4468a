import Resman.Manager.Steps

/-!
# Fields that a step keeps

`KeepsField g` says that every resource of the later state was there before, with the same value of
`g`: a step may free resources, and it writes nothing that `g` reads. A step inside a call keeps
every `g` that reads no descriptor and no timeout (`Blind g`) and that is not about the flag which
this step writes (`localStep_keeps`).
-/

namespace Resman.Manager

open Lib Rb FileWatch

variable {α : Type} {g : Resource → α} {rman rman₁ rman' : Rman} {pc pc' : Pc} {p : ResPtr}
  {o : Oracle}

def KeepsField (g : Resource → α) (rman rman' : Rman) : Prop :=
  ∀ q r', rman'.heap q = some r' → ∃ r, rman.heap q = some r ∧ g r' = g r

/-- The function reads no field that the file monitor writes. -/
structure Blind (g : Resource → α) : Prop where
  nfd : ∀ r fd, g { r with nfd := fd } = g r
  time : ∀ r t, g { r with reloadTimeout := t } = g r

namespace KeepsField

theorem of_heap_eq (h : rman'.heap = rman.heap) : KeepsField g rman rman' :=
  fun _ r' hr' => ⟨r', h ▸ hr', rfl⟩

theorem refl (rman : Rman) : KeepsField g rman rman := .of_heap_eq rfl

theorem trans (h : KeepsField g rman rman₁) (h' : KeepsField g rman₁ rman') :
    KeepsField g rman rman' := by
  intro q r' hr'
  obtain ⟨r₁, hr₁, heq₁⟩ := h' q r' hr'
  obtain ⟨r, hr, heq⟩ := h q r₁ hr₁
  exact ⟨r, hr, heq₁.trans heq⟩

theorem of_update {f : Resource → Resource} (h : rman.update p f = some rman')
    (hf : ∀ r, g (f r) = g r) : KeepsField g rman rman' := by
  obtain ⟨r, hr, rfl⟩ := heap_of_update h
  intro q r' hr'
  rcases update_eq_some.1 hr' with ⟨rfl, hfr⟩ | ⟨-, hr'⟩
  · obtain rfl := Option.some.inj hfr
    exact ⟨r, hr, hf r⟩
  · exact ⟨r', hr', rfl⟩

/-- Resources are freed. -/
theorem of_clear (h : rman'.heap = Function.update rman.heap p none) : KeepsField g rman rman' := by
  intro q r' hr'
  rw [h] at hr'
  exact ⟨r', (update_none_eq_some.1 hr').2, rfl⟩

end KeepsField

/-! ## The file monitor -/

theorem startWatch_keeps {ok : Bool} (hnfd : ∀ r fd, g { r with nfd := fd } = g r)
    (h : startWatch rman p o = some (rman', ok)) : KeepsField g rman rman' := by
  obtain ⟨r, -, ⟨-, rfl, -⟩ | ⟨-, -, rfl, -⟩ | ⟨fd, nresmap, -, -, -, hup, -⟩⟩ := startWatch_cases h
  · exact .refl _
  · exact .refl _
  · have hmap : KeepsField g rman { rman with nresmap } := .of_heap_eq rfl
    exact hmap.trans (.of_update hup fun r => hnfd r fd)

theorem stopWatch_keeps (h : stopWatch rman p = some rman') : KeepsField g rman rman' := by
  obtain ⟨r, -, ⟨-, rfl⟩ | ⟨nresmap, calls, -, -, rfl⟩⟩ := stopWatch_cases h
  · exact .refl _
  · exact .of_heap_eq rfl

section Monitor

variable (hg : Blind g)

include hg

theorem onModify_keeps {msec : Nat} {wd : BitVec 32} (h : onModify rman msec wd = some rman') :
    KeepsField g rman rman' := by
  unfold onModify at h
  split at h
  · exact Option.some.inj h ▸ .refl _
  · exact .of_update h fun r => hg.time r _

theorem onCloseWrite_keeps {wd : BitVec 32} (h : onCloseWrite rman wd o = some rman') :
    KeepsField g rman rman' := by
  unfold onCloseWrite at h
  split at h
  · exact Option.some.inj h ▸ .refl _
  · obtain ⟨modset, -, h⟩ := Option.bind_eq_some_iff.1 h
    have hset : KeepsField g rman { rman with modset } := .of_heap_eq rfl
    exact hset.trans (.of_update h fun r => hg.time r _)

theorem onIgnored_keeps {wd : BitVec 32} (h : onIgnored rman wd o = some rman') :
    KeepsField g rman rman' := by
  unfold onIgnored at h
  split at h
  · exact Option.some.inj h ▸ .refl _
  · simp only [Option.bind_eq_bind, Option.bind_eq_some_iff] at h
    obtain ⟨r, -, rman₁, hclear, ⟨rman₂, ok⟩, hstart, h⟩ := h
    have hkeep : KeepsField g rman rman₂ :=
      (KeepsField.of_update hclear fun r => hg.nfd r _).trans (startWatch_keeps hg.nfd hstart)
    split at h
    · simp only [Option.bind_eq_some_iff] at h
      obtain ⟨r', -, modset, -, h⟩ := h
      obtain rfl := Option.some.inj h
      exact hkeep.trans (.of_heap_eq rfl)
    · simp only [Option.bind_eq_some_iff] at h
      obtain ⟨rman₃, hback, hstop⟩ := h
      have hback' : KeepsField g rman₂ rman₃ := .of_update hback fun r' => hg.nfd r' _
      exact (hkeep.trans hback').trans (stopWatch_keeps hstop)

theorem handleEvent_keeps {msec : Nat} {ev : InotifyEvent}
    (h : handleEvent rman msec ev o = some rman') : KeepsField g rman rman' := by
  simp only [handleEvent, Option.bind_eq_bind, Option.bind_eq_some_iff] at h
  obtain ⟨rman₁, h₁, rman₂, h₂, h₃⟩ := h
  have hmodify : KeepsField g rman rman₁ := ifFlag_rel (.refl _) (onModify_keeps hg) h₁
  have hclose : KeepsField g rman₁ rman₂ := ifFlag_rel (.refl _) (onCloseWrite_keeps hg) h₂
  exact (hmodify.trans hclose).trans (ifFlag_rel (.refl _) (onIgnored_keeps hg) h₃)

end Monitor

/-! ## Steps -/

theorem allocTask_heap : (allocTask rman).1.heap = rman.heap := by
  unfold allocTask
  split <;> rfl

/-- What `done_func` has returned decides how the iteration goes on: the first load failed and the
resource is removed, or the load is counted and the file is watched, and the scan goes on unless the
timeslice is spent. -/
theorem doneReturn_spec {startTime i : Nat}
    (h : doneReturn rman startTime i p o = some (rman', pc')) :
    ∃ r, rman.heap p = some r ∧
      (o.ret = -1 ∧ r.numLoads = 0 ∧ rman' = rman ∧ pc' = .rmStop i p (.done startTime (i + 1)) ∨
        ¬ (o.ret = -1 ∧ r.numLoads = 0) ∧
        (∃ rman₁ ok, (rman.update p fun r => { r with numLoads := r.numLoads + 1 }) = some rman₁ ∧
          startWatch rman₁ p o = some (rman', ok)) ∧
        pc' = if 0 < rman'.timeslice ∧ rman'.timeslice < elapsed startTime o.now then .idle
          else .doneScan startTime (i + 1)) := by
  simp only [doneReturn, Option.bind_eq_bind, Option.bind_eq_some_iff] at h
  obtain ⟨r, hr, h⟩ := h
  refine ⟨r, hr, ?_⟩
  split at h
  · next hfail =>
    obtain ⟨rfl, rfl⟩ := Prod.mk.inj (Option.some.inj h)
    exact .inl ⟨hfail.1, hfail.2, rfl, rfl⟩
  · next hfail =>
    simp only [Option.bind_eq_some_iff] at h
    obtain ⟨rman₁, hup, ⟨rman₂, ok⟩, hstart, h⟩ := h
    have hmain : ∀ {rman'}, rman₂ = rman' → ∃ rman₁ ok,
        (rman.update p fun r => { r with numLoads := r.numLoads + 1 }) = some rman₁ ∧
          startWatch rman₁ p o = some (rman', ok) := by
      rintro _ rfl
      exact ⟨rman₁, ok, hup, hstart⟩
    split at h
    · next hslice =>
      obtain ⟨rfl, rfl⟩ := Prod.mk.inj (Option.some.inj h)
      exact .inr ⟨hfail, hmain rfl, (if_pos hslice).symm⟩
    · next hslice =>
      obtain ⟨rfl, rfl⟩ := Prod.mk.inj (Option.some.inj h)
      exact .inr ⟨hfail, hmain rfl, (if_neg hslice).symm⟩

theorem doneReturn_keeps (hg : Blind g) (hloads : ∀ r k, g { r with numLoads := k } = g r)
    {startTime i : Nat} (h : doneReturn rman startTime i p o = some (rman', pc')) :
    KeepsField g rman rman' := by
  obtain ⟨r, -, ⟨-, -, rfl, -⟩ | ⟨-, ⟨rman₁, ok, hup, hstart⟩, -⟩⟩ := doneReturn_spec h
  · exact .refl _
  · exact (KeepsField.of_update hup fun r => hloads r _).trans (startWatch_keeps hg.nfd hstart)

/-- The last section of `work_func` writes three flags, and the fields of the file monitor. -/
theorem workDone_keeps (hnfd : ∀ r fd, g { r with nfd := fd } = g r)
    (hpend : ∀ r b, g { r with pending := b } = g r)
    (hdone : ∀ r b, g { r with donePending := b } = g r)
    (hdel : ∀ r b, g { r with deletePending := b } = g r) (h : workDone rman p o = some rman') :
    KeepsField g rman rman' := by
  simp only [workDone, Option.bind_eq_bind, Option.bind_eq_some_iff] at h
  obtain ⟨rman₁, hup, r, -, h⟩ := h
  have hkeep : KeepsField g rman rman₁ := .of_update hup fun r => hpend r _
  split at h
  · exact hkeep.trans (.of_update h fun r => hdone r _)
  · split at h
    · split at h
      · exact hkeep.trans (.of_update h fun r => hdel r _)
      · exact Option.some.inj h ▸ hkeep
    · obtain ⟨⟨rman₂, ok⟩, hstart, h⟩ := Option.bind_eq_some_iff.1 h
      obtain rfl := Option.some.inj h
      exact hkeep.trans (startWatch_keeps hnfd hstart)

/-- **The fields that a step inside a call keeps**: `pending` is written before a job is enqueued,
`done_pending` where a `done_func` call begins, and the number of loads where it ends. -/
theorem localStep_keeps (hg : Blind g) (h : localStep rman o pc = some (rman', pc'))
    (hpend : (∀ r b, g { r with pending := b } = g r) ∨ ∀ q t k, pc' ≠ .reloadEnq q t k)
    (hdone : (∀ r b, g { r with donePending := b } = g r) ∨ ∀ t i q, pc' ≠ .doneCall t i q)
    (hloads : (∀ r k, g { r with numLoads := k } = g r) ∨ ∀ t i q, pc ≠ .doneCall t i q) :
    KeepsField g rman rman' := by
  cases pc with
  | idle | reloadEnq | drain | destroyRelease | poolClear | poolQuit | poolJoin | dead => cases h
  | reloadTask q k =>
    obtain ⟨rfl, -⟩ := Prod.mk.inj (Option.some.inj h)
    exact .of_heap_eq allocTask_heap
  | reloadFlag q t k =>
    obtain ⟨rman₁, hup, heq⟩ := Option.map_eq_some_iff.1 h
    obtain ⟨rfl, rfl⟩ := Prod.mk.inj heq
    rcases hpend with hpend | hne
    · exact .of_update hup fun r => hpend r _
    · exact absurd rfl (hne q t k)
  | delScan i =>
    obtain ⟨pc₁, -, heq⟩ := Option.map_eq_some_iff.1 h
    obtain ⟨rfl, -⟩ := Prod.mk.inj heq
    exact .refl _
  | delTest i q =>
    obtain ⟨r, -, heq⟩ := Option.map_eq_some_iff.1 h
    obtain ⟨rfl, -⟩ := Prod.mk.inj heq
    exact .refl _
  | delCall i q | rmCall i q k | destroyCall i q =>
    obtain ⟨rfl, -⟩ := Prod.mk.inj (Option.some.inj h)
    refine .of_heap_eq ?_
    unfold callDestroy
    split <;> rfl
  | rmStop i q k =>
    obtain ⟨rman₁, hstop, heq⟩ := Option.map_eq_some_iff.1 h
    obtain ⟨rfl, -⟩ := Prod.mk.inj heq
    exact stopWatch_keeps hstop
  | rmFree i q k =>
    obtain ⟨rman₁, hfree, heq⟩ := Option.map_eq_some_iff.1 h
    obtain ⟨rfl, -⟩ := Prod.mk.inj heq
    obtain ⟨r, -, hfree⟩ := Option.bind_eq_some_iff.1 hfree
    obtain rfl := Option.some.inj hfree
    exact .of_clear rfl
  | watch msec =>
    simp only [localStep] at h
    split at h
    · obtain ⟨rman₁, hev, heq⟩ := Option.map_eq_some_iff.1 h
      obtain ⟨rfl, -⟩ := Prod.mk.inj heq
      exact handleEvent_keeps hg hev
    · obtain ⟨rfl, -⟩ := Prod.mk.inj (Option.some.inj h)
      exact .refl _
  | modset wds =>
    cases wds with
    | nil =>
      obtain ⟨rfl, -⟩ := Prod.mk.inj (Option.some.inj h)
      exact .of_heap_eq rfl
    | cons wd wds =>
      obtain ⟨pc₁, -, heq⟩ := Option.map_eq_some_iff.1 h
      obtain ⟨rfl, -⟩ := Prod.mk.inj heq
      exact .refl _
  | doneStart =>
    obtain ⟨rfl, -⟩ := Prod.mk.inj (Option.some.inj h)
    exact .refl _
  | doneScan startTime i =>
    rcases hdone with hdone | hne
    · cases doneScan_cases h with
      | doneTake _ _ _ hup => exact .of_update hup fun r => hdone r _
      | doneEnd | doneSkip | doneLate => exact .refl _
    · cases doneScan_cases h with
      | doneTake => exact absurd rfl (hne _ _ _)
      | doneEnd | doneSkip | doneLate => exact .refl _
  | doneReload startTime i q =>
    obtain ⟨rman₁, hup, heq⟩ := Option.map_eq_some_iff.1 h
    obtain ⟨rfl, -⟩ := Prod.mk.inj heq
    exact .of_update hup fun r => hg.time r _
  | doneCall startTime i q =>
    rcases hloads with hloads | hne
    · exact doneReturn_keeps hg hloads h
    · exact absurd rfl (hne startTime i q)
  | destroyScan i =>
    simp only [localStep] at h
    split at h
    all_goals
      obtain ⟨rfl, -⟩ := Prod.mk.inj (Option.some.inj h)
      exact .refl _
  | destroyFree i q =>
    obtain ⟨r, -, h⟩ := Option.bind_eq_some_iff.1 h
    obtain ⟨rfl, -⟩ := Prod.mk.inj (Option.some.inj h)
    exact .of_clear rfl

/-- A call begins without writing to a resource that is there, unless it marks it for deletion. A
new resource is as `add_resource` makes it. -/
theorem callStep_keeps {f : Call} (h : callStep rman f = some (rman', pc'))
    (hdel : ∀ r b, g { r with deletePending := b } = g r) :
    KeepsField g rman rman' ∨
      ∃ fname data mem, f = .add fname data mem ∧ findResource rman fname = some (-1) ∧
        rman' = appendResource rman fname data ∧ pc' = .reloadTask rman.nalloc .add := by
  cases callStep_cases h with
  | setopt => exact .inl (.of_heap_eq rfl)
  | stay | poll | destroy => exact .inl (.refl _)
  | added hfind => exact .inr ⟨_, _, _, rfl, hfind, rfl, rfl⟩
  | remove hi hup => exact .inl (.of_update hup fun r => hdel r _)

end Resman.Manager
