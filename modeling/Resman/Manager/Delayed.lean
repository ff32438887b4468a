import Resman.Manager.Loads
import Resman.Manager.Sleep

/-!
# Delayed reloads that are due

A write to a watched file sets up a delayed reload, in every manager; it is carried out by the last
loop of `resman_poll`, which a manager without `done_func` does not come to. The loop visits each
slot once, while workers and other managers go on: `Fate` says where a resource is in that, and
`carriedOut_iff` when the delayed reloads of one call are carried out.
-/

namespace Resman.Manager

open Lib FileWatch

variable {rman rman' : Rman} {pc pc' : Pc} {p q : ResPtr} {m : MgrPtr} {s s' : Sys}
  {o : Oracle} {a : Action} {c c' : Client} {ns : List Note} {i j startTime time cnt : Nat}

/-! ## What one call should do -/

/-- A delayed reload with this timeout is due. -/
def Expired (time startTime : Nat) : Prop := time ≠ 0 ∧ time ≤ startTime

instance (time startTime : Nat) : Decidable (Expired time startTime) :=
  inferInstanceAs (Decidable (_ ∧ _))

/-- When the loop looks at the slot of the resource, no `done_func` call is pending for it. -/
def NoneDone (m : MgrPtr) (p : ResPtr) (x : Sys × List Note) : Action → Prop
  | .client m' _ => m' = m → ∀ c ∈ x.1.clients m, ∀ t i, c.pc = .doneScan t i →
      c.rman.res[i]? = some (some p) → ∀ r ∈ c.rman.heap p, r.donePending = false
  | .create .. | .call .. | .worker .. => True

/-- There is memory for the work item of a reload of the resource. -/
def ReloadGiven (m : MgrPtr) (p : ResPtr) (x : Sys × List Note) : Action → Prop
  | .client m' o => m' = m → ∀ c ∈ x.1.clients m, c.pc.enqueues p = true → o.mem = true
  | .create .. | .call .. | .worker .. => True

/-- The scan does not stop on the timeslice. -/
def SliceLeft (m : MgrPtr) (x : Sys × List Note) : Action → Prop
  | .client m' o => m' = m → ∀ c ∈ x.1.clients m, stopsAt c.rman o c.pc = none
  | .create .. | .call .. | .worker .. => True

instance (m : MgrPtr) (x : Sys × List Note) : ∀ a, Decidable (SliceLeft m x a)
  | .client m' o =>
    inferInstanceAs (Decidable (m' = m → ∀ c ∈ x.1.clients m, stopsAt c.rman o c.pc = none))
  | .create .. | .call .. | .worker .. => isTrue trivial

/-- The actions from the start time of a call of `resman_poll` on carry out the delayed reloads:
a live resource that is not being removed and for which no `done_func` call is pending gets one
job if its delayed reload is due, and no delayed reload any more; a resource whose delayed
reload is not due gets no job. -/
def CarriedOut (m : MgrPtr) (startTime : Nat) (s : Sys) (as : List Action) (rman rman' : Rman)
    (ns : List Note) : Prop :=
  ∀ p r, rman.heap p = some r →
    (r.deletePending = false → Along trace (NoneDone m p) (s, []) as →
      Expired r.reloadTimeout startTime →
      ns.count (.enqueued m p) = 1 ∧ ∃ r' ∈ rman'.heap p, r'.reloadTimeout = 0) ∧
    (¬ Expired r.reloadTimeout startTime → ns.count (.enqueued m p) = 0)

/-! ## The positions of the loop -/

/-- The loop goes on there. -/
def Cont.inScan (startTime : Nat) : Cont → Prop
  | done t _ => t = startTime
  | add | modset _ | del _ => False

/-- In the last loop of a call with this start time, or behind it. -/
def Pc.inScan (startTime : Nat) : Pc → Prop
  | idle => True
  | doneScan t _ | doneReload t _ _ | doneCall t _ _ => t = startTime
  | reloadTask _ k | reloadFlag _ _ k | reloadEnq _ _ k | rmStop _ _ k
  | rmCall _ _ k | rmFree _ _ k =>
    k.inScan startTime
  | _ => False

/-- The call of `resman_reload` that the client is in. -/
def Pc.reload? : Pc → Option (ResPtr × Cont)
  | reloadTask p k | reloadFlag p _ k | reloadEnq p _ k => some (p, k)
  | _ => none

/-- The client reloads the resource. -/
def Pc.reloads (p : ResPtr) : Pc → Bool
  | doneReload _ _ q => q = p
  | pc => pc.reload?.any (·.1 = p)

/-- The client works on the resource. -/
def Pc.works (p : ResPtr) (pc : Pc) : Bool := pc.reloads p || pc.slot?.any (·.2 = p)

@[simp] theorem Pc.works_doneReload : (doneReload i j q).works p = decide (q = p) := Bool.or_false _

@[simp] theorem Pc.works_doneCall : (doneCall i j q).works p = decide (q = p) := rfl

@[simp] theorem Pc.works_reloadTask {k : Cont} : (reloadTask q k).works p = decide (q = p) :=
  Bool.or_false _

@[simp] theorem Pc.works_rmFree {k : Cont} : (rmFree j q k).works p = decide (q = p) := rfl

def timeout (rman : Rman) (p : ResPtr) : Option Nat := (rman.heap p).map Resource.reloadTimeout

/-- A resource is in one slot only. -/
def Home (p : ResPtr) (i : Nat) (rman : Rman) : Prop := ∀ j, rman.res[j]? = some (some p) → j = i

theorem timeout_of_heap (h : rman'.heap p = rman.heap p) : timeout rman' p = timeout rman p :=
  congrArg (Option.map Resource.reloadTimeout) h

theorem timeout_of_update {f : Resource → Resource} (h : rman.update q f = some rman')
    (hf : ∀ r, (f r).reloadTimeout = r.reloadTimeout) : timeout rman' p = timeout rman p :=
  map_heap_of_update h hf p

theorem startWatch_timeout {ok : Bool} (h : startWatch rman q o = some (rman', ok)) :
    timeout rman' p = timeout rman p := by
  obtain ⟨r, -, ⟨-, rfl, -⟩ | ⟨-, -, rfl, -⟩ | ⟨fd, nresmap, -, -, -, hup, -⟩⟩ := startWatch_cases h
  · rfl
  · rfl
  · show timeout rman' p = timeout { rman with nresmap } p
    exact timeout_of_update hup fun _ => rfl

theorem workDone_timeout (h : workDone rman q o = some rman') :
    timeout rman' p = timeout rman p := by
  simp only [workDone, Option.bind_eq_bind, Option.bind_eq_some_iff] at h
  obtain ⟨rman₁, hup, r, -, h⟩ := h
  rw [← timeout_of_update hup fun _ => rfl]
  split at h
  · exact timeout_of_update h fun _ => rfl
  · split at h
    · split at h
      · exact timeout_of_update h fun _ => rfl
      · rw [Option.some.inj h]
    · obtain ⟨⟨rman₂, ok⟩, hstart, h⟩ := Option.bind_eq_some_iff.1 h
      obtain rfl := Option.some.inj h
      exact startWatch_timeout hstart

theorem workDone_res (h : workDone rman q o = some rman') : rman'.res = rman.res := by
  obtain ⟨rman₁, hup, hq, -⟩ := workDone_spec h
  exact hq.res.trans (res_of_update hup)

/-! ## The steps of the loop -/

/-- A step that is neither at the head of an iteration nor the end of a reload changes no slot and
no timeout, and stays with the same resource. -/
structure Within (rman : Rman) (pc : Pc) (rman' : Rman) (pc' : Pc) : Prop where
  res : rman'.res = rman.res
  timeout : ∀ p, timeout rman' p = timeout rman p
  passes : ∀ i, pc'.passes i = pc.passes i
  looks : ∀ t j, pc ≠ .doneScan t j
  begun : ∀ t j q, pc ≠ .doneReload t j q
  reload : pc'.reload? = pc.reload?
  reloads : ∀ p, pc'.reloads p = pc.reloads p
  works : ∀ p, pc.works p = false → pc'.works p = false

/-- What a step in the loop can do. -/
inductive ScanStep (rman : Rman) (startTime : Nat) : Pc → Rman → Pc → Prop where
  | stop {j : Nat} (hj : rman.res.length ≤ j) :
      ScanStep rman startTime (.doneScan startTime j) rman .idle
  | empty {j : Nat} (hj : rman.res[j]? = some none) :
      ScanStep rman startTime (.doneScan startTime j) rman (.doneScan startTime (j + 1))
  | skip {j : Nat} {q : ResPtr} (hj : rman.res[j]? = some (some q))
      (hexp : ∀ time, timeout rman q = some time → ¬ Expired time startTime) :
      ScanStep rman startTime (.doneScan startTime j) rman (.doneScan startTime (j + 1))
  | call {j : Nat} {q : ResPtr} {r : Resource} {rman' : Rman} (hj : rman.res[j]? = some (some q))
      (hr : rman.heap q = some r) (hdone : r.donePending = true) (hres : rman'.res = rman.res)
      (htime : ∀ p, timeout rman' p = timeout rman p) :
      ScanStep rman startTime (.doneScan startTime j) rman' (.doneCall startTime j q)
  | late {j : Nat} {q : ResPtr} (hj : rman.res[j]? = some (some q))
      (hdone : ∀ r ∈ rman.heap q, r.donePending = false)
      (hexp : ∀ time, timeout rman q = some time → Expired time startTime) :
      ScanStep rman startTime (.doneScan startTime j) rman (.doneReload startTime j q)
  | cancel {j : Nat} {q : ResPtr} {rman' : Rman} (hres : rman'.res = rman.res)
      (hq : timeout rman' q = some 0) (htime : ∀ p, p ≠ q → timeout rman' p = timeout rman p) :
      ScanStep rman startTime (.doneReload startTime j q) rman'
        (.reloadTask q (.done startTime (j + 1)))
  | within {pc pc' : Pc} {rman' : Rman} (h : Within rman pc rman' pc') :
      ScanStep rman startTime pc rman' pc'
  | free {j : Nat} {q : ResPtr} {k : Cont} {rman' : Rman} (hres : rman'.res = rman.res.set j none)
      (htime : ∀ p, p ≠ q → timeout rman' p = timeout rman p) :
      ScanStep rman startTime (.rmFree j q k) rman' k.resume

theorem doneScan_scanStep (h : doneScan rman startTime j = some (rman', pc')) :
    ScanStep rman startTime (.doneScan startTime j) rman' pc' := by
  unfold doneScan at h
  split at h
  · next hj =>
    obtain ⟨rfl, rfl⟩ := Prod.mk.inj (Option.some.inj h)
    exact .stop (List.getElem?_eq_none_iff.1 hj)
  · next hj =>
    obtain ⟨rfl, rfl⟩ := Prod.mk.inj (Option.some.inj h)
    exact .empty hj
  · next q hj =>
    simp only [Option.bind_eq_bind, Option.bind_eq_some_iff] at h
    obtain ⟨r, hr, h⟩ := h
    have htime : ∀ time, timeout rman q = some time → time = r.reloadTimeout := by
      intro time ht
      rw [timeout, hr] at ht
      exact (Option.some.inj ht).symm
    split at h
    · next hdone =>
      obtain ⟨rman₁, hup, h⟩ := Option.bind_eq_some_iff.1 h
      obtain ⟨rfl, rfl⟩ := Prod.mk.inj (Option.some.inj h)
      exact .call hj hr hdone (res_of_update hup) fun p => timeout_of_update hup fun _ => rfl
    · next hdone =>
      split at h
      · next hexp =>
        obtain ⟨rfl, rfl⟩ := Prod.mk.inj (Option.some.inj h)
        refine .late hj (fun r₁ hr₁ => ?_) fun time ht => htime time ht ▸ hexp
        obtain rfl := Option.some.inj (hr.symm.trans hr₁)
        exact Bool.eq_false_iff.2 hdone
      · next hexp =>
        obtain ⟨rfl, rfl⟩ := Prod.mk.inj (Option.some.inj h)
        exact .skip hj fun time ht => htime time ht ▸ hexp

/-- **The cases of a step in the loop** that does not stop on the timeslice. -/
theorem scanStep_cases (hscan : pc.inScan startTime) (hslice : stopsAt rman o pc = none)
    (h : localStep rman o pc = some (rman', pc')) : ScanStep rman startTime pc rman' pc' := by
  cases pc with
  | idle | reloadEnq => cases h
  | reloadTask q k =>
    obtain ⟨rfl, rfl⟩ := Prod.mk.inj (Option.some.inj h)
    refine .within ⟨?_, fun p => ?_, fun _ => rfl, nofun, nofun, rfl, fun _ => rfl, fun _ h => h⟩
    · exact allocTask_quiet.res
    · exact timeout_of_heap (congrFun allocTask_heap p)
  | reloadFlag q t k =>
    obtain ⟨rman₁, hup, heq⟩ := Option.map_eq_some_iff.1 h
    obtain ⟨rfl, rfl⟩ := Prod.mk.inj heq
    exact .within ⟨res_of_update hup, fun p => timeout_of_update hup fun _ => rfl,
      fun _ => rfl, nofun, nofun, rfl, fun _ => rfl, fun _ h => h⟩
  | rmStop j q k =>
    obtain ⟨rman₁, hstop, heq⟩ := Option.map_eq_some_iff.1 h
    obtain ⟨rfl, rfl⟩ := Prod.mk.inj heq
    obtain ⟨r, -, ⟨-, rfl⟩ | ⟨nresmap, calls, -, -, rfl⟩⟩ := stopWatch_cases hstop
    · exact .within ⟨rfl, fun _ => rfl, fun _ => rfl, nofun, nofun, rfl, fun _ => rfl, fun _ h => h⟩
    · exact .within ⟨rfl, fun _ => rfl, fun _ => rfl, nofun, nofun, rfl, fun _ => rfl, fun _ h => h⟩
  | rmCall j q k =>
    obtain ⟨rfl, rfl⟩ := Prod.mk.inj (Option.some.inj h)
    refine .within ⟨callDestroy_res j, fun p => ?_, fun _ => rfl, nofun, nofun, rfl,
      fun _ => rfl, fun _ h => h⟩
    unfold callDestroy
    split <;> rfl
  | rmFree j q k =>
    obtain ⟨rman₁, hfree, heq⟩ := Option.map_eq_some_iff.1 h
    obtain ⟨rfl, rfl⟩ := Prod.mk.inj heq
    obtain ⟨r, -, hfree⟩ := Option.bind_eq_some_iff.1 hfree
    obtain rfl := Option.some.inj hfree
    exact .free rfl fun p hp => timeout_of_heap (Function.update_of_ne hp ..)
  | doneScan t j =>
    obtain rfl : t = startTime := hscan
    exact doneScan_scanStep h
  | doneReload t j q =>
    obtain rfl : t = startTime := hscan
    obtain ⟨rman₁, hup, heq⟩ := Option.map_eq_some_iff.1 h
    obtain ⟨rfl, rfl⟩ := Prod.mk.inj heq
    obtain ⟨r, -, rfl⟩ := heap_of_update hup
    refine .cancel rfl ?_ fun p hp => timeout_of_heap (Function.update_of_ne hp ..)
    show (Function.update rman.heap q _ q).map Resource.reloadTimeout = some 0
    rw [Function.update_self]
    rfl
  | doneCall t j q =>
    obtain rfl : t = startTime := hscan
    have hgo : pc' ≠ .idle := by
      intro hidle
      rw [(doneReturn_idle_iff h).1 hidle] at hslice
      cases hslice
    have hworks (p : ResPtr) (k : Nat) : (Pc.doneScan t k).works p = false := rfl
    obtain ⟨r, hr, ⟨-, -, rfl, rfl⟩ | ⟨-, ⟨rman₁, ok, hup, hstart⟩, hpc⟩⟩ := doneReturn_spec h
    · exact .within ⟨rfl, fun _ => rfl, fun _ => rfl, nofun, nofun, rfl, fun _ => rfl, fun _ h => h⟩
    · split at hpc
      · exact absurd hpc hgo
      · subst hpc
        refine .within ⟨?_, fun p => ?_, fun _ => rfl, nofun, nofun, rfl, fun _ => rfl,
          fun p _ => hworks p _⟩
        · exact (startWatch_quiet hstart).res.trans (res_of_update hup)
        · rw [startWatch_timeout hstart]
          exact timeout_of_update hup fun _ => rfl
  | _ => exact absurd hscan id

theorem Cont.inScan_resume {k : Cont} (h : k.inScan startTime) : k.resume.inScan startTime := by
  cases k with
  | done => exact h
  | add | modset | del => exact absurd h id

/-- The client stays in the loop. -/
theorem inScan_of_localStep (hscan : pc.inScan startTime)
    (h : localStep rman o pc = some (rman', pc')) :
    pc'.inScan startTime := by
  cases localStep_cases h with
  | reloadTask | reloadFlag | rmStop | rmCall | doneSkip | doneTake | doneLate
  | doneReload | doneFail =>
    exact hscan
  | rmFree => exact Cont.inScan_resume hscan
  | doneEnd => trivial
  | doneOk _ _ hpc =>
    rcases hpc with rfl | rfl
    · trivial
    · exact hscan
  | _ => exact absurd hscan id

theorem ScanStep.home (h : ScanStep rman startTime pc rman' pc') (hhome : Home p i rman) :
    Home p i rman' := by
  cases h with
  | stop | empty | skip | late => exact hhome
  | call _ _ _ hres | cancel hres => exact fun j hj => hhome j (hres ▸ hj)
  | within hw => exact fun j hj => hhome j (hw.res ▸ hj)
  | @free j' q k _ hres =>
    intro j hj
    rw [hres] at hj
    by_cases hjj : j' = j
    · subst hjj
      rw [List.getElem?_set_self'] at hj
      cases hslot : rman.res[j']? with
      | none =>
        rw [hslot] at hj
        cases hj
      | some slot =>
        rw [hslot] at hj
        cases hj
    · rw [List.getElem?_set_ne hjj] at hj
      exact hhome j hj

/-- Behind its slot the client does not begin to work on the resource again. -/
theorem ScanStep.settled (h : ScanStep rman startTime pc rman' pc') (hhome : Home p i rman)
    (hpass : pc.passes i = true) (hreloads : pc.reloads p = false) :
    pc'.passes i = true ∧ pc'.reloads p = false ∧
      (pc.works p = false → pc'.works p = false ∧ timeout rman' p = timeout rman p) := by
  have hother {j : Nat} {q : ResPtr} (hj : rman.res[j]? = some (some q))
      (hpass : (Pc.doneScan startTime j).passes i = true) : q ≠ p := by
    rintro rfl
    have hij := of_decide_eq_true hpass
    have hji := hhome j hj
    omega
  have hnext {j : Nat} (hpass : (Pc.doneScan startTime j).passes i = true) :
      decide (i < j + 1) = true :=
    decide_eq_true (Nat.lt_succ_of_lt (of_decide_eq_true hpass))
  cases h with
  | stop => exact ⟨rfl, rfl, fun _ => ⟨rfl, rfl⟩⟩
  | empty | skip => exact ⟨hnext hpass, rfl, fun _ => ⟨rfl, rfl⟩⟩
  | call hj _ _ _ htime =>
    have hne := hother hj hpass
    exact ⟨hnext hpass, rfl, fun _ => ⟨by simp [hne], htime p⟩⟩
  | late hj =>
    have hne := hother hj hpass
    exact ⟨hnext hpass, by simp [Pc.reloads, hne],
      fun _ => ⟨by simp [hne], rfl⟩⟩
  | @cancel j q _ _ _ htime =>
    have hne : q ≠ p := of_decide_eq_false hreloads
    exact ⟨hpass, by simp [Pc.reloads, Pc.reload?, hne],
      fun _ => ⟨by simp [hne], htime p (Ne.symm hne)⟩⟩
  | within hw =>
    exact ⟨(hw.passes i).trans hpass, (hw.reloads p).trans hreloads,
      fun hworks => ⟨hw.works p hworks, hw.timeout p⟩⟩
  | @free j q k _ _ htime =>
    refine ⟨k.passes_resume.trans hpass, ?_, fun hworks => ⟨?_, ?_⟩⟩
    · cases k <;> rfl
    · cases k <;> rfl
    · have hne : q ≠ p := by simpa using hworks
      exact htime p (Ne.symm hne)

/-- Before its slot the client does not work on the resource, and then it looks at the slot. -/
theorem ScanStep.ahead (h : ScanStep rman startTime pc rman' pc') (hhome : Home p i rman)
    (hhere : ∀ j q, pc.slot? = some (j, q) → rman.res[j]? = some (some q))
    (hpass : pc.passes i = false) (hworks : pc.works p = false)
    (hslot : rman.res[i]? = some (some p)) (htime : timeout rman p = some time) :
    ((∀ t, pc ≠ .doneScan t i) ∧ pc'.passes i = false ∧ pc'.works p = false ∧
        rman'.res[i]? = some (some p) ∧ timeout rman' p = some time) ∨
      (pc'.passes i = true ∧ pc'.reloads p = false ∧ ¬ Expired time startTime) ∨
      (pc = .doneScan startTime i ∧ pc'.passes i = true ∧ pc'.reloads p = false ∧
        ∃ r ∈ rman.heap p, r.donePending = true) ∨
      pc' = .doneReload startTime i p ∧ Expired time startTime ∧
      ∀ r ∈ rman.heap p, r.donePending = false := by
  have hle {j : Nat} (hpass : (Pc.doneScan startTime j).passes i = false) : j ≤ i :=
    Nat.not_lt.1 (of_decide_eq_false hpass)
  have hlt {j : Nat} (hj : j ≤ i) (hne : j ≠ i) : decide (i < j + 1) = false :=
    decide_eq_false (by omega)
  have hscan {j : Nat} (hne : j ≠ i) (t : Nat) : Pc.doneScan startTime j ≠ .doneScan t i := by
    simp [hne]
  cases h with
  | stop hj =>
    have hi := (List.getElem?_eq_some_iff.1 hslot).1
    have hji := hle hpass
    omega
  | @empty j hj =>
    have hne : j ≠ i := by
      rintro rfl
      rw [hslot] at hj
      cases hj
    exact .inl ⟨hscan hne, hlt (hle hpass) hne, rfl, hslot, htime⟩
  | @skip j q hj hexp =>
    by_cases hne : j = i
    · subst hne
      obtain rfl := Option.some.inj (Option.some.inj (hslot.symm.trans hj))
      exact .inr (.inl ⟨decide_eq_true (Nat.lt_succ_self j), rfl, hexp time htime⟩)
    · exact .inl ⟨hscan hne, hlt (hle hpass) hne, rfl, hslot, htime⟩
  | @call j q r _ hj hr hdone hres htime' =>
    by_cases hne : j = i
    · subst hne
      obtain rfl := Option.some.inj (Option.some.inj (hslot.symm.trans hj))
      exact .inr (.inr (.inl ⟨rfl, decide_eq_true (Nat.lt_succ_self j), rfl, r, hr, hdone⟩))
    · have hqp : q ≠ p := by
        rintro rfl
        exact hne (hhome j hj)
      exact .inl ⟨hscan hne, hlt (hle hpass) hne, by simp [hqp],
        hres ▸ hslot, (htime' p).trans htime⟩
  | @late j q hj hdone hexp =>
    by_cases hne : j = i
    · subst hne
      obtain rfl := Option.some.inj (Option.some.inj (hslot.symm.trans hj))
      exact .inr (.inr (.inr ⟨rfl, hexp time htime, hdone⟩))
    · have hqp : q ≠ p := by
        rintro rfl
        exact hne (hhome j hj)
      exact .inl ⟨hscan hne, hlt (hle hpass) hne, by simp [hqp], hslot, htime⟩
  | @cancel j q _ hres _ htime' =>
    have hqp : q ≠ p := by simpa using hworks
    exact .inl ⟨nofun, hpass, by simp [hqp], hres ▸ hslot,
      (htime' p (Ne.symm hqp)).trans htime⟩
  | within hw =>
    exact .inl ⟨fun t => hw.looks t _, (hw.passes i).trans hpass, hw.works p hworks, hw.res ▸ hslot,
      (hw.timeout p).trans htime⟩
  | @free j q k _ hres htime' =>
    have hqp : q ≠ p := by simpa using hworks
    have hne : j ≠ i := by
      rintro rfl
      exact hqp (Option.some.inj (Option.some.inj ((hhere j q rfl).symm.trans hslot)))
    refine .inl ⟨nofun, k.passes_resume.trans hpass, ?_, ?_, (htime' p (Ne.symm hqp)).trans htime⟩
    · cases k <;> rfl
    · rw [hres, List.getElem?_set_ne hne, hslot]

/-! ## The fate of a resource -/

/-- Where a resource with this slot and this timeout is, with so many jobs since the start: the loop
has not come to it; its reload begins; it is reloaded; it has been reloaded, or there was no memory;
its delayed reload is not due; a `done_func` call was pending for it. -/
inductive Fate (p : ResPtr) (i startTime time : Nat) (c : Client) (cnt : Nat) (given none : Prop) :
    Prop where
  | ahead (hpass : c.pc.passes i = false) (hworks : c.pc.works p = false)
      (hslot : c.rman.res[i]? = some (some p)) (htime : timeout c.rman p = some time)
      (hcnt : cnt = 0) (hgiven : given) (hnone : none)
  | late (hpc : c.pc = .doneReload startTime i p) (hexp : Expired time startTime) (hcnt : cnt = 0)
      (hgiven : given) (hnone : none)
  | reloading (hpc : c.pc.reload? = some (p, .done startTime (i + 1)))
      (hexp : Expired time startTime) (htime : timeout c.rman p = some 0) (hcnt : cnt = 0)
      (hgiven : given) (hnone : none)
  | reloaded (hpass : c.pc.passes i = true) (hworks : c.pc.works p = false)
      (hexp : Expired time startTime) (htime : timeout c.rman p = some 0)
      (hcnt : cnt = 1) (hgiven : given)
  | lost (hpass : c.pc.passes i = true) (hreloads : c.pc.reloads p = false)
      (hexp : Expired time startTime) (hcnt : cnt = 0) (hgiven : ¬ given) (hnone : none)
  | inTime (hpass : c.pc.passes i = true) (hreloads : c.pc.reloads p = false)
      (hexp : ¬ Expired time startTime) (hcnt : cnt = 0) (hgiven : given)
  | called (hpass : c.pc.passes i = true) (hreloads : c.pc.reloads p = false)
      (hcnt : cnt = 0) (hgiven : given) (hnone : ¬ none)

section Fate

variable {given given' none none' : Prop}

theorem reloads_of_works (h : pc.works p = false) : pc.reloads p = false :=
  (Bool.or_eq_false_iff.1 h).1

/-- A step in the loop. -/
theorem Fate.local (h : Fate p i startTime time ⟨rman, pc⟩ cnt given none)
    (hs : ScanStep rman startTime pc rman' pc') (hhome : Home p i rman)
    (hhere : ∀ j q, pc.slot? = some (j, q) → rman.res[j]? = some (some q)) (hgiven : given' ↔ given)
    (hnone : none' ↔ none ∧ ∀ t j, pc = .doneScan t j → rman.res[j]? = some (some p) →
      ∀ r ∈ rman.heap p, r.donePending = false) :
    Fate p i startTime time ⟨rman', pc'⟩ cnt given' none' := by
  cases h with
  | ahead hpass hworks hslot htime hcnt hg hn =>
    rcases hs.ahead hhome hhere hpass hworks hslot htime with
      ⟨hpc, hpass', hworks', hslot', htime'⟩ |
      ⟨hpass', hreloads', hexp⟩ | ⟨hpc, hpass', hreloads', r, hr, hdone⟩ | ⟨hpc', hexp, hdone⟩
    · refine .ahead hpass' hworks' hslot' htime' hcnt (hgiven.2 hg)
        (hnone.2 ⟨hn, fun t j hj hp => ?_⟩)
      obtain rfl := hhome j hp
      exact absurd hj (hpc t)
    · exact .inTime hpass' hreloads' hexp hcnt (hgiven.2 hg)
    · refine .called hpass' hreloads' hcnt (hgiven.2 hg) fun hn => ?_
      rw [(hnone.1 hn).2 _ _ hpc hslot r hr] at hdone
      cases hdone
    · exact .late hpc' hexp hcnt (hgiven.2 hg) (hnone.2 ⟨hn, fun _ _ _ _ => hdone⟩)
  | late hpc hexp hcnt hg hn =>
    obtain rfl : pc = .doneReload startTime i p := hpc
    have hn' : none' := hnone.2 ⟨hn, nofun⟩
    cases hs with
    | cancel _ hq => exact .reloading rfl hexp hq hcnt (hgiven.2 hg) hn'
    | within hw => exact absurd rfl (hw.begun _ _ _)
  | reloading hpc hexp htime hcnt hg hn =>
    have hn' : none' := hnone.2 ⟨hn, fun t j hj => by (subst hj; cases hpc)⟩
    cases hs with
    | within hw =>
      exact .reloading (hw.reload.trans hpc) hexp ((hw.timeout p).trans htime) hcnt
        (hgiven.2 hg) hn'
    | stop | empty | skip | call | late | cancel | free => cases hpc
  | reloaded hpass hworks hexp htime hcnt hg =>
    obtain ⟨hpass', -, hrest⟩ := hs.settled hhome hpass (reloads_of_works hworks)
    obtain ⟨hworks', htime'⟩ := hrest hworks
    exact .reloaded hpass' hworks' hexp (htime'.trans htime) hcnt (hgiven.2 hg)
  | lost hpass hreloads hexp hcnt hg hn =>
    obtain ⟨hpass', hreloads', -⟩ := hs.settled hhome hpass hreloads
    refine .lost hpass' hreloads' hexp hcnt (fun hg' => hg (hgiven.1 hg'))
      (hnone.2 ⟨hn, fun t j hj hp => ?_⟩)
    obtain rfl := hhome j hp
    subst hj
    exact absurd (of_decide_eq_true hpass) (Nat.lt_irrefl _)
  | inTime hpass hreloads hexp hcnt hg =>
    obtain ⟨hpass', hreloads', -⟩ := hs.settled hhome hpass hreloads
    exact .inTime hpass' hreloads' hexp hcnt (hgiven.2 hg)
  | called hpass hreloads hcnt hg hn =>
    obtain ⟨hpass', hreloads', -⟩ := hs.settled hhome hpass hreloads
    exact .called hpass' hreloads' hcnt (hgiven.2 hg) fun hn' => hn (hnone.1 hn').1

/-- The end of a reload. -/
theorem Fate.enqueue {t : TaskPtr} {k : Cont}
    (h : Fate p i startTime time ⟨rman, .reloadEnq q t k⟩ cnt given none)
    (hgiven : given' ↔ given ∧ (q = p → o.mem = true)) (hnone : none' ↔ none) :
    Fate p i startTime time ⟨rman, k.resume⟩ (cnt + if q = p ∧ o.mem = true then 1 else 0)
      given' none' := by
  have hresume : k.resume.works p = false := by cases k <;> rfl
  have hother (hne : q ≠ p) : (given' ↔ given) ∧
      cnt + (if q = p ∧ o.mem = true then 1 else 0) = cnt := by
    refine ⟨hgiven.trans (and_iff_left fun hq => absurd hq hne), ?_⟩
    rw [if_neg fun hq => hne hq.1, Nat.add_zero]
  have hne (hreloads : (Pc.reloadEnq q t k).reloads p = false) : q ≠ p :=
    of_decide_eq_false hreloads
  cases h with
  | ahead hpass hworks hslot htime hcnt hg hn =>
    obtain ⟨hiff, hsame⟩ := hother (hne (reloads_of_works hworks))
    rw [hsame]
    exact .ahead (k.passes_resume.trans hpass) hresume hslot htime hcnt (hiff.2 hg) (hnone.2 hn)
  | late hpc => cases hpc
  | reloading hpc hexp htime hcnt hg hn =>
    -- the one job of the resource, or none for want of memory
    obtain ⟨rfl, rfl⟩ := Prod.mk.inj (Option.some.inj hpc)
    have hpass : (Pc.doneScan startTime (i + 1)).passes i = true :=
      decide_eq_true (Nat.lt_succ_self i)
    cases hmem : o.mem with
    | true => exact .reloaded hpass rfl hexp htime (by simp [hcnt]) (hgiven.2 ⟨hg, fun _ => hmem⟩)
    | false =>
      refine .lost hpass rfl hexp (by simp [hcnt]) (fun hg' => ?_) (hnone.2 hn)
      rw [(hgiven.1 hg').2 rfl] at hmem
      cases hmem
  | reloaded hpass hworks hexp htime hcnt hg =>
    obtain ⟨hiff, hsame⟩ := hother (hne (reloads_of_works hworks))
    rw [hsame]
    exact .reloaded (k.passes_resume.trans hpass) hresume hexp htime hcnt (hiff.2 hg)
  | lost hpass hreloads hexp hcnt hg hn =>
    obtain ⟨hiff, hsame⟩ := hother (hne hreloads)
    rw [hsame]
    exact .lost (k.passes_resume.trans hpass) (reloads_of_works hresume) hexp hcnt
      (fun hg' => hg (hiff.1 hg')) (hnone.2 hn)
  | inTime hpass hreloads hexp hcnt hg =>
    obtain ⟨hiff, hsame⟩ := hother (hne hreloads)
    rw [hsame]
    exact .inTime (k.passes_resume.trans hpass) (reloads_of_works hresume) hexp hcnt (hiff.2 hg)
  | called hpass hreloads hcnt hg hn =>
    obtain ⟨hiff, hsame⟩ := hother (hne hreloads)
    rw [hsame]
    exact .called (k.passes_resume.trans hpass) (reloads_of_works hresume) hcnt (hiff.2 hg)
      fun hn' => hn (hnone.1 hn')

/-- A step of someone else. -/
theorem Fate.frame (h : Fate p i startTime time ⟨rman, pc⟩ cnt given none)
    (hres : rman'.res = rman.res) (htime : timeout rman' p = timeout rman p)
    (hgiven : given' ↔ given) (hnone : none' ↔ none) :
    Fate p i startTime time ⟨rman', pc⟩ cnt given' none' := by
  rw [hgiven, hnone]
  cases h with
  | ahead hpass hworks hslot ht hcnt hg hn =>
    exact .ahead hpass hworks ((congrArg (·[i]?) hres).trans hslot) (htime.trans ht) hcnt hg hn
  | late hpc hexp hcnt hg hn => exact .late hpc hexp hcnt hg hn
  | reloading hpc hexp ht hcnt hg hn => exact .reloading hpc hexp (htime.trans ht) hcnt hg hn
  | reloaded hpass hworks hexp ht hcnt hg =>
    exact .reloaded hpass hworks hexp (htime.trans ht) hcnt hg
  | lost hpass hreloads hexp hcnt hg hn => exact .lost hpass hreloads hexp hcnt hg hn
  | inTime hpass hreloads hexp hcnt hg => exact .inTime hpass hreloads hexp hcnt hg
  | called hpass hreloads hcnt hg hn => exact .called hpass hreloads hcnt hg hn

/-- At the end of the call. -/
theorem Fate.ended (h : Fate p i startTime time ⟨rman, .idle⟩ cnt given none) :
    (Expired time startTime → none → given → cnt = 1 ∧ timeout rman p = some 0) ∧
      (¬ Expired time startTime → cnt = 0) ∧
      (¬ given → Expired time startTime ∧ none ∧ cnt = 0) := by
  cases h with
  | ahead hpass => cases hpass
  | late hpc => cases hpc
  | reloading hpc => cases hpc
  | reloaded _ _ hexp htime hcnt hg =>
    exact ⟨fun _ _ _ => ⟨hcnt, htime⟩, fun hnot => absurd hexp hnot, fun hnot => absurd hg hnot⟩
  | lost _ _ hexp hcnt hg hn =>
    exact ⟨fun _ _ hgiven => absurd hgiven hg, fun _ => hcnt, fun _ => ⟨hexp, hn, hcnt⟩⟩
  | inTime _ _ hexp hcnt hg =>
    exact ⟨fun h => absurd h hexp, fun _ => hcnt, fun hnot => absurd hg hnot⟩
  | called _ _ hcnt hg hn =>
    exact ⟨fun _ h => absurd h hn, fun _ => hcnt, fun hnot => absurd hg hnot⟩

end Fate

/-! ## Runs -/

theorem count_clientNotes :
    (clientNotes m o pc pc').count (.enqueued m p) =
      if pc.enqueues p = true ∧ o.mem = true then 1 else 0 := by
  have hzero (henq : pc.enqueues p = false) :
      (clientNotes m o pc pc').count (.enqueued m p) = 0 := by
    refine List.count_eq_zero.2 fun hn => ?_
    generalize hq : Note.enqueued m p = n at hn
    cases clientNotes_cases hn with
    | enqueued =>
      obtain ⟨-, rfl⟩ := Note.enqueued.inj hq
      exact absurd rfl (of_decide_eq_false henq)
    | _ => cases hq
  cases henq : pc.enqueues p with
  | false => rw [hzero henq, if_neg (by simp)]
  | true =>
    cases pc with
    | reloadEnq q t k =>
      obtain rfl : p = q := of_decide_eq_true henq
      by_cases hmem : o.mem <;> simp [clientNotes, hmem]
    | _ => cases henq

/-- Only the end of a reload enqueues a job. -/
theorem count_enqueued (hv : NoteStep m a c c' ns)
    (henq : a.client? = some m → c.pc.enqueues p = false) :
    ns.count (.enqueued m p) = 0 := by
  cases hv with
  | frame _ hns => exact List.count_eq_zero.2 fun hn => hns _ hn rfl
  | call =>
    refine List.count_eq_zero.2 fun hn => ?_
    generalize hq : Note.enqueued m p = n at hn
    cases callNotes_cases hn <;> cases hq
  | client | pool => rw [count_clientNotes, henq rfl, if_neg (by simp)]
  | taken | returned => rfl
  | completed =>
    refine List.count_eq_zero.2 fun hn => ?_
    rcases completionNotes_cases hn with heq | ⟨heq, -⟩ <;> cases heq

theorem reloadGiven_client (hc : s.clients m = some c) :
    ReloadGiven m p (s, ns) (.client m o) ↔ (c.pc.enqueues p = true → o.mem = true) :=
  ⟨fun h => h rfl c hc, fun h _ _ hc' => Option.some.inj (hc.symm.trans hc') ▸ h⟩

theorem noneDone_client (hc : s.clients m = some c) :
    NoneDone m p (s, ns) (.client m o) ↔ ∀ t j, c.pc = .doneScan t j →
      c.rman.res[j]? = some (some p) →
      ∀ r ∈ c.rman.heap p, r.donePending = false :=
  ⟨fun h => h rfl c hc, fun h _ _ hc' => Option.some.inj (hc.symm.trans hc') ▸ h⟩

/-- The conditions say nothing about the steps of others. -/
theorem conditions_of_other (ha : a.client? ≠ some m) :
    ReloadGiven m p (s, ns) a ∧ NoneDone m p (s, ns) a := by
  cases a with
  | client => exact ⟨fun hm => absurd (congrArg some hm) ha, fun hm => absurd (congrArg some hm) ha⟩
  | create | call | worker => exact ⟨trivial, trivial⟩

/-- What is known of the client of `m` and of a resource since the start time of the call. -/
def Followed (m : MgrPtr) (p : ResPtr) (i startTime time : Nat) (x : Sys × List Note)
    (given none : Prop) :
    Prop :=
  ∃ c, x.1.clients m = some c ∧ c.pc.inScan startTime ∧ Home p i c.rman ∧
    Fate p i startTime time c (x.2.count (.enqueued m p)) given none

theorem Followed.step {given none : Prop} (h : Followed m p i startTime time (s, ns) given none)
    (hcall : ∀ f, a ≠ .call m f) (hslice : SliceLeft m (s, ns) a)
    (hindexed : ∀ c, s.clients m = some c → Indexed c) (hs : step s a = some s') :
    Followed m p i startTime time (s', notes s a s' ++ ns) (given ∧ ReloadGiven m p (s, ns) a)
      (none ∧ NoneDone m p (s, ns) a) := by
  obtain ⟨c, hc, hscan, hhome, hfate⟩ := h
  obtain ⟨c', hc', hv⟩ := step_notes hs hc
  have hsame (henq : a.client? = some m → c.pc.enqueues p = false) :
      (notes s a s' ++ ns).count (.enqueued m p) = ns.count (.enqueued m p) := by
    rw [List.count_append, count_enqueued hv henq, Nat.zero_add]
  refine ⟨c', hc', ?_⟩
  generalize notes s a s' = new at hv hsame
  cases hv with
  | frame ha =>
    obtain ⟨hg, hn⟩ : ReloadGiven m p (s, ns) a ∧ NoneDone m p (s, ns) a := conditions_of_other ha
    refine ⟨hscan, hhome, ?_⟩
    show Fate p i startTime time c ((new ++ ns).count _) _ _
    rw [hsame fun heq => absurd heq ha]
    exact hfate.frame rfl rfl (and_iff_left hg) (and_iff_left hn)
  | call => exact absurd rfl (hcall _)
  | @client o rman rman' pc pc' hlocal =>
    have hstep := scanStep_cases hscan (hslice rfl _ hc) hlocal
    have henq : pc.enqueues p = false := by
      cases pc with
      | reloadEnq => cases hlocal
      | _ => rfl
    refine ⟨inScan_of_localStep hscan hlocal, hstep.home hhome, ?_⟩
    show Fate p i startTime time ⟨rman', pc'⟩ ((clientNotes m o pc pc' ++ ns).count _) _ _
    rw [hsame fun _ => henq]
    refine hfate.local hstep hhome (hindexed _ hc).here ?_
      (and_congr_right fun _ => noneDone_client hc)
    exact and_iff_left ((reloadGiven_client hc).2 fun h => by simp [henq] at h)
  | @pool o rman pool pool' pc pc' hpool =>
    obtain ⟨q, t, k, rfl, rfl⟩ : ∃ q t k, pc = .reloadEnq q t k ∧ pc' = k.resume := by
      cases poolStep_cases hpool with
      | enqueue | lost => exact ⟨_, _, _, rfl, rfl⟩
      | drain | release | clear | quit | join => exact absurd hscan id
    have hq : (Pc.reloadEnq q t k).enqueues p = true ↔ q = p := decide_eq_true_iff.trans eq_comm
    refine ⟨Cont.inScan_resume hscan, hhome, ?_⟩
    show Fate p i startTime time ⟨rman, k.resume⟩
      ((clientNotes m o (.reloadEnq q t k) k.resume ++ ns).count _) _ _
    simp only [List.count_append, count_clientNotes, hq]
    rw [Nat.add_comm]
    refine hfate.enqueue (and_congr_right fun _ => ?_) (and_iff_left ?_)
    · rw [reloadGiven_client hc, hq]
    · exact (noneDone_client hc).2 fun t j hpc => by cases hpc
  | @taken w o rman pc t =>
    refine ⟨hscan, hhome, ?_⟩
    exact hfate.frame rfl rfl (and_iff_left trivial) (and_iff_left trivial)
  | @returned w o rman rman' pc q hup =>
    have hres := res_of_update hup
    refine ⟨hscan, fun j hj => hhome j (hres ▸ hj), ?_⟩
    show Fate p i startTime time ⟨rman', pc⟩ (([Note.loadReturned w m q o.ret] ++ ns).count _) _ _
    rw [hsame nofun]
    exact hfate.frame hres (timeout_of_update hup fun _ => rfl) (and_iff_left trivial)
      (and_iff_left trivial)
  | @completed w o rman rman' pc q _ hdone =>
    have hres := workDone_res hdone
    refine ⟨hscan, fun j hj => hhome j (hres ▸ hj), ?_⟩
    show Fate p i startTime time ⟨rman', pc⟩ ((completionNotes w m rman q ++ ns).count _) _ _
    rw [hsame nofun]
    exact hfate.frame hres (workDone_timeout hdone) (and_iff_left trivial) (and_iff_left trivial)

/-- In a run of the loop that does not stop on the timeslice. -/
theorem followed_of_run {numThreads : Nat} {pre as : List Action} {x : Sys × List Note}
    (hpre : exec step (.initial numThreads) pre = some s)
    (h : Followed m p i startTime time (s, []) True True) (hcall : ∀ a ∈ as, ∀ f, a ≠ .call m f)
    (hslice : Along trace (SliceLeft m) (s, []) as) (hrun : exec trace (s, []) as = some x) :
    Followed m p i startTime time x (Along trace (ReloadGiven m p) (s, []) as)
      (Along trace (NoneDone m p) (s, []) as) := by
  have hcall' : Along trace (fun _ a => ∀ f, a ≠ .call m f) (s, []) as :=
    along_of_forall_mem fun a ha _ => hcall a ha
  refine exec_snoc_induction (C := fun x a => (∀ f, a ≠ .call m f) ∧ SliceLeft m x a)
    (P := fun as x => Followed m p i startTime time x (Along trace (ReloadGiven m p) (s, []) as)
      (Along trace (NoneDone m p) (s, []) as)) h ?_ (hcall'.and hslice) hrun
  rintro as ⟨s₁, es⟩ a ⟨s₂, es'⟩ hexec hI ⟨hnocall, hleft⟩ hs
  obtain ⟨hs', rfl⟩ := record_eq_some.1 hs
  have hreach : exec step (.initial numThreads) (pre ++ as) = some s₁ := by
    rw [exec_append, hpre]
    exact exec_record hexec
  rw [along_snoc hexec, along_snoc hexec]
  exact hI.step hnocall hleft (fun c hc => indexed_of_run hreach hc) hs'

/-- What has become of a live resource when the loop has ended. -/
theorem fate_of_run {numThreads : Nat} {pre as : List Action} {r : Resource}
    (hpre : exec step (.initial numThreads) pre = some s)
    (hc : s.clients m = some ⟨rman, .doneScan startTime 0⟩) (hr : rman.heap p = some r)
    (hcall : ∀ a ∈ as, ∀ f, a ≠ .call m f) (hslice : Along trace (SliceLeft m) (s, []) as)
    (hrun : exec trace (s, []) as = some (s', ns)) (hc' : s'.clients m = some ⟨rman', .idle⟩) :
    Fate p r.id startTime r.reloadTimeout ⟨rman', .idle⟩ (ns.count (.enqueued m p))
      (Along trace (ReloadGiven m p) (s, []) as) (Along trace (NoneDone m p) (s, []) as) := by
  have hindexed : Indexed ⟨rman, .doneScan startTime 0⟩ := indexed_of_run hpre hc
  obtain ⟨-, hslot⟩ := hindexed.table.live p r hr
  have hhome : Home p r.id rman := fun j hj =>
    hindexed.table.slot_inj (Nat.zero_le _) (Nat.zero_le _) hj hslot
  have hstart : Followed m p r.id startTime r.reloadTimeout (s, []) True True :=
    ⟨_, hc, rfl, hhome, .ahead rfl rfl hslot (congrArg _ hr) rfl trivial trivial⟩
  obtain ⟨c, hend, -, -, hfate⟩ := followed_of_run hpre hstart hcall hslice hrun
  obtain rfl := Option.some.inj (hc'.symm.trans hend)
  exact hfate

/-- The start time is taken, if there is a `done_func`. -/
theorem doneStart_step (hc : s.clients m = some ⟨rman, .doneStart⟩)
    (hs : step s (.client m o) = some s') :
    s'.clients m = some ⟨rman, if rman.doneFunc then .doneScan o.now 0 else .idle⟩ ∧
      notes s (.client m o) s' = [] := by
  obtain ⟨c', hc', hv⟩ := step_notes hs hc
  generalize notes s (.client m o) s' = new at hv
  cases hv with
  | frame ha => exact absurd rfl ha
  | client hlocal =>
    obtain ⟨rfl, rfl⟩ := Prod.mk.inj (Option.some.inj hlocal)
    exact ⟨hc', rfl⟩
  | pool hpool => cases hpool

/-- Between two calls nothing is scanned and no job enqueued. -/
theorem idle_of_run {as : List Action} {x : Sys × List Note} (hc : s.clients m = some c)
    (hpc : c.pc = .idle) (hcall : ∀ a ∈ as, ∀ f, a ≠ .call m f)
    (hrun : exec trace (s, []) as = some x) :
    (∃ c, x.1.clients m = some c ∧ c.pc = .idle) ∧ x.2.count (.enqueued m p) = 0 ∧
      Along trace (ReloadGiven m p) (s, []) as ∧ Along trace (NoneDone m p) (s, []) as := by
  refine exec_snoc_induction (C := fun _ a => ∀ f, a ≠ .call m f)
    (P := fun as x => (∃ c, x.1.clients m = some c ∧ c.pc = .idle) ∧ x.2.count (.enqueued m p) = 0 ∧
      Along trace (ReloadGiven m p) (s, []) as ∧ Along trace (NoneDone m p) (s, []) as)
    ⟨⟨c, hc, hpc⟩, rfl, trivial, trivial⟩ ?_ (along_of_forall_mem fun a ha _ => hcall a ha) hrun
  rintro as ⟨s₁, es⟩ a ⟨s₂, es'⟩ hexec ⟨⟨⟨rman, pc⟩, hc, hpc⟩, hcnt, hgiven, hnone⟩ hnocall hs
  obtain rfl : pc = .idle := hpc
  obtain ⟨hs', rfl⟩ := record_eq_some.1 hs
  obtain ⟨c', hc', hv⟩ := step_notes hs' hc
  have hcnt' : (notes s₁ a s₂ ++ es).count (.enqueued m p) = 0 := by
    rw [List.count_append, count_enqueued hv fun _ => rfl, hcnt]
  rw [along_snoc hexec, along_snoc hexec]
  suffices hstay : c'.pc = .idle ∧ ReloadGiven m p (s₁, es) a ∧ NoneDone m p (s₁, es) a from
    ⟨⟨c', hc', hstay.1⟩, hcnt', ⟨hgiven, hstay.2.1⟩, hnone, hstay.2.2⟩
  generalize notes s₁ a s₂ = new at hv
  cases hv with
  | frame ha => exact ⟨rfl, conditions_of_other ha⟩
  | call => exact absurd rfl (hnocall _)
  | client hlocal => cases hlocal
  | pool hpool => cases hpool
  | taken | returned | completed => exact ⟨rfl, trivial, trivial⟩

/-- **Expired delayed reloads are carried out** by a call whose scan does not stop on the timeslice,
with a `done_func` exactly when there is memory for the work items of the reloads, and without one
exactly when none is due. -/
theorem carriedOut_iff {numThreads : Nat} {pre as : List Action}
    (hpre : exec step (.initial numThreads) pre = some s)
    (hc : s.clients m = some ⟨rman, .doneStart⟩)
    (hrun : exec trace (s, []) (.client m o :: as) = some (s', ns))
    (hcall : ∀ a ∈ as, ∀ f, a ≠ .call m f) (hc' : s'.clients m = some ⟨rman', .idle⟩)
    (hslice : Along trace (SliceLeft m) (s, []) (.client m o :: as)) :
    CarriedOut m o.now s (.client m o :: as) rman rman' ns ↔
      ∀ p r, rman.heap p = some r → r.deletePending = false →
        if rman.doneFunc then Along trace (ReloadGiven m p) (s, []) (.client m o :: as)
        else ¬ Expired r.reloadTimeout o.now := by
  obtain ⟨⟨s₁, es₁⟩, hfirst, hrest⟩ := exec_cons_eq_some.1 hrun
  obtain ⟨hs₁, rfl⟩ := record_eq_some.1 hfirst
  obtain ⟨hc₁, hnotes⟩ := doneStart_step hc hs₁
  rw [hnotes, List.append_nil] at hfirst hrest
  have hgiven (p : ResPtr) : Along trace (ReloadGiven m p) (s, []) (.client m o :: as) ↔
      Along trace (ReloadGiven m p) (s₁, []) as := by
    rw [along_cons_of_step hfirst]
    exact and_iff_right ((reloadGiven_client hc).2 nofun)
  have hnone (p : ResPtr) : Along trace (NoneDone m p) (s, []) (.client m o :: as) ↔
      Along trace (NoneDone m p) (s₁, []) as := by
    rw [along_cons_of_step hfirst]
    exact and_iff_right ((noneDone_client hc).2 nofun)
  refine (forall₂_congr fun p r => forall_congr' fun hr => ?_)
  rw [hgiven, hnone]
  cases hdone : rman.doneFunc with
  | false =>
    -- the call has returned, and its loop is not entered
    rw [hdone] at hc₁
    obtain ⟨-, hcnt, -, hnever⟩ := idle_of_run (p := p) hc₁ rfl hcall hrest
    refine ⟨fun h hdel hexp => ?_,
      fun h => ⟨fun hdel _ hexp => absurd hexp (h hdel), fun _ => hcnt⟩⟩
    have hone := (h.1 hdel hnever hexp).1
    rw [show ns.count (.enqueued m p) = 0 from hcnt] at hone
    cases hone
  | true =>
    -- the loop begins
    rw [hdone] at hc₁
    obtain ⟨hdue, hintime, hlost⟩ := (fate_of_run (exec_snoc.2 ⟨s, hpre, hs₁⟩) hc₁ hr hcall
      ((along_cons_of_step hfirst).1 hslice).2 hrest hc').ended
    refine ⟨fun h hdel => ?_, fun h => ⟨fun hdel hn hexp => ?_, hintime⟩⟩
    · by_contra hnot
      obtain ⟨hexp, hn, hcnt⟩ := hlost hnot
      have hone := (h.1 hdel hn hexp).1
      rw [show ns.count (.enqueued m p) = 0 from hcnt] at hone
      cases hone
    · obtain ⟨hcnt, htime⟩ := hdue hexp hn (h hdel)
      obtain ⟨r', hr', htime'⟩ := Option.map_eq_some_iff.1 htime
      exact ⟨hcnt, r', hr', htime'⟩

/-- A file is loaded and watched. It is written during a later poll, which has
come to the start time. -/
def writtenOnce (doneFunc : Bool) : List Action :=
  [.create 0 doneFunc false, .call 0 (.add "a" 0 {})] ++ clientSteps 0 {} 3 ++
  workerSteps 0 { watch := some 1 } 5 ++
  (if doneFunc then .call 0 .poll :: clientSteps 0 { watch := some 1 } 9 else []) ++
  .call 0 .poll :: clientSteps 0 {} 2 ++
    .client 0 { event := some ⟨1, inModify, 0, 0⟩ } :: clientSteps 0 {} 3

theorem carriedOut_iff_writtenOnce :
    ∃ s rman s' rman' ns, exec step (.initial 2) (writtenOnce true) = some s ∧
      s.clients 0 = some ⟨rman, .doneStart⟩ ∧ (∃ r ∈ rman.heap 0, Expired r.reloadTimeout 200) ∧
      exec trace (s, []) (.client 0 { now := 200 } :: clientSteps 0 { now := 200 } 6) =
        some (s', ns) ∧
      s'.clients 0 = some ⟨rman', .idle⟩ ∧
      CarriedOut 0 200 s (.client 0 { now := 200 } :: clientSteps 0 { now := 200 } 6)
        rman rman' ns := by
  have hrun : ((exec step (.initial 2) (writtenOnce true)).any fun s => (s.clients 0).any fun c =>
      (c.pc = .doneStart ∧ c.rman.doneFunc = true ∧
        (c.rman.heap 0).any fun r => Expired r.reloadTimeout 200) ∧
        Along trace (SliceLeft 0) (s, [])
          (.client 0 { now := 200 } :: clientSteps 0 { now := 200 } 6) ∧
        (exec trace (s, []) (.client 0 { now := 200 } :: clientSteps 0 { now := 200 } 6)).any
          fun x =>
          (x.1.clients 0).any fun c' => c'.pc = .idle) = true := by
    decide +kernel
  obtain ⟨s, hs, hrun⟩ := (Option.any_eq_true _ _).1 hrun
  obtain ⟨⟨rman, pc⟩, hc, hrun⟩ := (Option.any_eq_true _ _).1 hrun
  obtain ⟨⟨hpc, hdone, hdue⟩, hslice, hend⟩ := of_decide_eq_true hrun
  obtain ⟨r, hr, hexp⟩ := (Option.any_eq_true _ _).1 hdue
  obtain ⟨⟨s', ns⟩, hexec, hend⟩ := (Option.any_eq_true _ _).1 hend
  obtain ⟨⟨rman', pc'⟩, hc', hend⟩ := (Option.any_eq_true _ _).1 hend
  obtain rfl : pc = .doneStart := hpc
  obtain rfl : pc' = .idle := of_decide_eq_true hend
  have hclient : ∀ a ∈ clientSteps 0 { now := 200 } 6, a = .client 0 { now := 200 } :=
    fun a ha => List.eq_of_mem_replicate ha
  refine ⟨s, rman, s', rman', ns, hs, hc, ⟨r, hr, of_decide_eq_true hexp⟩, hexec, hc',
    (carriedOut_iff hs hc hexec (fun a ha f => ?_) hc' hslice).2 fun p r _ _ => ?_⟩
  · rw [hclient a ha]
    exact nofun
  · rw [if_pos hdone]
    refine along_of_forall_mem fun a ha x => ?_
    rw [(List.mem_cons.1 ha).elim id (hclient a)]
    exact fun _ _ _ _ => rfl

/-- Without a `done_func` the delayed reload is due, and no job is enqueued. -/
theorem not_carriedOut_writtenOnce :
    ¬ ∀ numThreads pre m o as s rman s' rman' ns, exec step (.initial numThreads) pre = some s →
      s.clients m = some ⟨rman, .doneStart⟩ →
      exec trace (s, []) (.client m o :: as) = some (s', ns) →
      (∀ a ∈ as, ∀ f, a ≠ .call m f) → s'.clients m = some ⟨rman', .idle⟩ →
      Along trace (SliceLeft m) (s, []) (.client m o :: as) →
      CarriedOut m o.now s (.client m o :: as) rman rman' ns := by
  intro hall
  have hrun : ((exec step (.initial 2) (writtenOnce false)).any fun s => (s.clients 0).any fun c =>
      (c.pc = .doneStart ∧ (c.rman.heap 0).any fun r => r.deletePending = false ∧
        Expired r.reloadTimeout 200) ∧
        Along trace (SliceLeft 0) (s, []) [.client 0 { now := 200 }] ∧
        (exec trace (s, []) [.client 0 { now := 200 }]).any fun x =>
          (x.1.clients 0).any fun c' => c'.pc = .idle ∧ x.2 = []) = true := by
    decide +kernel
  obtain ⟨s, hs, hrun⟩ := (Option.any_eq_true _ _).1 hrun
  obtain ⟨⟨rman, pc⟩, hc, hrun⟩ := (Option.any_eq_true _ _).1 hrun
  obtain ⟨⟨hpc, hdue⟩, hslice, hend⟩ := of_decide_eq_true hrun
  obtain ⟨r, hr, hexp⟩ := (Option.any_eq_true _ _).1 hdue
  obtain ⟨⟨s', ns⟩, hexec, hend⟩ := (Option.any_eq_true _ _).1 hend
  obtain ⟨⟨rman', pc'⟩, hc', hend⟩ := (Option.any_eq_true _ _).1 hend
  obtain rfl : pc = .doneStart := hpc
  obtain ⟨rfl, rfl⟩ : pc' = .idle ∧ ns = [] := of_decide_eq_true hend
  obtain ⟨hdel, hexp⟩ : r.deletePending = false ∧ Expired r.reloadTimeout 200 :=
    of_decide_eq_true hexp
  have hmust :=
    (hall 2 _ 0 { now := 200 } [] s rman s' rman' [] hs hc hexec nofun hc' hslice 0 r hr).1 hdel
  obtain ⟨hone, -⟩ := hmust (along_cons.2 ⟨(noneDone_client hc).2 nofun, fun _ _ => trivial⟩) hexp
  cases hone

end Resman.Manager
