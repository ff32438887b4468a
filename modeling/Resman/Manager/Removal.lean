import Resman.Manager.Loads

/-!
# Removal in `resman_poll`

`resman_poll` removes a resource when it finds `delete_pending` set and `pending` clear, or when
`done_func` fails after the first load. A manager is `Safe` when `pending` bounds the number of jobs
of every resource, and a resource that has not been loaded yet is known to nobody but its one load:
it has no watch and no delayed reload, and its job, its `done_pending` flag and the client's own
interest in it exclude each other. `safeRemoval_of_run` concludes that no job refers to a resource
that is being removed.
-/

namespace Resman.Manager

open Lib FileWatch

variable {rman rman₁ rman' : Rman} {pc pc' : Pc} {n n' : ResPtr → Nat} {p q : ResPtr}

/-- The client has picked the resource, for a load that is not enqueued yet or for `done_func`. -/
def Pc.claims (p : ResPtr) : Pc → Bool
  | reloadTask q _ | reloadFlag q _ _ | doneReload _ _ q | doneCall _ _ q => p = q
  | _ => false

/-- The client is about to call `remove_resource` for the resource, or inside of it. -/
def Pc.removes (p : ResPtr) : Pc → Bool
  | delCall _ q | rmStop _ q _ | rmCall _ q _ | rmFree _ q _ => p = q
  | _ => false

@[simp] theorem Cont.claims_resume (k : Cont) : k.resume.claims p = false := by cases k <;> rfl

@[simp] theorem Cont.removes_resume (k : Cont) : k.resume.removes p = false := by cases k <;> rfl

structure Safe (c : Client) (n : ResPtr → Nat) : Prop where
  fresh : ∀ p, c.rman.nalloc ≤ p →
    c.rman.heap p = none ∧ inFlight c.pc n p = 0 ∧ ¬ Touched c.rman p
  pend : ∀ p, ∀ r ∈ c.rman.heap p, inFlight c.pc n p ≤ r.pending.toNat
  doneOnly : ∀ p, ∀ r ∈ c.rman.heap p, r.donePending = true → c.rman.doneFunc = true
  lockOnly : ∀ p, c.pc.locks p = true → c.rman.doneFunc = true
  unwatched : c.rman.doneFunc = true → ∀ p, ∀ r ∈ c.rman.heap p, r.numLoads = 0 →
    ¬ Touched c.rman p
  first : c.rman.doneFunc = true → ∀ p, ∀ r ∈ c.rman.heap p, r.numLoads = 0 →
    inFlight c.pc n p + r.donePending.toNat + (c.pc.claims p).toNat ≤ 1
  removing : ∀ p, c.pc.removes p = true → inFlight c.pc n p = 0

/-- A write that leaves the delayed reload alone touches nothing. -/
theorem touched_of_update {f : Resource → Resource} (hup : rman.update p f = some rman₁)
    (hq : Quiet ∅ rman₁ rman') (htime : ∀ r, (f r).reloadTimeout = r.reloadTimeout)
    (ht : Touched rman' q) : Touched rman q := by
  obtain ⟨r, hr, rfl⟩ := heap_of_update hup
  rcases (hq.touched q ht).resolve_right id with ht | ⟨r₁, hr₁, ht⟩
  · exact .inl ht
  · rcases update_eq_some.1 hr₁ with ⟨rfl, hfr⟩ | ⟨-, hr₁⟩
    · obtain rfl := Option.some.inj hfr
      exact .inr ⟨r, hr, htime r ▸ ht⟩
    · exact .inr ⟨r₁, hr₁, ht⟩

namespace Safe

/-- Steps that write no flag of loading and enqueue nothing: the client may claim resources that
have a watch, and start to remove resources without jobs. -/
theorem keeps (h : Safe ⟨rman, pc⟩ n) (hk : Keeps rman rman')
    (hin : ∀ p, inFlight pc' n' p ≤ inFlight pc n p) (hlock : ∀ p, pc'.locks p ≤ pc.locks p)
    (hclaim : ∀ p, ¬ Touched rman p → pc'.claims p ≤ pc.claims p)
    (hrem : ∀ p, pc'.removes p = true → inFlight pc n p = 0) : Safe ⟨rman', pc'⟩ n' where
  fresh p hp := by
    obtain ⟨hnone, hzero, htouch⟩ := h.fresh p (hk.nalloc ▸ hp)
    exact ⟨hk.heap_eq_none hnone, Nat.le_zero.1 ((hin p).trans hzero.le),
      fun ht => htouch (hk.touched p ht)⟩
  pend p r' hr' := by
    obtain ⟨r, hr, hpend, -⟩ := hk.flags p r' hr'
    rw [hpend]
    exact (hin p).trans (h.pend p r hr)
  doneOnly p r' hr' hd := by
    obtain ⟨r, hr, -, hdone, -⟩ := hk.flags p r' hr'
    exact hk.doneFunc.trans (h.doneOnly p r hr (hdone ▸ hd))
  lockOnly p hp := hk.doneFunc.trans (h.lockOnly p (hlock p hp))
  unwatched hd p r' hr' hloads ht := by
    obtain ⟨r, hr, -, -, hl⟩ := hk.flags p r' hr'
    exact h.unwatched (hk.doneFunc ▸ hd) p r hr (hl ▸ hloads) (hk.touched p ht)
  first hd p r' hr' hloads := by
    obtain ⟨r, hr, -, hdone, hl⟩ := hk.flags p r' hr'
    have hd' : rman.doneFunc = true := hk.doneFunc ▸ hd
    have hc := Bool.toNat_le_toNat (hclaim p (h.unwatched hd' p r hr (hl ▸ hloads)))
    have hone := h.first hd' p r hr (hl ▸ hloads)
    have hle := hin p
    rw [hdone]
    dsimp only at *
    omega
  removing p hp := Nat.le_zero.1 ((hin p).trans (hrem p hp).le)

/-- Steps as in `keeps` that enqueue, lock, claim and remove nothing new. -/
theorem pass (h : Safe ⟨rman, pc⟩ n) (hk : Keeps rman rman')
    (hpc : ∀ p, pc'.enqueues p ≤ pc.enqueues p ∧ pc'.locks p ≤ pc.locks p ∧
      pc'.claims p ≤ pc.claims p ∧ pc'.removes p ≤ pc.removes p) : Safe ⟨rman', pc'⟩ n :=
  h.keeps hk (fun p => Nat.add_le_add_left (Bool.toNat_le_toNat (hpc p).1) _)
    (fun p => (hpc p).2.1) (fun p _ => (hpc p).2.2.1)
    fun p hp => h.removing p ((hpc p).2.2.2 hp)

/-- A new resource has no jobs and no watch. -/
theorem add (h : Safe ⟨rman, .idle⟩ n) (fname : String) (data : Nat) :
    Safe ⟨appendResource rman fname data, .reloadTask rman.nalloc .add⟩ n := by
  obtain ⟨hnone, hzero, htouch⟩ := h.fresh _ (Nat.le_refl rman.nalloc)
  have htouched : ∀ q, Touched (appendResource rman fname data) q → Touched rman q := by
    rintro q (hq | ⟨r', hr', ht⟩)
    · exact .inl hq
    · rcases mem_heap_append.1 hr' with ⟨-, rfl⟩ | ⟨-, hr⟩
      · exact absurd rfl ht
      · exact .inr ⟨r', hr, ht⟩
  refine ⟨fun q hq => ?_, fun q r' hr' => ?_, fun q r' hr' hd => ?_, fun q hq => h.lockOnly q hq,
    fun hd q r' hr' hloads ht => ?_, fun hd q r' hr' hloads => ?_,
    fun q hq => absurd hq Bool.false_ne_true⟩
  · have hlt : rman.nalloc < q := hq
    obtain ⟨hnone', hzero', htouch'⟩ := h.fresh q hlt.le
    exact ⟨(appendResource_heap_of_ne hlt.ne').trans hnone', hzero',
      fun ht => htouch' (htouched q ht)⟩
  · rcases mem_heap_append.1 hr' with ⟨rfl, -⟩ | ⟨-, hr⟩
    · exact hzero.le.trans (Nat.zero_le _)
    · exact h.pend q r' hr
  · rcases mem_heap_append.1 hr' with ⟨-, rfl⟩ | ⟨-, hr⟩
    · cases hd
    · exact h.doneOnly q r' hr hd
  · rcases mem_heap_append.1 hr' with ⟨rfl, -⟩ | ⟨-, hr⟩
    · exact htouch (htouched _ ht)
    · exact h.unwatched hd q r' hr hloads (htouched q ht)
  · rcases mem_heap_append.1 hr' with ⟨rfl, rfl⟩ | ⟨hqp, hr⟩
    · have hzero' : inFlight (.reloadTask rman.nalloc .add) n rman.nalloc = 0 := hzero
      simp [hzero', newResource, Pc.claims]
    · have hclaim : Pc.claims q (.reloadTask rman.nalloc .add) = false := by simp [Pc.claims, hqp]
      rw [hclaim]
      exact h.first hd q r' hr hloads

/-- Steps that write the resource `p`, and start no removal. -/
theorem write {f : Resource → Resource} (h : Safe ⟨rman, pc⟩ n)
    (hup : rman.update p f = some rman₁) (hq : Quiet {p} rman₁ rman')
    (hother : ∀ q, q ≠ p → inFlight pc' n' q = inFlight pc n q ∧ pc'.claims q = pc.claims q)
    (hlock : ∀ q, pc'.locks q = true → rman.doneFunc = true)
    (hrem : ∀ q, pc'.removes q = true → inFlight pc' n' q = 0)
    (hpend : ∀ r ∈ rman.heap p, inFlight pc' n' p ≤ (f r).pending.toNat)
    (hdone : ∀ r ∈ rman.heap p, (f r).donePending = true → rman.doneFunc = true)
    (hfirst : rman.doneFunc = true → ∀ r ∈ rman.heap p, (f r).numLoads = 0 →
      ¬ Touched rman' p ∧
        inFlight pc' n' p + (f r).donePending.toNat + (pc'.claims p).toNat ≤ 1) :
    Safe ⟨rman', pc'⟩ n' := by
  obtain ⟨r, hr, rfl⟩ := heap_of_update hup
  have htouched : ∀ q, q ≠ p → Touched rman' q → Touched rman q := by
    intro q hqp ht
    rcases (hq.touched q ht).resolve_right hqp with ht | ⟨r₁, hr₁, ht⟩
    · exact .inl ht
    · exact .inr ⟨r₁, by simpa [hqp] using hr₁, ht⟩
  refine ⟨fun q hfresh => ?_, fun q r' hr' => ?_, fun q r' hr' hd => ?_, fun q hlk => ?_,
    fun hd q r' hr' hloads ht => ?_, fun hd q r' hr' hloads => ?_, hrem⟩
  · obtain ⟨hnone, hzero, htouch⟩ := h.fresh q (by rw [← hq.nalloc]; exact hfresh)
    have hqp : q ≠ p := by
      rintro rfl
      exact absurd (hr.symm.trans hnone) (by simp)
    refine ⟨hq.heap_eq_none.2 (by simpa [hqp] using hnone), ?_,
      fun ht => htouch (htouched q hqp ht)⟩
    rw [(hother q hqp).1]
    exact hzero
  · obtain ⟨r₁, hr₁, hpend', -⟩ := hq.flags hr'
    rw [hpend']
    rcases update_eq_some.1 hr₁ with ⟨rfl, hfr⟩ | ⟨hqp, hr₁⟩
    · obtain rfl := Option.some.inj hfr
      exact hpend r hr
    · rw [(hother q hqp).1]
      exact h.pend q r₁ hr₁
  · obtain ⟨r₁, hr₁, -, hdone', -⟩ := hq.flags hr'
    rw [hdone'] at hd
    refine hq.doneFunc.trans ?_
    rcases update_eq_some.1 hr₁ with ⟨rfl, hfr⟩ | ⟨-, hr₁⟩
    · obtain rfl := Option.some.inj hfr
      exact hdone r hr hd
    · exact h.doneOnly q r₁ hr₁ hd
  · exact hq.doneFunc.trans (hlock q hlk)
  · obtain ⟨r₁, hr₁, -, -, hloads'⟩ := hq.flags hr'
    rw [hloads'] at hloads
    have hd' : rman.doneFunc = true := hq.doneFunc.symm.trans hd
    rcases update_eq_some.1 hr₁ with ⟨rfl, hfr⟩ | ⟨hqp, hr₁⟩
    · obtain rfl := Option.some.inj hfr
      exact (hfirst hd' r hr hloads).1 ht
    · exact h.unwatched hd' q r₁ hr₁ hloads (htouched q hqp ht)
  · obtain ⟨r₁, hr₁, -, hdone', hloads'⟩ := hq.flags hr'
    rw [hloads'] at hloads
    have hd' : rman.doneFunc = true := hq.doneFunc.symm.trans hd
    rw [hdone']
    rcases update_eq_some.1 hr₁ with ⟨rfl, hfr⟩ | ⟨hqp, hr₁⟩
    · obtain rfl := Option.some.inj hfr
      exact (hfirst hd' r hr hloads).2
    · rw [(hother q hqp).1, (hother q hqp).2]
      exact h.first hd' q r₁ hr₁ hloads

/-- `resman_reload` of a resource with `pending` clear. -/
theorem reload {k : Cont} {t : TaskPtr} (h : Safe ⟨rman, .reloadFlag p t k⟩ n)
    (hR : ∀ r ∈ rman.heap p, r.pending = false)
    (hup : (rman.update p fun r => { r with pending := true }) = some rman') :
    Safe ⟨rman', .reloadEnq p t k⟩ n := by
  obtain ⟨r, hr, hrman'⟩ := heap_of_update hup
  have hzero : n p = 0 := by
    have hpend := h.pend p r hr
    rwa [hR r hr, Bool.toNat_false, Nat.le_zero] at hpend
  have hself : inFlight (.reloadEnq p t k) n p = 1 := by
    rw [inFlight, hzero]
    simp [Pc.enqueues]
  refine h.write hup (.refl _) (fun q hqp => ⟨?_, ?_⟩) (fun q hq => absurd hq Bool.false_ne_true)
    (fun q hq => absurd hq Bool.false_ne_true) (fun _ _ => hself.le)
    (fun r' hr' hd => h.doneOnly p r' hr' hd)
    fun hd r' hr' hloads => ⟨fun ht => ?_, ?_⟩
  · simp [inFlight, Pc.enqueues, hqp]
  · simp [Pc.claims, hqp]
  · exact h.unwatched hd p r' hr' hloads
      (touched_of_update (p := p) hup (.refl _) (fun _ => rfl) ht)
  · have hone := h.first hd p r' hr' hloads
    rw [hself]
    simpa [inFlight, hzero, Pc.enqueues, Pc.claims, Nat.add_comm] using hone

/-- The lock is taken for `done_func`. -/
theorem take {r : Resource} {startTime i : Nat} (h : Safe ⟨rman, .doneScan startTime i⟩ n)
    (hr : rman.heap p = some r) (hd : r.donePending = true)
    (hup : (rman.update p fun r => { r with donePending := false }) = some rman') :
    Safe ⟨rman', .doneCall startTime i p⟩ n := by
  refine h.write hup (.refl _) (fun q hqp => ⟨rfl, ?_⟩) (fun q _ => h.doneOnly p r hr hd)
    (fun q hq => absurd hq Bool.false_ne_true) (fun r' hr' => h.pend p r' hr')
    (fun r' _ hd' => by cases hd')
    fun hdone r' hr' hloads => ⟨fun ht => ?_, ?_⟩
  · simp [Pc.claims, hqp]
  · exact h.unwatched hdone p r' hr' hloads
      (touched_of_update (p := p) hup (.refl _) (fun _ => rfl) ht)
  · obtain rfl : r = r' := Option.some.inj (hr.symm.trans hr')
    have hone := h.first hdone p r hr hloads
    rw [hd] at hone
    simpa [inFlight, Pc.enqueues, Pc.claims] using hone

/-- `done_func` has returned and the number of loads is written. -/
theorem unlock {startTime i : Nat} (h : Safe ⟨rman, .doneCall startTime i p⟩ n)
    (hup : (rman.update p fun r => { r with numLoads := r.numLoads + 1 }) = some rman₁)
    (hq : Quiet {p} rman₁ rman') (henq : ∀ q, pc'.enqueues q = false)
    (hlock : ∀ q, pc'.locks q = false) (hclaim : ∀ q, pc'.claims q = false)
    (hrem : ∀ q, pc'.removes q = false) : Safe ⟨rman', pc'⟩ n := by
  have hin : ∀ q, inFlight pc' n q = inFlight (.doneCall startTime i p) n q := by
    intro q
    rw [inFlight, henq]
    rfl
  refine h.write hup hq (fun q hqp => ⟨hin q, ?_⟩) (fun q hq => ?_) (fun q hq => ?_)
    (fun r hr => (hin p).le.trans (h.pend p r hr)) (fun r hr hd => h.doneOnly p r hr hd)
    fun _ r _ hloads => absurd hloads (Nat.succ_ne_zero _)
  · rw [hclaim]
    simp [Pc.claims, hqp]
  · rw [hlock] at hq
    cases hq
  · rw [hrem] at hq
    cases hq

/-- A job ends. -/
theorem complete {o : Oracle} (h : Safe ⟨rman, pc⟩ n) (hdone : workDone rman p o = some rman')
    (hn : ∀ q, n' q + (if q = p then 1 else 0) = n q) : Safe ⟨rman', pc⟩ n' := by
  obtain ⟨rman₁, hup, hq, hquiet⟩ := workDone_spec hdone
  have hin : ∀ q, inFlight pc n' q + (if q = p then 1 else 0) = inFlight pc n q := by
    intro q
    have hq := hn q
    rw [inFlight, inFlight]
    omega
  have hself : ∀ r ∈ rman.heap p, inFlight pc n' p = 0 := by
    intro r hr
    have hpend : inFlight pc n p ≤ r.pending.toNat := h.pend p r hr
    have hp := hin p
    have hle := Bool.toNat_le r.pending
    rw [if_pos rfl] at hp
    omega
  refine h.write hup hq (fun q hqp => ⟨by simpa [hqp] using hin q, rfl⟩) h.lockOnly
    (fun q hq => ?_) (fun r hr => (hself r hr).le.trans (Nat.zero_le _)) (fun r hr hd => ?_)
    fun hd r hr hloads => ⟨fun ht => ?_, ?_⟩
  · have hzero : inFlight pc n q = 0 := h.removing q hq
    have hq := hin q
    omega
  · rcases Bool.or_eq_true_iff.1 hd with hd | hd
    · exact h.doneOnly p r hr hd
    · exact hd
  · exact h.unwatched hd p r hr hloads
      (touched_of_update (p := p) hup (hquiet hd) (fun _ => rfl) ht)
  · have hone : inFlight pc n p + r.donePending.toNat + (pc.claims p).toNat ≤ 1 :=
      h.first hd p r hr hloads
    have hp := hin p
    rw [if_pos rfl] at hp
    rw [hself r hr] at hp ⊢
    have hle := Bool.toNat_le (finish rman.doneFunc r).donePending
    omega

theorem init (doneFunc destroyFunc : Bool) (hn : ∀ p, n p = 0) :
    Safe ⟨.init doneFunc destroyFunc, .idle⟩ n where
  fresh p _ := by
    refine ⟨rfl, by simp [inFlight, hn, Pc.enqueues], ?_⟩
    rintro (⟨k, hk⟩ | ⟨r, hr, -⟩)
    · cases hk
    · cases hr
  pend p r hr := by cases hr
  doneOnly p r hr := by cases hr
  lockOnly p hp := by cases hp
  unwatched _ p r hr := by cases hr
  first _ p r hr := by cases hr
  removing p hp := by cases hp

end Safe

/-! ## Runs -/

/-- `resman_reload` finds `pending` clear. -/
def ReloadsClear (rman : Rman) : Pc → Prop
  | .reloadFlag p _ _ => ∀ r ∈ rman.heap p, r.pending = false
  | _ => True

instance (rman : Rman) : ∀ pc, Decidable (ReloadsClear rman pc)
  | .reloadFlag p _ _ => inferInstanceAs (Decidable (∀ r ∈ rman.heap p, r.pending = false))
  | .idle | .reloadTask .. | .reloadEnq .. | .delScan .. | .delTest .. | .delCall .. | .rmStop ..
  | .rmCall .. | .rmFree .. | .watch .. | .modset .. | .drain | .doneStart | .doneScan ..
  | .doneReload .. | .doneCall .. | .destroyScan .. | .destroyCall .. | .destroyFree ..
  | .destroyRelease | .poolClear | .poolQuit | .poolJoin | .dead => isTrue trivial

theorem Safe.localStep {o : Oracle} (h : Safe ⟨rman, pc⟩ n) (hR : ReloadsClear rman pc)
    (hs : localStep rman o pc = some (rman', pc')) : Safe ⟨rman', pc'⟩ n := by
  cases localStep_cases hs with
  | reloadTask hq | event hq | modsetEnd hq | doneReload hq | rmStop hq =>
    exact h.pass (.of_quiet hq) fun _ => ⟨le_rfl, le_rfl, le_rfl, le_rfl⟩
  | reloadFlag hup => exact h.reload hR hup
  | delEnd | delSkip | delFound | delBusy | watchEnd | modsetSkip | doneStart | noDone | doneEnd
  | doneSkip | destroyEnd | destroySkip | destroyFound =>
    exact h.pass (.refl _) fun _ => ⟨le_rfl, le_rfl, le_rfl, le_rfl⟩
  | @delFree p r i hr hpend =>
    -- `pending` is clear, so there is no job
    refine h.keeps (.refl _) (fun _ => le_rfl) (fun _ => le_rfl) (fun _ _ => le_rfl) fun q hq => ?_
    obtain rfl : q = p := by simpa [Pc.removes] using hq
    have hle : inFlight (.delTest i q) n q ≤ r.pending.toNat := h.pend q r hr
    rwa [hpend, Bool.toNat_false, Nat.le_zero] at hle
  | delCall | rmCall | destroyCall =>
    exact h.pass (callDestroy_keeps _) fun _ => ⟨le_rfl, le_rfl, le_rfl, le_rfl⟩
  | @rmFree _ _ _ k hfree =>
    exact h.pass (freeResource_keeps hfree) fun _ => ⟨k.enqueues_resume.le, k.locks_resume.le,
      k.claims_resume.le, k.removes_resume.le.trans (Bool.false_le _)⟩
  | @modsetReload p wd wds ht | @doneLate p startTime i ht =>
    refine h.keeps (.refl _) (fun _ => le_rfl) (fun _ => le_rfl) (fun q hq => ?_) fun q hq => ?_
    · have hne : q ≠ p := by
        rintro rfl
        exact hq ht
      simp [Pc.claims, hne]
    · exact absurd hq Bool.false_ne_true
  | doneTake hi hr hdone hup => exact h.take hr hdone hup
  | @doneFail p r startTime i hr hloads =>
    -- the first load is over, and nothing else can have been enqueued
    refine h.keeps (.refl _) (fun _ => le_rfl) (fun _ => Bool.false_le _)
      (fun _ _ => Bool.false_le _) fun q hq => ?_
    obtain rfl : q = p := by simpa [Pc.removes] using hq
    have hdone : rman.doneFunc = true := h.lockOnly q (by simp [Pc.locks])
    have hone := h.first hdone q r hr hloads
    simp only [Pc.claims, decide_true, Bool.toNat_true] at hone
    omega
  | doneOk hup hq hpc' =>
    rcases hpc' with rfl | rfl <;>
      exact h.unlock hup hq (fun _ => rfl) (fun _ => rfl) (fun _ => rfl) fun _ => rfl
  | destroyFree hr =>
    exact h.pass (.of_free rfl rfl rfl rfl) fun _ => ⟨le_rfl, le_rfl, le_rfl, le_rfl⟩

theorem Safe.callStep {f : Call} (h : Safe ⟨rman, .idle⟩ n)
    (hs : callStep rman f = some (rman', pc')) : Safe ⟨rman', pc'⟩ n := by
  cases callStep_cases hs with
  | setopt =>
    exact h.pass (.of_heap_eq rfl rfl rfl rfl) fun _ => ⟨le_rfl, le_rfl, le_rfl, le_rfl⟩
  | stay | poll | destroy => exact h.pass (.refl _) fun _ => ⟨le_rfl, le_rfl, le_rfl, le_rfl⟩
  | added hfind hfull => exact h.add _ _
  | remove hi hup =>
    exact h.pass (.of_update hup fun _ => ⟨rfl, rfl, rfl, rfl⟩) fun _ =>
      ⟨le_rfl, le_rfl, le_rfl, le_rfl⟩

theorem Pc.claims_of_released (h : pc.released) : pc.claims p = false := by
  cases pc <;> first | rfl | cases h

theorem Pc.removes_of_released (h : pc.released) : pc.removes p = false := by
  cases pc <;> first | rfl | cases h

theorem Safe.step {m : MgrPtr} {a : Action} {c c' : Client} (h : Safe c n)
    (hR : ∀ o, a = .client m o → ReloadsClear c.rman c.pc) (hv : ViewStep m a c n c' n') :
    Safe c' n' := by
  cases hv with
  | frame _ hn =>
    exact h.keeps (.refl _) (fun p => Nat.add_le_add_right (hn p) _) (fun _ => le_rfl)
      (fun _ _ => le_rfl) h.removing
  | call hs => exact h.callStep hs
  | client hs => exact h.localStep (hR _ rfl) hs
  | @enqueue _ _ p _ k _ _ hn =>
    refine h.keeps (.refl _) (fun q => ?_) (fun q => k.locks_resume.le)
      (fun q _ => k.claims_resume.le) fun q hq => ?_
    · rw [inFlight, k.enqueues_resume, inFlight, Pc.enqueues]
      refine (hn q).trans (Nat.add_le_add_left ?_ _)
      by_cases hq : q = p <;> simp [hq]
    · rw [k.removes_resume] at hq
      cases hq
  | drain => exact h.pass (.refl _) fun _ => ⟨le_rfl, le_rfl, le_rfl, le_rfl⟩
  | release hpc hpc' hn =>
    refine h.keeps (.refl _) (fun p => ?_) (fun p => ?_) (fun p _ => ?_) fun q hq => ?_
    · rw [inFlight, inFlight, Pc.enqueues_of_released hpc, Pc.enqueues_of_released hpc']
      exact hn p
    · rw [Pc.locks_of_released hpc, Pc.locks_of_released hpc']
    · rw [Pc.claims_of_released hpc, Pc.claims_of_released hpc']
    · rw [Pc.removes_of_released hpc'] at hq
      cases hq
  | taken =>
    exact h.pass (.of_heap_eq rfl rfl rfl rfl) fun _ => ⟨le_rfl, le_rfl, le_rfl, le_rfl⟩
  | returned hup =>
    exact h.pass (.of_update hup fun _ => ⟨rfl, rfl, rfl, rfl⟩) fun _ =>
      ⟨le_rfl, le_rfl, le_rfl, le_rfl⟩
  | completed hlock hdone hn => exact h.complete hdone hn

/-- No job refers to a resource that a client is removing, whether queued or
executed by a worker. -/
def SafeRemoval (s : Sys) : Prop :=
  ∀ m, ∀ c ∈ s.clients m, ∀ p, c.pc.removes p = true →
    (∀ j ∈ s.pool.queue, ¬ j.refers m p) ∧ ∀ wk ∈ s.pool.workers, ∀ j ∈ wk.job, ¬ j.refers m p

theorem not_refers_of_njobs {pool : Pool} {m : MgrPtr} (h : pool.njobs m p = 0) :
    (∀ j ∈ pool.queue, ¬ j.refers m p) ∧ ∀ wk ∈ pool.workers, ∀ j ∈ wk.job, ¬ j.refers m p := by
  obtain ⟨hqueue, hworkers⟩ := Nat.add_eq_zero_iff.1 h
  refine ⟨fun j hj => List.countP_eq_zero.1 hqueue j hj, fun wk hwk j hj href => ?_⟩
  refine List.countP_eq_zero.1 hworkers wk hwk ?_
  rw [show wk.job = some j from hj]
  exact href

/-- **Removal leaves no job behind**, in every run in which `resman_reload` always finds the flag
`pending` of the resource clear. -/
theorem safeRemoval_of_run {numThreads : Nat} {as : List Action} {s : Sys}
    (hR : Along step (OnClient ReloadsClear) (.initial numThreads) as)
    (h : exec step (.initial numThreads) as = some s) : SafeRemoval s := by
  obtain ⟨hinv, -⟩ := view_invariant (I := Safe) (fun d f n => Safe.init d f)
    (fun m a c n c' n' hI hR hv => hI.step hR hv) hR h
  intro m c hc p hp
  exact not_refers_of_njobs (Nat.eq_zero_of_add_eq_zero_right ((hinv m c hc).removing p hp))

/-- Two files are loaded and watched; the first is modified, and the only worker is reloading it. -/
def twoFiles : List Action :=
  [.create 0 true false, .call 0 (.add "a" 0 {})] ++ clientSteps 0 {} 3 ++ workerSteps 0 {} 5 ++
  .call 0 (.add "b" 0 {}) :: clientSteps 0 {} 3 ++ workerSteps 0 {} 5 ++
  .call 0 .poll :: clientSteps 0 { watch := some 1 } 10 ++ clientSteps 0 { watch := some 2 } 2 ++
  .call 0 .poll :: clientSteps 0 {} 3 ++
    .client 0 { event := some ⟨1, inModify, 0, 0⟩ } :: clientSteps 0 {} 7 ++
  .call 0 .poll :: clientSteps 0 { now := 200 } 14 ++ workerSteps 0 {} 2

/-- The reload ends, and `resman_poll` is about to free the resource. -/
def removedAfterReload : List Action :=
  twoFiles ++ workerSteps 0 {} 2 ++
  .call 0 (.remove 0) :: .call 0 .poll :: clientSteps 0 { now := 300 } 5

theorem safeRemoval_of_run_removedAfterReload :
    SafeRemoval ((exec step (.initial 1) removedAfterReload).get (by decide +kernel)) :=
  safeRemoval_of_run (by decide +kernel) (Option.some_get _).symm

/-- The file is modified again during the reload, so a second reload waits in the
queue when the first one ends. -/
def removedWhileQueued : List Action :=
  twoFiles ++
  .call 0 .poll :: clientSteps 0 { now := 210 } 3 ++
    .client 0 { event := some ⟨1, inModify, 0, 0⟩ } :: clientSteps 0 { now := 210 } 7 ++
  .call 0 .poll :: clientSteps 0 { now := 400 } 14 ++ workerSteps 0 {} 2 ++
  .call 0 (.remove 0) :: .call 0 .poll :: clientSteps 0 { now := 500 } 5

/-- The resource is about to be freed, and a queued job refers to it. -/
theorem not_safeRemoval_removedWhileQueued :
    ¬ ∀ numThreads as s, exec step (.initial numThreads) as = some s → SafeRemoval s := by
  intro hall
  have hsafe : SafeRemoval ((exec step (.initial 1) removedWhileQueued).get (by decide +kernel)) :=
    hall 1 removedWhileQueued _ (Option.some_get _).symm
  have hpc : (((exec step (.initial 1) removedWhileQueued).get (by decide +kernel)).clients 0).map
      Client.pc = some (.rmFree 0 0 (.del 1)) := by decide +kernel
  obtain ⟨c, hc, hpc⟩ := Option.map_eq_some_iff.1 hpc
  have hqueue := (hsafe 0 c hc 0 (by rw [hpc]; rfl)).1 ⟨0, 0, 0⟩ (by decide +kernel)
  exact hqueue rfl

end Resman.Manager
