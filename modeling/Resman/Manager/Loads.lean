import Resman.Manager.View

/-!
# One load at a time

`inFlight` counts the jobs that refer to a resource, queued, executed, or about to be enqueued by
the client. A manager is `Exclusive` when there is at most one for each resource, with `pending`
set, and none while a `done_func` call is due or under way. Every action keeps that, except a call
of `resman_reload` for a resource with `pending` or `done_pending` set; `oneLoad_of_run` is the
theorem about runs without such a call. The last section of `work_func` is one step of a run:
`pending` is read and written before or after it, and not between its write of `pending` and that of
`done_pending`.
-/

namespace Resman.Manager

open Lib FileWatch

variable {rman rman₁ rman' : Rman} {pc pc' : Pc} {n n' : ResPtr → Nat} {p q : ResPtr}

/-! ## Jobs in flight -/

/-- The client is about to enqueue a job for the resource. -/
def Pc.enqueues (p : ResPtr) : Pc → Bool
  | reloadEnq q _ _ => p = q
  | _ => false

def inFlight (pc : Pc) (n : ResPtr → Nat) (p : ResPtr) : Nat := n p + (pc.enqueues p).toNat

@[simp] theorem Cont.enqueues_resume (k : Cont) : k.resume.enqueues p = false := by cases k <;> rfl

@[simp] theorem Cont.locks_resume (k : Cont) : k.resume.locks p = false := by cases k <;> rfl

/-- What a step that writes no flag of loading keeps: it may free resources, mark them
for deletion and drop watches. -/
structure Keeps (rman rman' : Rman) : Prop where
  nalloc : rman'.nalloc = rman.nalloc
  doneFunc : rman'.doneFunc = rman.doneFunc
  flags : ∀ q, ∀ r' ∈ rman'.heap q, ∃ r ∈ rman.heap q, r'.pending = r.pending ∧
    r'.donePending = r.donePending ∧ r'.numLoads = r.numLoads
  touched : ∀ q, Touched rman' q → Touched rman q

namespace Keeps

theorem of_heap_eq (hheap : rman'.heap = rman.heap) (hmap : rman'.nresmap = rman.nresmap)
    (halloc : rman'.nalloc = rman.nalloc) (hdone : rman'.doneFunc = rman.doneFunc) :
    Keeps rman rman' where
  nalloc := halloc
  doneFunc := hdone
  flags q r' hr' := ⟨r', hheap ▸ hr', rfl, rfl, rfl⟩
  touched q hq := by rwa [Touched, hheap, hmap] at hq

theorem refl (rman : Rman) : Keeps rman rman := .of_heap_eq rfl rfl rfl rfl

theorem heap_eq_none (h : Keeps rman rman') (hp : rman.heap p = none) : rman'.heap p = none := by
  cases hr' : rman'.heap p with
  | none => rfl
  | some r' =>
    obtain ⟨r, hr, -⟩ := h.flags p r' hr'
    exact absurd (hr.symm.trans hp) (by simp)

theorem of_quiet (h : Quiet ∅ rman rman') : Keeps rman rman' where
  nalloc := h.nalloc
  doneFunc := h.doneFunc
  flags _ _ hr' := h.flags hr'
  touched q hq := (h.touched q hq).resolve_right id

/-- A resource is freed. -/
theorem of_free (hheap : rman'.heap = Function.update rman.heap p none)
    (hmap : rman'.nresmap = rman.nresmap) (halloc : rman'.nalloc = rman.nalloc)
    (hdone : rman'.doneFunc = rman.doneFunc) : Keeps rman rman' := by
  have hold : ∀ q, ∀ r' ∈ rman'.heap q, r' ∈ rman.heap q := by
    intro q r' hr'
    rw [hheap] at hr'
    exact (update_none_eq_some.1 hr').2
  refine ⟨halloc, hdone, fun q r' hr' => ⟨r', hold q r' hr', rfl, rfl, rfl⟩, fun q hq => ?_⟩
  rcases hq with hq | ⟨r', hr', ht⟩
  · exact .inl (hmap ▸ hq)
  · exact .inr ⟨r', hold q r' hr', ht⟩

/-- A field of a resource is written that says nothing about its loads. -/
theorem of_update {f : Resource → Resource} (h : rman.update p f = some rman')
    (hf : ∀ r, (f r).pending = r.pending ∧ (f r).donePending = r.donePending ∧
      (f r).numLoads = r.numLoads ∧ (f r).reloadTimeout = r.reloadTimeout) : Keeps rman rman' := by
  obtain ⟨r, hr, rfl⟩ := heap_of_update h
  have hold : ∀ q, ∀ r' ∈ Function.update rman.heap p (some (f r)) q, ∃ r ∈ rman.heap q,
      r'.pending = r.pending ∧ r'.donePending = r.donePending ∧ r'.numLoads = r.numLoads ∧
        r'.reloadTimeout = r.reloadTimeout := by
    intro q r' hr'
    rcases update_eq_some.1 hr' with ⟨rfl, hfr⟩ | ⟨-, hr'⟩
    · obtain rfl := Option.some.inj hfr
      exact ⟨r, hr, hf r⟩
    · exact ⟨r', hr', rfl, rfl, rfl, rfl⟩
  refine ⟨rfl, rfl, fun q r' hr' => ?_, fun q hq => ?_⟩
  · obtain ⟨r, hr, hpend, hdone, hloads, -⟩ := hold q r' hr'
    exact ⟨r, hr, hpend, hdone, hloads⟩
  · rcases hq with hq | ⟨r', hr', ht⟩
    · exact .inl hq
    · obtain ⟨r, hr, -, -, -, htime⟩ := hold q r' hr'
      exact .inr ⟨r, hr, htime ▸ ht⟩

end Keeps

theorem callDestroy_keeps (i : Nat) : Keeps rman (callDestroy rman i) := by
  unfold callDestroy
  split
  · exact .of_heap_eq rfl rfl rfl rfl
  · exact .refl _

theorem freeResource_keeps {i : Nat} (h : freeResource rman i p = some rman') :
    Keeps rman rman' := by
  obtain ⟨r, hr, h⟩ := Option.bind_eq_some_iff.1 h
  obtain rfl := Option.some.inj h
  exact .of_free rfl rfl rfl rfl

/-! ## Exclusive loads -/

structure Exclusive (c : Client) (n : ResPtr → Nat) : Prop where
  one : ∀ p, inFlight c.pc n p + (c.pc.locks p).toNat ≤ 1
  pend : ∀ p, ∀ r ∈ c.rman.heap p, inFlight c.pc n p ≤ r.pending.toNat
  done : ∀ p, ∀ r ∈ c.rman.heap p, r.donePending = true →
    inFlight c.pc n p + (c.pc.locks p).toNat = 0
  fresh : ∀ p, c.rman.nalloc ≤ p →
    c.rman.heap p = none ∧ inFlight c.pc n p + (c.pc.locks p).toNat = 0

namespace Exclusive

/-- Steps that write no flag of loading, and neither enqueue nor lock. -/
theorem keeps (h : Exclusive ⟨rman, pc⟩ n) (hk : Keeps rman rman')
    (hin : ∀ p, inFlight pc' n' p ≤ inFlight pc n p) (hlock : ∀ p, pc'.locks p ≤ pc.locks p) :
    Exclusive ⟨rman', pc'⟩ n' := by
  have hle : ∀ p, inFlight pc' n' p + (pc'.locks p).toNat ≤
      inFlight pc n p + (pc.locks p).toNat := fun p =>
    Nat.add_le_add (hin p) (Bool.toNat_le_toNat (hlock p))
  refine ⟨fun p => (hle p).trans (h.one p), fun p r' hr' => ?_, fun p r' hr' hd => ?_,
    fun p hp => ?_⟩
  · obtain ⟨r, hr, hpend, -⟩ := hk.flags p r' hr'
    rw [hpend]
    exact (hin p).trans (h.pend p r hr)
  · obtain ⟨r, hr, -, hdone, -⟩ := hk.flags p r' hr'
    exact Nat.le_zero.1 ((hle p).trans (h.done p r hr (hdone ▸ hd)).le)
  · obtain ⟨hnone, hzero⟩ := h.fresh p (hk.nalloc ▸ hp)
    exact ⟨hk.heap_eq_none hnone, Nat.le_zero.1 ((hle p).trans hzero.le)⟩

/-- A new resource has no jobs. -/
theorem add (h : Exclusive ⟨rman, .idle⟩ n) (fname : String) (data : Nat) :
    Exclusive ⟨appendResource rman fname data, .reloadTask rman.nalloc .add⟩ n := by
  refine ⟨h.one, fun q r' hr' => ?_, fun q r' hr' hd => ?_, fun q hq => ?_⟩
  · rcases mem_heap_append.1 hr' with ⟨rfl, -⟩ | ⟨-, hr⟩
    · exact ((h.fresh _ (Nat.le_refl _)).2.le).trans (Nat.zero_le _)
    · exact h.pend q r' hr
  · rcases mem_heap_append.1 hr' with ⟨rfl, -⟩ | ⟨-, hr⟩
    · exact (h.fresh _ (Nat.le_refl _)).2
    · exact h.done q r' hr hd
  · have hlt : rman.nalloc < q := hq
    obtain ⟨hnone, hzero⟩ := h.fresh q hlt.le
    exact ⟨(appendResource_heap_of_ne hlt.ne').trans hnone, hzero⟩

/-- Steps that write the resource `p`: the other resources see nothing of it. -/
theorem write {f : Resource → Resource} {W : Set ResPtr} (h : Exclusive ⟨rman, pc⟩ n)
    (hup : rman.update p f = some rman₁) (hq : Quiet W rman₁ rman')
    (hother : ∀ q, q ≠ p → inFlight pc' n' q = inFlight pc n q ∧ pc'.locks q = pc.locks q)
    (hone : inFlight pc' n' p + (pc'.locks p).toNat ≤ 1)
    (hpend : ∀ r ∈ rman.heap p, inFlight pc' n' p ≤ (f r).pending.toNat)
    (hdone : ∀ r ∈ rman.heap p, (f r).donePending = true →
      inFlight pc' n' p + (pc'.locks p).toNat = 0) : Exclusive ⟨rman', pc'⟩ n' := by
  obtain ⟨r, hr, rfl⟩ := heap_of_update hup
  refine ⟨fun q => ?_, fun q r' hr' => ?_, fun q r' hr' hd => ?_, fun q hfresh => ?_⟩
  · by_cases hqp : q = p
    · rw [hqp]
      exact hone
    · rw [(hother q hqp).1, (hother q hqp).2]
      exact h.one q
  · obtain ⟨r₁, hr₁, hpend', -⟩ := hq.flags hr'
    rw [hpend']
    rcases update_eq_some.1 hr₁ with ⟨rfl, hfr⟩ | ⟨hqp, hr₁⟩
    · obtain rfl := Option.some.inj hfr
      exact hpend r hr
    · rw [(hother q hqp).1]
      exact h.pend q r₁ hr₁
  · obtain ⟨r₁, hr₁, -, hdone', -⟩ := hq.flags hr'
    rw [hdone'] at hd
    rcases update_eq_some.1 hr₁ with ⟨rfl, hfr⟩ | ⟨hqp, hr₁⟩
    · obtain rfl := Option.some.inj hfr
      exact hdone r hr hd
    · rw [(hother q hqp).1, (hother q hqp).2]
      exact h.done q r₁ hr₁ hd
  · obtain ⟨hnone, hzero⟩ := h.fresh q (by rw [← hq.nalloc]; exact hfresh)
    have hqp : q ≠ p := by
      rintro rfl
      exact absurd (hr.symm.trans hnone) (by simp)
    refine ⟨hq.heap_eq_none.2 (by simpa [hqp] using hnone), ?_⟩
    rw [(hother q hqp).1, (hother q hqp).2]
    exact hzero

/-- `resman_reload` of a resource with neither flag set. -/
theorem reload {k : Cont} {t : TaskPtr} (h : Exclusive ⟨rman, .reloadFlag p t k⟩ n)
    (hR : ∀ r ∈ rman.heap p, r.pending = false ∧ r.donePending = false)
    (hup : (rman.update p fun r => { r with pending := true }) = some rman') :
    Exclusive ⟨rman', .reloadEnq p t k⟩ n := by
  obtain ⟨r, hr, -⟩ := heap_of_update hup
  have hzero : n p = 0 := by
    have hpend := h.pend p r hr
    rwa [(hR r hr).1, Bool.toNat_false, Nat.le_zero] at hpend
  have hself : inFlight (.reloadEnq p t k) n p = 1 := by
    rw [inFlight, hzero]
    simp [Pc.enqueues]
  refine h.write hup (.refl (W := ∅) _) (fun q hqp => ⟨?_, rfl⟩) hself.le (fun _ _ => hself.le)
    fun r' hr' hd => ?_
  · simp [inFlight, Pc.enqueues, hqp]
  · exact absurd hd (by simp [(hR r' hr').2])

/-- The lock is taken for `done_func`. -/
theorem take {r : Resource} {startTime i : Nat} (h : Exclusive ⟨rman, .doneScan startTime i⟩ n)
    (hr : rman.heap p = some r) (hd : r.donePending = true)
    (hup : (rman.update p fun r => { r with donePending := false }) = some rman') :
    Exclusive ⟨rman', .doneCall startTime i p⟩ n := by
  have hzero : inFlight (.doneCall startTime i p) n p = 0 := h.done p r hr hd
  refine h.write hup (.refl (W := ∅) _) (fun q hqp => ⟨rfl, ?_⟩) ?_ (fun r' hr' => h.pend p r' hr')
    fun r' _ hd' => absurd hd' (by simp)
  · simp [Pc.locks, hqp]
  · rw [hzero]
    simp [Pc.locks]

/-- `done_func` has returned and the lock is released. -/
theorem unlock {startTime i : Nat} (h : Exclusive ⟨rman, .doneCall startTime i p⟩ n)
    (hup : (rman.update p fun r => { r with numLoads := r.numLoads + 1 }) = some rman₁)
    (hq : Quiet {p} rman₁ rman') (henq : ∀ q, pc'.enqueues q = false)
    (hlock : ∀ q, pc'.locks q = false) : Exclusive ⟨rman', pc'⟩ n := by
  have hin : ∀ q, inFlight pc' n q = inFlight (.doneCall startTime i p) n q := by
    intro q
    rw [inFlight, henq]
    rfl
  have hself : inFlight pc' n p + (pc'.locks p).toNat = 0 := by
    have hone := h.one p
    rw [hin, hlock]
    simpa [Pc.locks] using hone
  refine h.write hup hq (fun q hqp => ⟨hin q, ?_⟩) (by omega) (fun _ _ => by omega)
    fun _ _ _ => hself
  rw [hlock]
  simp [Pc.locks, hqp]

/-- A job ends. -/
theorem complete {o : Oracle} (h : Exclusive ⟨rman, pc⟩ n) (hlock : pc.locks p = false)
    (hdone : workDone rman p o = some rman')
    (hn : ∀ q, n' q + (if q = p then 1 else 0) = n q) : Exclusive ⟨rman', pc⟩ n' := by
  obtain ⟨rman₁, hup, hq, -⟩ := workDone_spec hdone
  have hself : inFlight pc n' p + (pc.locks p).toNat = 0 := by
    have hone : n p + (pc.enqueues p).toNat + (pc.locks p).toNat ≤ 1 := h.one p
    have hp := hn p
    rw [if_pos rfl] at hp
    rw [hlock, Bool.toNat_false] at hone ⊢
    unfold inFlight
    omega
  refine h.write hup hq (fun q hqp => ⟨?_, rfl⟩) (by omega) (fun _ _ => by omega) fun _ _ _ => hself
  have hq := hn q
  rw [if_neg hqp] at hq
  rw [inFlight, inFlight, ← hq]
  rfl

end Exclusive

/-! ## Runs -/

/-- `resman_reload` finds neither `pending` nor `done_pending` set. -/
def ReloadsIdle (rman : Rman) : Pc → Prop
  | .reloadFlag p _ _ => ∀ r ∈ rman.heap p, r.pending = false ∧ r.donePending = false
  | _ => True

instance (rman : Rman) : ∀ pc, Decidable (ReloadsIdle rman pc)
  | .reloadFlag p _ _ =>
    inferInstanceAs (Decidable (∀ r ∈ rman.heap p, r.pending = false ∧ r.donePending = false))
  | .idle | .reloadTask .. | .reloadEnq .. | .delScan .. | .delTest .. | .delCall .. | .rmStop ..
  | .rmCall .. | .rmFree .. | .watch .. | .modset .. | .drain | .doneStart | .doneScan ..
  | .doneReload .. | .doneCall .. | .destroyScan .. | .destroyCall .. | .destroyFree ..
  | .destroyRelease | .poolClear | .poolQuit | .poolJoin | .dead => isTrue trivial

theorem Exclusive.init (doneFunc destroyFunc : Bool) (hn : ∀ p, n p = 0) :
    Exclusive ⟨.init doneFunc destroyFunc, .idle⟩ n where
  one p := by simp [inFlight, hn, Pc.enqueues, Pc.locks]
  pend p r hr := by cases hr
  done p r hr := by cases hr
  fresh p _ := ⟨rfl, by simp [inFlight, hn, Pc.enqueues, Pc.locks]⟩

theorem Exclusive.localStep {o : Oracle} (h : Exclusive ⟨rman, pc⟩ n) (hR : ReloadsIdle rman pc)
    (hs : localStep rman o pc = some (rman', pc')) : Exclusive ⟨rman', pc'⟩ n := by
  have hrefl : ∀ {pc' : Pc}, (∀ p, pc'.enqueues p = pc.enqueues p) →
      ∀ p, inFlight pc' n p ≤ inFlight pc n p := fun henq p => by rw [inFlight, henq, inFlight]
  cases localStep_cases hs with
  | reloadTask hq => exact h.keeps (.of_quiet hq) (hrefl fun _ => rfl) fun _ => le_rfl
  | reloadFlag hup => exact h.reload hR hup
  | delEnd | delSkip | delFound | delBusy | delFree | watchEnd | modsetSkip | modsetReload
  | doneStart | noDone | doneEnd | doneSkip | doneLate | destroyEnd | destroySkip | destroyFound =>
    exact h.keeps (.refl _) (hrefl fun _ => rfl) fun _ => le_rfl
  | delCall | rmCall | destroyCall =>
    exact h.keeps (callDestroy_keeps _) (hrefl fun _ => rfl) fun _ => le_rfl
  | rmStop hq | event hq | modsetEnd hq | doneReload hq =>
    exact h.keeps (.of_quiet hq) (hrefl fun _ => rfl) fun _ => le_rfl
  | @rmFree _ _ _ k hfree =>
    exact h.keeps (freeResource_keeps hfree) (hrefl fun _ => k.enqueues_resume)
      fun _ => k.locks_resume.le
  | doneTake hi hr hdone hup => exact h.take hr hdone hup
  | doneFail => exact h.keeps (.refl _) (hrefl fun _ => rfl) fun _ => Bool.false_le _
  | doneOk hup hq hpc' =>
    rcases hpc' with rfl | rfl <;> exact h.unlock hup hq (fun _ => rfl) fun _ => rfl
  | destroyFree hr => exact h.keeps (.of_free rfl rfl rfl rfl) (hrefl fun _ => rfl) fun _ => le_rfl

theorem Exclusive.callStep {f : Call} (h : Exclusive ⟨rman, .idle⟩ n)
    (hs : callStep rman f = some (rman', pc')) : Exclusive ⟨rman', pc'⟩ n := by
  cases callStep_cases hs with
  | setopt => exact h.keeps (.of_heap_eq rfl rfl rfl rfl) (fun _ => le_rfl) fun _ => le_rfl
  | stay | poll | destroy => exact h.keeps (.refl _) (fun _ => le_rfl) fun _ => le_rfl
  | added hfind hfull => exact h.add _ _
  | remove hi hup =>
    exact h.keeps (.of_update hup fun _ => ⟨rfl, rfl, rfl, rfl⟩) (fun _ => le_rfl) fun _ => le_rfl

theorem Pc.enqueues_of_released (h : pc.released) : pc.enqueues p = false := by
  cases pc <;> first | rfl | cases h

theorem Pc.locks_of_released (h : pc.released) : pc.locks p = false := by
  cases pc <;> first | rfl | cases h

theorem Exclusive.step {m : MgrPtr} {a : Action} {c c' : Client} (h : Exclusive c n)
    (hR : ∀ o, a = .client m o → ReloadsIdle c.rman c.pc) (hv : ViewStep m a c n c' n') :
    Exclusive c' n' := by
  cases hv with
  | frame _ hn => exact h.keeps (.refl _) (fun p => Nat.add_le_add_right (hn p) _) fun _ => le_rfl
  | call hs => exact h.callStep hs
  | client hs => exact h.localStep (hR _ rfl) hs
  | @enqueue _ _ p _ k _ _ hn =>
    refine h.keeps (.refl _) (fun q => ?_) fun q => k.locks_resume.le
    rw [inFlight, k.enqueues_resume, inFlight, Pc.enqueues]
    refine (hn q).trans (Nat.add_le_add_left ?_ _)
    by_cases hq : q = p <;> simp [hq]
  | drain => exact h.keeps (.refl _) (fun _ => le_rfl) fun _ => le_rfl
  | release hpc hpc' hn =>
    refine h.keeps (.refl _) (fun p => ?_) fun p => ?_
    · rw [inFlight, inFlight, Pc.enqueues_of_released hpc, Pc.enqueues_of_released hpc']
      exact hn p
    · rw [Pc.locks_of_released hpc, Pc.locks_of_released hpc']
  | taken => exact h.keeps (.of_heap_eq rfl rfl rfl rfl) (fun _ => le_rfl) fun _ => le_rfl
  | returned hup =>
    exact h.keeps (.of_update hup fun _ => ⟨rfl, rfl, rfl, rfl⟩) (fun _ => le_rfl) fun _ => le_rfl
  | completed hlock hdone hn => exact h.complete hlock hdone hn

/-- No two workers are in `load_func` for one resource, and none is while `done_func` is called for
it. -/
structure OneLoad (s : Sys) : Prop where
  workers : ∀ (w w' : Nat) (j j' : Job), s.pool.workers[w]? = some (.loading j) →
    s.pool.workers[w']? = some (.loading j') → j.rman = j'.rman → j.res = j'.res → w = w'
  done : ∀ m rman startTime i p, s.clients m = some ⟨rman, .doneCall startTime i p⟩ →
    ∀ (w : Nat) (j : Job), s.pool.workers[w]? = some (.loading j) → ¬ (j.rman = m ∧ j.res = p)

/-- **At most one load of a resource at a time**, in every run in which `resman_reload` always finds
the flags `pending` and `done_pending` of the resource clear. -/
theorem oneLoad_of_run {numThreads : Nat} {as : List Action} {s : Sys}
    (hR : Along step (OnClient ReloadsIdle) (.initial numThreads) as)
    (h : exec step (.initial numThreads) as = some s) : OneLoad s := by
  obtain ⟨hinv, habsent⟩ := view_invariant (I := Exclusive) (fun d f n => Exclusive.init d f)
    (fun m a c n c' n' hI hR hv => hI.step hR hv) hR h
  have hloading : ∀ (w : Nat) (j : Job), s.pool.workers[w]? = some (.loading j) →
      (fun wk : Worker => wk.job.any (·.refers j.rman j.res)) (.loading j) = true := by
    intro w j _
    simp [Worker.job, Job.refers]
  refine ⟨fun w w' j j' hw hw' hm hp => ?_, fun m rman startTime i p hc w j hw hj => ?_⟩
  · by_contra hne
    have htwo := two_le_countP
      (f := fun wk : Worker => wk.job.any (·.refers j.rman j.res)) hne hw hw'
      (hloading w j hw) (by simp [Worker.job, Job.refers, hm, hp])
    cases hc : s.clients j.rman with
    | none =>
      have hzero := habsent _ hc j.res
      unfold Pool.njobs at hzero
      omega
    | some c =>
      have hone := (hinv _ c hc).one j.res
      rw [inFlight, Pool.njobs] at hone
      omega
  · obtain ⟨rfl, rfl⟩ := hj
    have hpos := countP_pos_of_slot (f := fun wk : Worker => wk.job.any (·.refers j.rman j.res)) hw
      (hloading w j hw)
    have hone := (hinv _ _ hc).one j.res
    rw [inFlight, Pool.njobs] at hone
    simp only [Pc.locks, decide_true, Bool.toNat_true] at hone
    omega

/-- A file is loaded and watched, and modified once; the reload is enqueued when
its delay is over. -/
def modifiedOnce : List Action :=
  [.create 0 true false, .call 0 (.add "a" 0 {})] ++ clientSteps 0 {} 3 ++ workerSteps 0 {} 5 ++
  .call 0 .poll :: clientSteps 0 { watch := some 1 } 9 ++
  .call 0 .poll :: clientSteps 0 {} 2 ++
    .client 0 { event := some ⟨1, inModify, 0, 0⟩ } :: clientSteps 0 {} 6 ++
  .call 0 .poll :: clientSteps 0 { now := 200 } 12 ++ workerSteps 0 {} 2

theorem oneLoad_of_run_modifiedOnce :
    OneLoad ((exec step (.initial 2) modifiedOnce).get (by decide +kernel)) :=
  oneLoad_of_run (by decide +kernel) (Option.some_get _).symm

/-- The file is modified again while the worker is still loading it. -/
def modifiedTwice : List Action :=
  modifiedOnce ++
  .call 0 .poll :: clientSteps 0 { now := 210 } 2 ++
    .client 0 { event := some ⟨1, inModify, 0, 0⟩ } :: clientSteps 0 { now := 210 } 6 ++
  .call 0 .poll :: clientSteps 0 { now := 400 } 12 ++ workerSteps 1 {} 2

/-- Two workers load the file that was modified twice. -/
theorem not_oneLoad_modifiedTwice :
    ¬ ∀ numThreads as s, exec step (.initial numThreads) as = some s → OneLoad s := by
  intro hall
  have hone : OneLoad ((exec step (.initial 2) modifiedTwice).get (by decide +kernel)) :=
    hall 2 modifiedTwice _ (Option.some_get _).symm
  have hsame := hone.workers 0 1 ⟨0, 0, 0⟩ ⟨0, 0, 0⟩ (by decide +kernel) (by decide +kernel) rfl rfl
  cases hsame

end Resman.Manager
