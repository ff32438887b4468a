import Resman.Manager.Quiet

/-!
# The cases of a step

`LocalStep` lists what `localStep` can do, one constructor for each branch of the source: the
position before and after, what the branch has tested, and what it changes, up to quiet changes.
`PoolStep`, `WorkerStep` and `CallStep` do the same for a client's step on the pool, for a step of a
worker and for the first step of a call. `localStep_cases`, `poolStep_cases`, `workerStep_cases` and
`callStep_cases` say that there are no other cases, so an invariant is proved over these lists and
not over the code again.
-/

namespace Resman.Manager

open Lib Rb FileWatch

/-! ## Steps inside a call -/

/-- What the last section of `work_func` writes to the resource. -/
def finish (doneFunc : Bool) (r : Resource) : Resource :=
  { r with
    pending := false
    donePending := r.donePending || doneFunc
    deletePending := r.deletePending || (!doneFunc && r.result = -1 && r.numLoads = 0) }

inductive LocalStep (rman : Rman) : Pc → Rman → Pc → Prop where
  | reloadTask {rman' : Rman} {p : ResPtr} {k : Cont} {t : TaskPtr} (h : Quiet ∅ rman rman') :
      LocalStep rman (.reloadTask p k) rman' (.reloadFlag p t k)
  | reloadFlag {rman' : Rman} {p : ResPtr} {k : Cont} {t : TaskPtr}
      (h : (rman.update p fun r => { r with pending := true }) = some rman') :
      LocalStep rman (.reloadFlag p t k) rman' (.reloadEnq p t k)
  | delEnd {i msec : Nat} (hi : rman.res.length ≤ i) :
      LocalStep rman (.delScan i) rman (.watch msec)
  | delSkip {i : Nat} : LocalStep rman (.delScan i) rman (.delScan (i + 1))
  | delFound {p : ResPtr} {i : Nat} (hi : rman.res[i]? = some (some p)) :
      LocalStep rman (.delScan i) rman (.delTest i p)
  | delBusy {p : ResPtr} {r : Resource} {i : Nat} (hr : rman.heap p = some r)
      (hpend : r.pending = true) :
      LocalStep rman (.delTest i p) rman (.delScan (i + 1))
  | delFree {p : ResPtr} {r : Resource} {i : Nat} (hr : rman.heap p = some r)
      (hpend : r.pending = false) :
      LocalStep rman (.delTest i p) rman (.delCall i p)
  | delCall {p : ResPtr} {i : Nat} :
      LocalStep rman (.delCall i p) (callDestroy rman i) (.rmStop i p (.del (i + 1)))
  | rmStop {rman' : Rman} {p : ResPtr} {i : Nat} {k : Cont} (h : Quiet ∅ rman rman') :
      LocalStep rman (.rmStop i p k) rman' (.rmCall i p k)
  | rmCall {p : ResPtr} {i : Nat} {k : Cont} :
      LocalStep rman (.rmCall i p k) (callDestroy rman i) (.rmFree i p k)
  | rmFree {rman' : Rman} {p : ResPtr} {i : Nat} {k : Cont}
      (h : freeResource rman i p = some rman') :
      LocalStep rman (.rmFree i p k) rman' k.resume
  | event {rman' : Rman} {msec : Nat} (h : Quiet ∅ rman rman') :
      LocalStep rman (.watch msec) rman' (.watch msec)
  | watchEnd {msec : Nat} {wds : List (BitVec 32)} :
      LocalStep rman (.watch msec) rman (.modset wds)
  | modsetEnd {rman' : Rman} (h : Quiet ∅ rman rman') : LocalStep rman (.modset []) rman' .drain
  | modsetSkip {wd : BitVec 32} {wds : List (BitVec 32)} :
      LocalStep rman (.modset (wd :: wds)) rman (.modset wds)
  | modsetReload {p : ResPtr} {wd : BitVec 32} {wds : List (BitVec 32)} (ht : Touched rman p) :
      LocalStep rman (.modset (wd :: wds)) rman (.reloadTask p (.modset wds))
  | doneStart {startTime : Nat} (hdone : rman.doneFunc = true) :
      LocalStep rman .doneStart rman (.doneScan startTime 0)
  | noDone : LocalStep rman .doneStart rman .idle
  | doneEnd {startTime i : Nat} : LocalStep rman (.doneScan startTime i) rman .idle
  | doneSkip {startTime i : Nat} :
      LocalStep rman (.doneScan startTime i) rman (.doneScan startTime (i + 1))
  | doneTake {rman' : Rman} {p : ResPtr} {r : Resource} {startTime i : Nat}
      (hi : rman.res[i]? = some (some p)) (hr : rman.heap p = some r)
      (hdone : r.donePending = true)
      (h : (rman.update p fun r => { r with donePending := false }) = some rman') :
      LocalStep rman (.doneScan startTime i) rman' (.doneCall startTime i p)
  | doneLate {p : ResPtr} {startTime i : Nat} (ht : Touched rman p) :
      LocalStep rman (.doneScan startTime i) rman (.doneReload startTime i p)
  | doneReload {rman' : Rman} {p : ResPtr} {startTime i : Nat} (h : Quiet ∅ rman rman') :
      LocalStep rman (.doneReload startTime i p) rman' (.reloadTask p (.done startTime (i + 1)))
  | doneFail {p : ResPtr} {r : Resource} {startTime i : Nat} (hr : rman.heap p = some r)
      (hloads : r.numLoads = 0) :
      LocalStep rman (.doneCall startTime i p) rman (.rmStop i p (.done startTime (i + 1)))
  | doneOk {rman₁ rman' : Rman} {p : ResPtr} {pc' : Pc} {startTime i : Nat}
      (h : (rman.update p fun r => { r with numLoads := r.numLoads + 1 }) = some rman₁)
      (hq : Quiet {p} rman₁ rman') (hpc' : pc' = .idle ∨ pc' = .doneScan startTime (i + 1)) :
      LocalStep rman (.doneCall startTime i p) rman' pc'
  | destroyEnd {i : Nat} (hi : rman.res.length ≤ i) :
      LocalStep rman (.destroyScan i) rman .destroyRelease
  | destroySkip {i : Nat} (hi : rman.res[i]? = some none) :
      LocalStep rman (.destroyScan i) rman (.destroyScan (i + 1))
  | destroyFound {p : ResPtr} {i : Nat} (hi : rman.res[i]? = some (some p)) :
      LocalStep rman (.destroyScan i) rman (.destroyCall i p)
  | destroyCall {p : ResPtr} {i : Nat} :
      LocalStep rman (.destroyCall i p) (callDestroy rman i) (.destroyFree i p)
  | destroyFree {p : ResPtr} {r : Resource} {i : Nat} (hr : rman.heap p = some r) :
      LocalStep rman (.destroyFree i p)
        { rman with heap := Function.update rman.heap p none, log := .freed p :: rman.log }
        (.destroyScan (i + 1))

variable {rman rman₁ rman' : Rman} {p : ResPtr} {r : Resource} {o : Oracle} {pc pc' : Pc}

/-- Two writes to a resource are one. -/
theorem update_update {f g : Resource → Resource} (h : rman.update p f = some rman₁) :
    rman₁.update p g = rman.update p fun r => g (f r) := by
  obtain ⟨r, hr, rfl⟩ := heap_of_update h
  simp [Rman.update, hr]

theorem callDestroy_res (i : Nat) : (callDestroy rman i).res = rman.res := by
  unfold callDestroy
  split <;> rfl

theorem update_congr {f g : Resource → Resource} (hr : rman.heap p = some r) (h : f r = g r) :
    rman.update p f = rman.update p g := by
  simp [Rman.update, hr, h]

theorem workDone_spec (h : workDone rman p o = some rman') :
    ∃ rman₁, rman.update p (finish rman.doneFunc) = some rman₁ ∧ Quiet {p} rman₁ rman' ∧
      (rman.doneFunc = true → Quiet ∅ rman₁ rman') := by
  simp only [workDone, Option.bind_eq_bind, Option.bind_eq_some_iff] at h
  obtain ⟨rman₁, hup, r₁, hr₁, h⟩ := h
  obtain ⟨r, hr, hrman₁⟩ := Option.map_eq_some_iff.1 hup
  have hdone : rman₁.doneFunc = rman.doneFunc := by rw [← hrman₁]
  obtain rfl : { r with pending := false } = r₁ := by
    rw [← hrman₁] at hr₁
    simpa using hr₁
  split at h
  · next hd =>
    rw [hdone] at hd
    rw [update_update hup] at h
    refine ⟨rman', ?_, .refl _, fun _ => .refl _⟩
    rw [← h]
    exact update_congr hr (by simp [finish, hd])
  · next hd =>
    rw [hdone, Bool.not_eq_true] at hd
    split at h
    · next hres =>
      split at h
      · next hloads =>
        rw [update_update hup] at h
        refine ⟨rman', ?_, .refl _, fun _ => .refl _⟩
        rw [← h]
        exact update_congr hr (by simp_all [finish])
      · next hloads =>
        obtain rfl := Option.some.inj h
        refine ⟨rman₁, ?_, .refl _, fun _ => .refl _⟩
        rw [← hup]
        exact update_congr hr (by simp_all [finish])
    · next hres =>
      obtain ⟨⟨rman₂, ok⟩, hstart, h⟩ := Option.bind_eq_some_iff.1 h
      obtain rfl := Option.some.inj h
      refine ⟨rman₁, ?_, startWatch_quiet hstart, fun hd' => by simp [hd] at hd'⟩
      rw [← hup]
      exact update_congr hr (by simp_all [finish])

theorem doneReturn_cases {startTime i : Nat}
    (h : doneReturn rman startTime i p o = some (rman', pc')) :
    LocalStep rman (.doneCall startTime i p) rman' pc' := by
  simp only [doneReturn, Option.bind_eq_bind, Option.bind_eq_some_iff] at h
  obtain ⟨r, hr, h⟩ := h
  split at h
  · next hfail =>
    obtain ⟨rfl, rfl⟩ := Prod.mk.inj (Option.some.inj h)
    exact .doneFail hr hfail.2
  · simp only [Option.bind_eq_some_iff] at h
    obtain ⟨rman₁, hup, ⟨rman₂, ok⟩, hstart, h⟩ := h
    have hq := startWatch_quiet hstart
    split at h
    · obtain ⟨rfl, rfl⟩ := Prod.mk.inj (Option.some.inj h)
      exact .doneOk hup hq (.inl rfl)
    · obtain ⟨rfl, rfl⟩ := Prod.mk.inj (Option.some.inj h)
      exact .doneOk hup hq (.inr rfl)

theorem delScan_cases {i : Nat} (h : delScan rman i o = some pc') :
    LocalStep rman (.delScan i) rman pc' := by
  unfold delScan at h
  split at h
  · next hi =>
    obtain rfl := Option.some.inj h
    exact .delEnd (List.getElem?_eq_none_iff.1 hi)
  · obtain rfl := Option.some.inj h
    exact .delSkip
  · next p hi =>
    simp only [Option.bind_eq_bind, Option.bind_eq_some_iff] at h
    obtain ⟨r, -, h⟩ := h
    obtain rfl := Option.some.inj h
    split
    · exact .delFound hi
    · exact .delSkip

theorem reloadModified_cases {wd : BitVec 32} {wds : List (BitVec 32)}
    (h : reloadModified rman wd wds = some pc') :
    LocalStep rman (.modset (wd :: wds)) rman pc' := by
  unfold reloadModified at h
  split at h
  · obtain rfl := Option.some.inj h
    exact .modsetSkip
  · next p hfind =>
    simp only [Option.bind_eq_bind, Option.bind_eq_some_iff] at h
    obtain ⟨r, -, h⟩ := h
    split at h
    · obtain rfl := Option.some.inj h
      exact .modsetReload (touched_of_find hfind)
    · cases h

theorem doneScan_cases {startTime i : Nat} (h : doneScan rman startTime i = some (rman', pc')) :
    LocalStep rman (.doneScan startTime i) rman' pc' := by
  unfold doneScan at h
  split at h
  · obtain ⟨rfl, rfl⟩ := Prod.mk.inj (Option.some.inj h)
    exact .doneEnd
  · obtain ⟨rfl, rfl⟩ := Prod.mk.inj (Option.some.inj h)
    exact .doneSkip
  · next p hi =>
    simp only [Option.bind_eq_bind, Option.bind_eq_some_iff] at h
    obtain ⟨r, hr, h⟩ := h
    split at h
    · next hdone =>
      obtain ⟨rman₁, hup, h⟩ := Option.bind_eq_some_iff.1 h
      obtain ⟨rfl, rfl⟩ := Prod.mk.inj (Option.some.inj h)
      exact .doneTake hi hr hdone hup
    · split at h
      · next hlate =>
        obtain ⟨rfl, rfl⟩ := Prod.mk.inj (Option.some.inj h)
        exact .doneLate (.inr ⟨r, hr, hlate.1⟩)
      · obtain ⟨rfl, rfl⟩ := Prod.mk.inj (Option.some.inj h)
        exact .doneSkip

/-- **The cases of a step inside a call.** -/
theorem localStep_cases (h : localStep rman o pc = some (rman', pc')) :
    LocalStep rman pc rman' pc' := by
  cases pc with
  | idle | reloadEnq | drain | destroyRelease | poolClear | poolQuit | poolJoin | dead => cases h
  | reloadTask p k =>
    obtain ⟨rfl, rfl⟩ := Prod.mk.inj (Option.some.inj h)
    exact .reloadTask allocTask_quiet
  | reloadFlag p t k =>
    obtain ⟨rman₁, hup, heq⟩ := Option.map_eq_some_iff.1 h
    obtain ⟨rfl, rfl⟩ := Prod.mk.inj heq
    exact .reloadFlag hup
  | delScan i =>
    obtain ⟨pc₁, hscan, heq⟩ := Option.map_eq_some_iff.1 h
    obtain ⟨rfl, rfl⟩ := Prod.mk.inj heq
    exact delScan_cases hscan
  | delTest i p =>
    obtain ⟨r, hr, heq⟩ := Option.map_eq_some_iff.1 h
    obtain ⟨rfl, rfl⟩ := Prod.mk.inj heq
    split
    · next hpend => exact .delBusy hr hpend
    · next hpend => exact .delFree hr (by simpa using hpend)
  | delCall i p =>
    obtain ⟨rfl, rfl⟩ := Prod.mk.inj (Option.some.inj h)
    exact .delCall
  | rmStop i p k =>
    obtain ⟨rman₁, hstop, heq⟩ := Option.map_eq_some_iff.1 h
    obtain ⟨rfl, rfl⟩ := Prod.mk.inj heq
    exact .rmStop (stopWatch_quiet hstop)
  | rmCall i p k =>
    obtain ⟨rfl, rfl⟩ := Prod.mk.inj (Option.some.inj h)
    exact .rmCall
  | rmFree i p k =>
    obtain ⟨rman₁, hfree, heq⟩ := Option.map_eq_some_iff.1 h
    obtain ⟨rfl, rfl⟩ := Prod.mk.inj heq
    exact .rmFree hfree
  | watch msec =>
    simp only [localStep] at h
    split at h
    · obtain ⟨rman₁, hev, heq⟩ := Option.map_eq_some_iff.1 h
      obtain ⟨rfl, rfl⟩ := Prod.mk.inj heq
      exact .event (handleEvent_quiet hev)
    · obtain ⟨rfl, rfl⟩ := Prod.mk.inj (Option.some.inj h)
      exact .watchEnd
  | modset wds =>
    cases wds with
    | nil =>
      obtain ⟨rfl, rfl⟩ := Prod.mk.inj (Option.some.inj h)
      exact .modsetEnd (modset_quiet _)
    | cons wd wds =>
      obtain ⟨pc₁, hmod, heq⟩ := Option.map_eq_some_iff.1 h
      obtain ⟨rfl, rfl⟩ := Prod.mk.inj heq
      exact reloadModified_cases hmod
  | doneStart =>
    obtain ⟨rfl, rfl⟩ := Prod.mk.inj (Option.some.inj h)
    split
    · next hdone => exact .doneStart hdone
    · exact .noDone
  | doneScan startTime i => exact doneScan_cases h
  | doneReload startTime i p =>
    obtain ⟨rman₁, hup, heq⟩ := Option.map_eq_some_iff.1 h
    obtain ⟨rfl, rfl⟩ := Prod.mk.inj heq
    exact .doneReload (Rman.update_quiet hup (fun _ => rfl) fun _ _ ht => absurd rfl ht)
  | doneCall startTime i p => exact doneReturn_cases h
  | destroyScan i =>
    simp only [localStep] at h
    split at h
    · next hi =>
      obtain ⟨rfl, rfl⟩ := Prod.mk.inj (Option.some.inj h)
      exact .destroyEnd (List.getElem?_eq_none_iff.1 hi)
    · next hi =>
      obtain ⟨rfl, rfl⟩ := Prod.mk.inj (Option.some.inj h)
      exact .destroySkip hi
    · next p hi =>
      obtain ⟨rfl, rfl⟩ := Prod.mk.inj (Option.some.inj h)
      exact .destroyFound hi
  | destroyCall i p =>
    obtain ⟨rfl, rfl⟩ := Prod.mk.inj (Option.some.inj h)
    exact .destroyCall
  | destroyFree i p =>
    obtain ⟨r, hr, h⟩ := Option.bind_eq_some_iff.1 h
    obtain ⟨rfl, rfl⟩ := Prod.mk.inj (Option.some.inj h)
    exact .destroyFree hr

/-! ## Steps on the pool -/

inductive PoolStep (m : MgrPtr) (pool : Pool) (o : Oracle) : Pc → Pool → Pc → Prop where
  | enqueue {p : ResPtr} {t : TaskPtr} {k : Cont} (hmem : o.mem = true) :
      PoolStep m pool o (.reloadEnq p t k) { pool with queue := pool.queue ++ [⟨t, m, p⟩] } k.resume
  | lost {p : ResPtr} {t : TaskPtr} {k : Cont} (hmem : o.mem = false) :
      PoolStep m pool o (.reloadEnq p t k) pool k.resume
  | drain : PoolStep m pool o .drain { pool with pipe := 0 } .doneStart
  | release {pc' : Pc} (hpc' : pc' = .poolClear ∨ pc' = .dead) :
      PoolStep m pool o .destroyRelease { pool with nref := pool.nref - 1 } pc'
  | clear : PoolStep m pool o .poolClear { pool with queue := [] } .poolQuit
  | quit : PoolStep m pool o .poolQuit { pool with shouldQuit := true } .poolJoin
  | join : PoolStep m pool o .poolJoin { pool with joined := true } .dead

/-- **The cases of a client's step on the pool.** A job that is lost had no
memory for its queue node. -/
theorem poolStep_cases {m : MgrPtr} {pool pool' : Pool} {o : Oracle} {pc pc' : Pc}
    (h : poolStep m pool o pc = some (pool', pc')) : PoolStep m pool o pc pool' pc' := by
  cases pc with
  | reloadEnq p t k =>
    obtain ⟨rfl, rfl⟩ := Prod.mk.inj (Option.some.inj h)
    split
    · next hmem => exact .enqueue hmem
    · next hmem => exact .lost (by simpa using hmem)
  | drain =>
    obtain ⟨rfl, rfl⟩ := Prod.mk.inj (Option.some.inj h)
    exact .drain
  | destroyRelease =>
    obtain ⟨rfl, rfl⟩ := Prod.mk.inj (Option.some.inj h)
    refine .release ?_
    split
    · exact .inl rfl
    · exact .inr rfl
  | poolClear =>
    obtain ⟨rfl, rfl⟩ := Prod.mk.inj (Option.some.inj h)
    exact .clear
  | poolQuit =>
    obtain ⟨rfl, rfl⟩ := Prod.mk.inj (Option.some.inj h)
    exact .quit
  | poolJoin =>
    simp only [poolStep] at h
    split at h
    · obtain ⟨rfl, rfl⟩ := Prod.mk.inj (Option.some.inj h)
      exact .join
    · cases h
  | _ => cases h

/-! ## Steps of a worker -/

theorem lockedSection_eq_some {c c' : Client} {p : ResPtr} {f : Rman → Option Rman}
    (h : lockedSection c p f = some c') :
    c.pc.locks p = false ∧ ∃ rman, f c.rman = some rman ∧ c' = ⟨rman, c.pc⟩ := by
  unfold lockedSection at h
  split at h
  · cases h
  · rename_i hcond
    obtain ⟨rman, hf, rfl⟩ := Option.map_eq_some_iff.1 h
    exact ⟨by simpa using fun hl => hcond (.inl hl), rman, hf, rfl⟩

/-- A worker leaves, takes a job, writes its completion event, or goes on with its job. -/
inductive WorkerStep (s : Sys) (w : Nat) (o : Oracle) : Sys → Prop where
  | exit (hw : s.pool.workers[w]? = some .idle) (hquit : s.pool.shouldQuit = true) :
      WorkerStep s w o { s with pool := s.pool.setWorker w .exited }
  | take {j : Job} {queue : List Job} (hw : s.pool.workers[w]? = some .idle)
      (hquit : s.pool.shouldQuit = false) (hqueue : s.pool.queue = j :: queue) :
      WorkerStep s w o { s with pool := { s.pool with queue }.setWorker w (.taken j) }
  | sent (hw : s.pool.workers[w]? = some .finishing) :
      WorkerStep s w o { s with pool := { s.pool with pipe := s.pool.pipe + 1 }.setWorker w .idle }
  | taken {j : Job} {rman : Rman} {pc : Pc} (hw : s.pool.workers[w]? = some (.taken j))
      (hc : s.clients j.rman = some ⟨rman, pc⟩) :
      WorkerStep s w o ⟨Function.update s.clients j.rman (some ⟨freeTask rman j.task, pc⟩),
        s.pool.setWorker w (.loading j)⟩
  | returned {j : Job} {rman rman' : Rman} {pc : Pc} (hw : s.pool.workers[w]? = some (.loading j))
      (hc : s.clients j.rman = some ⟨rman, pc⟩)
      (hup : (rman.update j.res fun r => { r with result := o.ret }) = some rman') :
      WorkerStep s w o ⟨Function.update s.clients j.rman (some ⟨rman', pc⟩),
        s.pool.setWorker w (.loaded j)⟩
  | completed {j : Job} {rman rman' : Rman} {pc : Pc} (hw : s.pool.workers[w]? = some (.loaded j))
      (hc : s.clients j.rman = some ⟨rman, pc⟩) (hlock : pc.locks j.res = false)
      (hdone : workDone rman j.res o = some rman') :
      WorkerStep s w o ⟨Function.update s.clients j.rman (some ⟨rman', pc⟩),
        s.pool.setWorker w .finishing⟩

/-- **The cases of a worker's step.** -/
theorem workerStep_cases {s s' : Sys} {w : Nat} (h : workerStep s w o = some s') :
    WorkerStep s w o s' := by
  simp only [workerStep, Option.bind_eq_bind, Option.bind_eq_some_iff] at h
  obtain ⟨wk, hw, h⟩ := h
  cases wk with
  | idle =>
    simp only at h
    split at h
    · next hquit =>
      obtain rfl := Option.some.inj h
      exact .exit hw hquit
    · next hquit =>
      split at h
      · cases h
      · next hqueue =>
        obtain rfl := Option.some.inj h
        exact .take hw (by simpa using hquit) hqueue
  | finishing =>
    obtain rfl := Option.some.inj h
    exact .sent hw
  | exited => cases h
  | taken j =>
    simp only [Option.bind_eq_some_iff] at h
    obtain ⟨⟨rman, pc⟩, hc, ⟨c', wk'⟩, hwork, h⟩ := h
    obtain rfl := Option.some.inj h
    obtain ⟨c₁, hsec, heq⟩ := Option.map_eq_some_iff.1 hwork
    obtain ⟨rfl, rfl⟩ := Prod.mk.inj heq
    obtain ⟨-, rman', hf, rfl⟩ := lockedSection_eq_some hsec
    obtain rfl := Option.some.inj hf
    exact .taken hw hc
  | loading j =>
    simp only [Option.bind_eq_some_iff] at h
    obtain ⟨⟨rman, pc⟩, hc, ⟨c', wk'⟩, hwork, h⟩ := h
    obtain rfl := Option.some.inj h
    simp only [workStep] at hwork
    split at hwork
    · cases hwork
    · obtain ⟨rman', hup, heq⟩ := Option.map_eq_some_iff.1 hwork
      obtain ⟨rfl, rfl⟩ := Prod.mk.inj heq
      exact .returned hw hc hup
  | loaded j =>
    simp only [Option.bind_eq_some_iff] at h
    obtain ⟨⟨rman, pc⟩, hc, ⟨c', wk'⟩, hwork, h⟩ := h
    obtain rfl := Option.some.inj h
    obtain ⟨c₁, hsec, heq⟩ := Option.map_eq_some_iff.1 hwork
    obtain ⟨rfl, rfl⟩ := Prod.mk.inj heq
    obtain ⟨hlock, rman', hf, rfl⟩ := lockedSection_eq_some hsec
    exact .completed hw hc hlock hf

/-! ## The first step of a call -/

/-- The resource that `add_resource` makes. -/
def newResource (idx : Nat) (fname : String) (data : Nat) : Resource :=
  ⟨idx, fname, data, 0, false, false, false, 0, 0, 0⟩

/-- The manager after `add_resource` has appended a resource. -/
def appendResource (rman : Rman) (fname : String) (data : Nat) : Rman :=
  { rman with
    res := rman.res ++ [some rman.nalloc]
    heap := Function.update rman.heap rman.nalloc (some (newResource rman.res.length fname data))
    nalloc := rman.nalloc + 1
    log := .created rman.nalloc rman.res.length :: rman.log }

theorem appendResource_heap_of_ne {q : ResPtr} {fname : String} {data : Nat}
    (hq : q ≠ rman.nalloc) : (appendResource rman fname data).heap q = rman.heap q :=
  Function.update_of_ne hq _ _

theorem appendResource_heap_self {fname : String} {data : Nat} :
    (appendResource rman fname data).heap rman.nalloc =
      some (newResource rman.res.length fname data) :=
  Function.update_self _ _ _

theorem mem_heap_append {q : ResPtr} {fname : String} {data : Nat} :
    r ∈ (appendResource rman fname data).heap q ↔
      q = rman.nalloc ∧ r = newResource rman.res.length fname data ∨
        q ≠ rman.nalloc ∧ r ∈ rman.heap q := by
  rw [appendResource, Option.mem_def, update_eq_some, Option.some_inj, eq_comm (a := r)]
  rfl

inductive CallStep (rman : Rman) : Call → Rman → Pc → Prop where
  | setopt {timeslice : Nat} :
      CallStep rman (.setopt timeslice) { rman with timeslice } .idle
  | stay {f : Call} : CallStep rman f rman .idle
  | added {fname : String} {data : Nat} {mem : AddMem}
      (hfind : findResource rman fname = some (-1)) (hfull : none ∉ rman.res) :
      CallStep rman (.add fname data mem) (appendResource rman fname data)
        (.reloadTask rman.nalloc .add)
  | remove {rman' : Rman} {p : ResPtr} {id : Nat} (hi : rman.res[id]? = some (some p))
      (h : (rman.update p fun r => { r with deletePending := true }) = some rman') :
      CallStep rman (.remove id) rman' .idle
  | poll : CallStep rman .poll rman (.delScan 0)
  | destroy : CallStep rman .destroy rman (.destroyScan 0)

theorem addResource_cases {fname : String} {data : Nat} {mem : AddMem} {new : Option ResPtr}
    (h : addResource rman fname data mem = some (rman', new)) :
    (new = none ∧ rman' = rman) ∨
      (new = some rman.nalloc ∧ rman' = appendResource rman fname data ∧ none ∉ rman.res) := by
  unfold addResource at h
  split at h
  · split at h
    · next hfull =>
      split at h
      · obtain ⟨rfl, rfl⟩ := Prod.mk.inj (Option.some.inj h)
        refine .inr ⟨rfl, rfl, fun hmem => ?_⟩
        have := List.findIdx?_eq_none_iff.1 hfull none hmem
        cases this
      · cases h
    · cases h
  · obtain ⟨rfl, rfl⟩ := Prod.mk.inj (Option.some.inj h)
    exact .inl ⟨rfl, rfl⟩

/-- **The cases of the first step of a call.** -/
theorem callStep_cases {f : Call} (h : callStep rman f = some (rman', pc')) :
    CallStep rman f rman' pc' := by
  cases f with
  | setopt timeslice =>
    obtain ⟨rfl, rfl⟩ := Prod.mk.inj (Option.some.inj h)
    exact .setopt
  | add fname data mem =>
    simp only [callStep, Option.bind_eq_bind, Option.bind_eq_some_iff] at h
    obtain ⟨idx, hfind, h⟩ := h
    split at h
    · obtain ⟨rfl, rfl⟩ := Prod.mk.inj (Option.some.inj h)
      exact .stay
    · next hidx =>
      obtain ⟨⟨rman₁, new⟩, hadd, hret⟩ := Option.bind_eq_some_iff.1 h
      rcases addResource_cases hadd with ⟨rfl, rfl⟩ | ⟨rfl, rfl, hfull⟩
      · obtain ⟨rfl, rfl⟩ := Prod.mk.inj (Option.some.inj hret)
        exact .stay
      · obtain ⟨rfl, rfl⟩ := Prod.mk.inj (Option.some.inj hret)
        exact .added (by rw [hfind, not_not.1 hidx]) hfull
  | find fname =>
    obtain ⟨idx, -, heq⟩ := Option.map_eq_some_iff.1 h
    obtain ⟨rfl, rfl⟩ := Prod.mk.inj heq
    exact .stay
  | remove id =>
    simp only [callStep, Option.bind_eq_bind, Option.bind_eq_some_iff] at h
    obtain ⟨slot, hslot, p, hp, rman₁, hup, h⟩ := h
    obtain ⟨rfl, rfl⟩ := Prod.mk.inj (Option.some.inj h)
    exact .remove (hp ▸ hslot) hup
  | poll =>
    obtain ⟨rfl, rfl⟩ := Prod.mk.inj (Option.some.inj h)
    exact .poll
  | destroy =>
    obtain ⟨rfl, rfl⟩ := Prod.mk.inj (Option.some.inj h)
    exact .destroy

end Resman.Manager
