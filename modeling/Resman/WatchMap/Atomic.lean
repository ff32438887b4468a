import Mathlib.Logic.Relation
import Resman.WatchMap.Correct

/-!
# The split steps without interference

The steps of the main thread and of the workers are split at their tree operations. When nobody else
is at the map, they are together the steps of `Resman.Manager`: the steps for an inotify event are
`handleEvent` (`handleEvent_steps`), those of `remove_resource` and of `reload_modified` the calls
of `stopWatch` and `reloadModified` (`stop_steps`, `reload_steps`), and those of a worker the last
section of `work_func` (`insert_steps`).
-/

namespace Resman.WatchMap

open Lib Rb FileWatch Manager

variable {m : MgrPtr} {x x' : State} {c c' : Client} {o : Oracle} {torn : WatchTree} {w : Nat}
  {p : ResPtr} {fd : BitVec 32} {pos pos' : MainAt} {acc : Access} {rman rman' : Rman} {pc : Pc}
  {ev : InotifyEvent} {msec : Nat}

/-- The main thread is at a position, in a state in which no thread has raced
and no worker is inside. -/
structure At (m : MgrPtr) (c : Client) (pos : MainAt) (x : State) : Prop where
  client : x.sys.clients m = some c
  main : x.main = pos
  clean : x.raced = false
  nobody : x.inserting = []

/-- The main thread gets there by steps of its own, with the same answers from outside. -/
def Gets (m : MgrPtr) (o : Oracle) (torn : WatchTree) (x : State) (c : Client) (pos : MainAt) :
    Prop :=
  ∃ x', Relation.ReflTransGen (fun x x' => mapStep m x (.main o torn) = some x') x x' ∧
    At m c pos x'

theorem At.found (h : At m c pos x) : x.found c torn = c.rman := by
  simp [State.found, h.clean]

theorem Gets.step (hs : mapStep m x (.main o torn) = some x') (h : Gets m o torn x' c pos) :
    Gets m o torn x c pos := by
  obtain ⟨y, hy, hat⟩ := h
  exact ⟨y, .head hs hy, hat⟩

theorem Gets.trans (h : Gets m o torn x c pos)
    (h' : ∀ y, At m c pos y → Gets m o torn y c' pos') : Gets m o torn x c' pos' := by
  obtain ⟨y, hy, hat⟩ := h
  obtain ⟨z, hz, hat'⟩ := h' y hat
  exact ⟨z, hy.trans hz, hat'⟩

/-- The main thread enters an operation and leaves it. -/
theorem At.enter (h : At m c pos x) (acc : Access) (hpos : pos.access = none)
    (hnext : nextAccess c pos o = some acc)
    (hleave : ∀ y, At m c (.inside acc) y →
      ∃ es, leave m y c o torn acc = some { y.setClient m c' with main := pos', edits := es }) :
    Gets m o torn x c' pos' := by
  have henter : mapStep m x (.main o torn) =
      some { x with main := .inside acc, raced := false } := by
    simp only [mapStep, mainStep, h.client, h.main, h.clean, h.nobody, Option.bind_eq_bind,
      Option.bind_some]
    cases pos with
    | inside acc' => cases hpos
    | free | event => simp [hnext]
  have hin : At m c (.inside acc) { x with main := .inside acc, raced := false } :=
    ⟨h.client, rfl, rfl, h.nobody⟩
  obtain ⟨es, hy⟩ := hleave _ hin
  have hat : At m c' pos' { x.setClient m c' with main := pos', raced := false, edits := es } :=
    ⟨Function.update_self .., rfl, rfl, h.nobody⟩
  refine .step henter (.step ?_ ⟨_, .refl, hat⟩)
  simp only [mapStep, mainStep, h.client, Option.bind_eq_bind, Option.bind_some]
  exact hy

/-- The main thread goes on between operations. -/
theorem At.pass (h : At m c pos x) (hpos : pos.access = none) (hnext : nextAccess c pos o = none)
    (hpass : WatchMap.pass m x c o = some { x.setClient m c' with main := pos' }) :
    Gets m o torn x c' pos' := by
  have hat : At m c' pos' { x.setClient m c' with main := pos' } :=
    ⟨Function.update_self .., rfl, h.clean, h.nobody⟩
  refine .step ?_ ⟨_, .refl, hat⟩
  simp only [mapStep, mainStep, h.client, h.main, Option.bind_eq_bind, Option.bind_some]
  cases pos with
  | inside acc' => cases hpos
  | free | event => simpa [hnext] using hpass

theorem At.setClient (h : At m c pos x) : x.setClient m c = x := by
  simp only [State.setClient]
  rw [← h.client, Function.update_eq_self]

theorem modify_steps (h : At m ⟨rman, .watch msec⟩ .free x) (hev : o.event = some ev)
    (hmod : ifFlag ev inModify (onModify · msec ev.wd) rman = some rman') :
    Gets m o torn x ⟨rman', .watch msec⟩ (.event ev .closeWrite) := by
  unfold ifFlag at hmod
  split at hmod
  · next hflag =>
    refine h.enter (.modify ev) rfl (by simp [nextAccess, hev, hflag]) fun y hy => ⟨y.edits, ?_⟩
    have hmod' : onModify (y.found ⟨rman, .watch msec⟩ torn) msec ev.wd = some rman' := by
      rw [hy.found]
      exact hmod
    simp only [leave, hmod', Option.bind_eq_bind, Option.bind_some]
    rfl
  · next hflag =>
    obtain rfl := Option.some.inj hmod
    refine h.pass rfl (by simp [nextAccess, hev, hflag]) ?_
    rw [h.setClient]
    simp [WatchMap.pass, h.main, hev]

theorem closeWrite_steps (h : At m ⟨rman, .watch msec⟩ (.event ev .closeWrite) x)
    (hclose : ifFlag ev inCloseWrite (onCloseWrite · ev.wd o) rman = some rman') :
    Gets m o torn x ⟨rman', .watch msec⟩ (.event ev .ignored) := by
  unfold ifFlag at hclose
  split at hclose
  · next hflag =>
    refine h.enter (.closeWrite ev) rfl (by simp [nextAccess, hflag]) fun y hy => ⟨y.edits, ?_⟩
    have hclose' : onCloseWrite (y.found ⟨rman, .watch msec⟩ torn) ev.wd o = some rman' := by
      rw [hy.found]
      exact hclose
    simp only [leave, hclose', Option.bind_eq_bind, Option.bind_some]
    rfl
  · next hflag =>
    obtain rfl := Option.some.inj hclose
    refine h.pass rfl (by simp [nextAccess, hflag]) ?_
    rw [h.setClient]
    simp [WatchMap.pass, h.main]

/-- `resman_start_watch` for an ignored event, with what follows. -/
theorem start_steps {r : Resource} {prev : BitVec 32} {ok : Bool} {rman₁ : Rman}
    (h : At m ⟨rman, .watch msec⟩ (.event ev (.start p prev)) x) (hr : rman.heap p = some r)
    (hnfd : r.nfd = 0) (hstart : startWatch rman p o = some (rman₁, ok))
    (hrest : (if ok then do
        let r ← rman₁.heap p
        let modset ← rbInserti rman₁.modset (some o.node) r.nfd none
        return { rman₁ with modset }
      else do
        let rman ← rman₁.update p fun r' => { r' with nfd := prev }
        stopWatch rman p) = some rman') :
    Gets m o torn x ⟨rman', .watch msec⟩ .free := by
  simp only [startWatch, hr, hnfd, Option.bind_eq_bind, Option.bind_some] at hstart
  split at hstart
  · next hpos => cases hpos
  · split at hstart
    · next hwatch =>
      -- the watch is dropped
      obtain ⟨rfl, rfl⟩ := Prod.mk.inj (Option.some.inj hstart)
      simp only [Bool.false_eq_true, if_false, Option.bind_eq_bind, Option.bind_eq_some_iff]
        at hrest
      obtain ⟨rman₂, hup, hstop⟩ := hrest
      have hgets : Gets m o torn x ⟨rman₂, .watch msec⟩ (.event ev (.stop p)) := by
        refine h.pass rfl (by simp [nextAccess, hr, hwatch]) ?_
        simp [WatchMap.pass, h.main, hr, hnfd, hup]
      refine hgets.trans fun y hy => ?_
      obtain ⟨r₂, hr₂, ⟨hpos, rfl⟩ | ⟨nresmap, calls, hpos, hdel, rfl⟩⟩ := stopWatch_cases hstop
      · refine hy.pass rfl (by simp [nextAccess, hr₂, hpos]) ?_
        rw [hy.setClient]
        simp [WatchMap.pass, hy.main, hr₂]
      · refine hy.enter (.drop r₂.nfd) rfl (by simp [nextAccess, hr₂, hpos])
          fun z hz => ⟨.delete r₂.nfd :: z.edits, ?_⟩
        simp only [leave, hz.found, hdel, Option.bind_eq_bind, Option.bind_some]
        rfl
    · next fd hwatch =>
      -- the watch is started again
      simp only [Option.bind_eq_some_iff] at hstart
      obtain ⟨nresmap, hins, rman₂, hup, hstart⟩ := hstart
      obtain ⟨rfl, rfl⟩ := Prod.mk.inj (Option.some.inj hstart)
      simp only [if_true, Option.bind_eq_bind, Option.bind_eq_some_iff] at hrest
      obtain ⟨r₂, hr₂, modset, hmod, hrest⟩ := hrest
      obtain rfl := Option.some.inj hrest
      have hfd : r₂.nfd = fd := by
        obtain ⟨r', -, rfl⟩ := heap_of_update hup
        simp only [Function.update_self] at hr₂
        exact Option.some.inj hr₂ ▸ rfl
      rw [hfd] at hmod
      refine h.enter (.restart p fd) rfl (by simp [nextAccess, hr, hnfd, hwatch])
        fun y hy => ⟨.insert fd p :: y.edits, ?_⟩
      simp only [leave, hy.found, hins, hup, hmod, Option.bind_eq_bind, Option.bind_some]
      rfl

theorem ignored_steps (h : At m ⟨rman, .watch msec⟩ (.event ev .ignored) x)
    (hign : ifFlag ev inIgnored (onIgnored · ev.wd o) rman = some rman') :
    Gets m o torn x ⟨rman', .watch msec⟩ .free := by
  unfold ifFlag at hign
  split at hign
  · next hflag =>
    have hnext : nextAccess ⟨rman, .watch msec⟩ (.event ev .ignored) o = some (.ignored ev) := by
      simp [nextAccess, hflag]
    simp only [onIgnored] at hign
    split at hign
    · next hfind =>
      obtain rfl := Option.some.inj hign
      refine h.enter _ rfl hnext fun y hy => ⟨y.edits, ?_⟩
      simp only [leave, hy.found, hfind]
      rfl
    · next p hfind =>
      simp only [Option.bind_eq_bind, Option.bind_eq_some_iff] at hign
      obtain ⟨r, hr, rman₁, hup, ⟨rman₂, ok⟩, hstart, hign⟩ := hign
      have hgets : Gets m o torn x ⟨rman₁, .watch msec⟩ (.event ev (.start p r.nfd)) := by
        refine h.enter _ rfl hnext fun y hy => ⟨y.edits, ?_⟩
        simp only [leave, hy.found, hfind, hr, hup, Option.bind_eq_bind, Option.bind_some]
        rfl
      refine hgets.trans fun y hy => ?_
      obtain ⟨r', hr', rfl⟩ := heap_of_update hup
      exact start_steps hy (Function.update_self ..) rfl hstart hign
  · next hflag =>
    obtain rfl := Option.some.inj hign
    refine h.pass rfl (by simp [nextAccess, hflag]) ?_
    rw [h.setClient]
    simp [WatchMap.pass, h.main]

/-- **The split steps of an event are `handleEvent`** when no worker is at the map. -/
theorem handleEvent_steps (h : At m ⟨rman, .watch msec⟩ .free x) (hev : o.event = some ev)
    (hhandle : handleEvent rman msec ev o = some rman') :
    Gets m o torn x ⟨rman', .watch msec⟩ .free := by
  simp only [handleEvent, Option.bind_eq_bind, Option.bind_eq_some_iff] at hhandle
  obtain ⟨rman₁, hmod, rman₂, hclose, hign⟩ := hhandle
  exact (modify_steps h hev hmod).trans fun y hy =>
    (closeWrite_steps hy hclose).trans fun z hz => ignored_steps hz hign

theorem stop_steps {i : Nat} {k : Cont} (h : At m ⟨rman, .rmStop i p k⟩ .free x)
    (hstop : stopWatch rman p = some rman') : Gets m o torn x ⟨rman', .rmCall i p k⟩ .free := by
  obtain ⟨r, hr, ⟨hnfd, rfl⟩ | ⟨nresmap, calls, hnfd, hdel, rfl⟩⟩ := stopWatch_cases hstop
  · refine h.pass rfl (by simp [nextAccess, hr, hnfd]) ?_
    simp [pass, h.main, Manager.step, h.client, localStep, hstop, State.setClient]
  · refine h.enter (.stop r.nfd) rfl (by simp [nextAccess, hr, hnfd])
      fun y hy => ⟨.delete r.nfd :: y.edits, ?_⟩
    simp only [leave, hy.found, hdel, Option.bind_eq_bind, Option.bind_some]
    rfl

theorem reload_steps {wd : BitVec 32} {wds : List (BitVec 32)}
    (h : At m ⟨rman, .modset (wd :: wds)⟩ .free x) (hmod : reloadModified rman wd wds = some pc) :
    Gets m o torn x ⟨rman, pc⟩ .free := by
  refine h.enter .reload rfl rfl fun y hy => ⟨y.edits, ?_⟩
  simp only [leave, hy.found, hmod, Option.bind_eq_bind, Option.bind_some]
  rfl

/-- The last section of `work_func`, when it registers a watch. -/
theorem workDone_insert {r : Resource} (hr : rman.heap p = some r) (hdone : rman.doneFunc = false)
    (hres : r.result ≠ -1) (hnfd : ¬ 0 < r.nfd.toInt) (hfd : o.watch = some fd)
    (h : workDone rman p o = some rman') :
    ∃ rman₁ nresmap, (rman.update p fun r => { r with pending := false }) = some rman₁ ∧
      rman₁.nresmap = rman.nresmap ∧
      rbInserti rman₁.nresmap (some o.node) fd (some p) = some nresmap ∧
      ({ rman₁ with nresmap }.update p fun r => { r with nfd := fd }) = some rman' := by
  simp only [workDone, Option.bind_eq_bind, Option.bind_eq_some_iff] at h
  obtain ⟨rman₁, hup, r₁, hr₁, h⟩ := h
  refine ⟨rman₁, ?_⟩
  have hmap := nresmap_of_update hup
  obtain ⟨r', hr', rfl⟩ := heap_of_update hup
  obtain rfl := Option.some.inj (hr.symm.trans hr')
  obtain rfl : { r with pending := false } = r₁ := by simpa using hr₁
  rw [if_neg (by simp [hdone]), if_neg hres] at h
  simp only [startWatch, Function.update_self, hnfd, if_false, hfd, Option.bind_eq_bind,
    Option.bind_some, Option.bind_eq_some_iff] at h
  obtain ⟨⟨rman₂, ok⟩, ⟨nresmap, hins, rman₃, hup', hret⟩, h⟩ := h
  obtain ⟨rfl, -⟩ := Prod.mk.inj (Option.some.inj hret)
  obtain rfl := Option.some.inj h
  exact ⟨nresmap, hup, hmap, hins, hup'⟩

theorem leaveInsert_eq {nresmap : WatchTree} (hc : x.sys.clients m = some c)
    (hclean : x.raced = false)
    (hins : rbInserti c.rman.nresmap (some o.node) fd (some p) = some nresmap)
    (hup : ({ c.rman with nresmap }.update p fun r => { r with nfd := fd }) = some rman') :
    (leaveInsert m x w o torn p fd).map State.sys =
      some ⟨Function.update x.sys.clients m (some { c with rman := rman' }),
        x.sys.pool.setWorker w .finishing⟩ := by
  simp [leaveInsert, hc, State.found, hclean, hins, hup]

/-- **The split steps of a worker are the last section of `work_func`** when
nobody else is at the map. -/
theorem insert_steps {sys : Sys} (hnext : nextInsert m x w o = some (p, fd))
    (hclean : x.raced = false) (hmain : x.main.access = none) (hnobody : x.inserting = [])
    (hfree : x.locks p = none) (h : Manager.workerStep x.sys w o = some sys) :
    ∃ y, mapStep m x (.worker w o torn) = some y ∧
      (mapStep m y (.worker w o torn)).map State.sys = some sys := by
  have hnext' := hnext
  simp only [nextInsert, Option.bind_eq_bind, Option.bind_eq_some_iff] at hnext'
  obtain ⟨wk, hw, hnext'⟩ := hnext'
  split at hnext'
  · next j =>
    split at hnext'
    · next hj =>
      obtain ⟨hj, hins⟩ := hj
      simp only [Option.bind_eq_some_iff] at hnext'
      obtain ⟨c, hc, r, hr, hnext'⟩ := hnext'
      split at hnext'
      · next hcond =>
        obtain ⟨hdone, hres, hnfd⟩ := hcond
        obtain ⟨fd', hfd, hnext'⟩ := Option.bind_eq_some_iff.1 hnext'
        obtain ⟨rfl, rfl⟩ := Prod.mk.inj (Option.some.inj hnext')
        simp only [Manager.workerStep, hw, hj, hc, workStep, Option.bind_eq_bind, Option.bind_some,
          Option.bind_eq_some_iff] at h
        obtain ⟨⟨c', wk'⟩, hwork, h⟩ := h
        obtain ⟨c₁, hsec, heq⟩ := Option.map_eq_some_iff.1 hwork
        obtain ⟨rfl, rfl⟩ := Prod.mk.inj heq
        obtain rfl := Option.some.inj h
        unfold lockedSection at hsec
        split at hsec
        · cases hsec
        · next hlock =>
          obtain ⟨rman', hwd, rfl⟩ := Option.map_eq_some_iff.1 hsec
          obtain ⟨rman₁, nresmap, hup₁, hmap₁, hins', hup₂⟩ :=
            workDone_insert hr hdone hres hnfd hfd hwd
          have henter : mapStep m x (.worker w o torn) =
              some { x.setClient m { c with rman := rman₁ } with
              inserting := [(w, j.res, fd')]
              locks := Function.update x.locks j.res (some w)
              raced := false } := by
            simp [mapStep, workerStep, hins, hw, lockedBy, hj, hfree, hnext, enterInsert,
              hc, lockedSection, hlock, hup₁, hnobody, hclean, hmain]
          refine ⟨_, henter, ?_⟩
          rw [mapStep, workerStep, State.insertion, List.lookup_cons, beq_self_eq_true]
          simp only
          rw [leaveInsert_eq (Function.update_self ..) rfl hins' hup₂]
          simp only [State.setClient, Function.update_idem]
      · cases hnext'
    · cases hnext'
  · cases hnext'

end Resman.WatchMap
