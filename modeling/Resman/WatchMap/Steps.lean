import Resman.Manager.History
import Resman.Manager.Watches
import Resman.WatchMap.System

/-!
# The cases of a step around the watch map

`Applied` is what a tree operation does to `nresmap`, `Keeps` what the rest of the program does not
do to it, and `Step` lists what one action can do.
-/

namespace Resman.WatchMap

open Lib Rb FileWatch Manager
open TaskList (Thread)

variable {m : MgrPtr} {x x' : State} {c c' : Client} {o : Oracle} {torn : WatchTree} {w : Nat}
  {p : ResPtr} {fd : BitVec 32} {pos : MainAt} {acc : Access} {act : Action} {es : List Edit}
  {map map' : WatchTree} {rman rman' : Rman} {pc pc' : Pc}

/-! ## Tree operations and the rest -/

/-- The position is in the last loop of `resman_poll`, or goes on there. -/
def inDone : Pc → Bool
  | .doneScan .. | .doneReload .. | .doneCall .. => true
  | .reloadTask _ k | .reloadFlag _ _ k | .reloadEnq _ _ k | .rmStop _ _ k | .rmCall _ _ k
  | .rmFree _ _ k =>
    match k with
    | .done .. => true
    | _ => false
  | _ => false

/-- What a tree operation does to the map. -/
inductive Applied (map : WatchTree) : WatchTree → Option Edit → Prop where
  | find : Applied map map none
  | insert {map' : WatchTree} {a : Rb.Addr} {fd : BitVec 32} {p : ResPtr}
      (h : rbInserti map (some a) fd (some p) = some map') : Applied map map' (some (.insert fd p))
  | delete {map' : WatchTree} {fd : BitVec 32} {calls : List (Rb.Call (BitVec 64) ResPtr)}
      (h : rbDeletei map fd = some (map', calls)) : Applied map map' (some (.delete fd))

def Edit.wd : Edit → BitVec 32
  | insert fd _ | delete fd => fd

/-- The descriptor that is registered or deleted. -/
def Access.wd : Access → Option (BitVec 32)
  | stop fd | restart _ fd | drop fd => some fd
  | modify _ | closeWrite _ | ignored _ | reload => none

/-- The client goes on in a manager without a `done_func`. -/
structure Goes (c c' : Client) : Prop where
  doneFunc : c'.rman.doneFunc = c.rman.doneFunc
  outside : inDone c.pc = false → inDone c'.pc = false

theorem Goes.of_update {f : Resource → Resource} (h : rman.update p f = some rman')
    (hdone : rman.doneFunc = c.rman.doneFunc) : Goes c { c with rman := rman' } := by
  obtain ⟨r, -, rfl⟩ := heap_of_update h
  exact ⟨hdone, id⟩

theorem nresmap_of_update {f : Resource → Resource} (h : rman.update p f = some rman') :
    rman'.nresmap = rman.nresmap := by
  obtain ⟨r, -, rfl⟩ := heap_of_update h
  rfl

theorem reloadModified_inDone {wd : BitVec 32} {wds : List (BitVec 32)}
    (h : reloadModified rman wd wds = some pc) : inDone pc = false := by
  unfold reloadModified at h
  split at h
  · obtain rfl := Option.some.inj h
    rfl
  · simp only [Option.bind_eq_bind, Option.bind_eq_some_iff] at h
    obtain ⟨r, -, h⟩ := h
    split at h
    · obtain rfl := Option.some.inj h
      rfl
    · cases h

/-- The main thread leaves a tree operation. -/
theorem leave_cases (h : leave m x c o torn acc = some x') :
    ∃ c' pos' e, x' = { x.setClient m c' with main := pos', edits := e.toList ++ x.edits } ∧
      pos'.access = none ∧ Goes c c' ∧ Applied (x.found c torn).nresmap c'.rman.nresmap e ∧
      ∀ e' ∈ e, acc.wd = some e'.wd := by
  cases acc with
  | stop fd =>
    simp only [leave] at h
    split at h
    · next i p k hpc =>
      simp only [Option.bind_eq_bind, Option.bind_eq_some_iff] at h
      obtain ⟨⟨nresmap, calls⟩, hdel, h⟩ := h
      obtain rfl := Option.some.inj h
      exact ⟨_, _, some (.delete fd), rfl, rfl, ⟨rfl, fun hout => by rwa [hpc] at hout⟩,
        .delete hdel, fun e' he' => Option.some.inj he' ▸ rfl⟩
    · cases h
  | modify ev =>
    simp only [leave] at h
    split at h
    · next msec hpc =>
      simp only [Option.bind_eq_bind, Option.bind_eq_some_iff] at h
      obtain ⟨rman, hmod, h⟩ := h
      obtain rfl := Option.some.inj h
      refine ⟨_, _, none, rfl, rfl, ⟨(onModify_quiet hmod).doneFunc, id⟩, ?_,
        fun e' he' => by cases he'⟩
      rw [← (sameWatches_onModify hmod).nresmap]
      exact .find
    · cases h
  | closeWrite ev =>
    simp only [leave, Option.bind_eq_bind, Option.bind_eq_some_iff] at h
    obtain ⟨rman, hclose, h⟩ := h
    obtain rfl := Option.some.inj h
    refine ⟨_, _, none, rfl, rfl, ⟨(onCloseWrite_quiet hclose).doneFunc, id⟩, ?_,
      fun e' he' => by cases he'⟩
    rw [← (sameWatches_onCloseWrite hclose).nresmap]
    exact .find
  | ignored ev =>
    simp only [leave] at h
    split at h
    · obtain rfl := Option.some.inj h
      exact ⟨_, _, none, rfl, rfl, ⟨rfl, id⟩, .find, fun e' he' => by cases he'⟩
    · simp only [Option.bind_eq_bind, Option.bind_eq_some_iff] at h
      obtain ⟨r, -, rman, hup, h⟩ := h
      obtain rfl := Option.some.inj h
      refine ⟨_, _, none, rfl, rfl, .of_update hup rfl, ?_, fun e' he' => by cases he'⟩
      rw [← nresmap_of_update hup]
      exact .find
  | restart p fd =>
    simp only [leave, Option.bind_eq_bind, Option.bind_eq_some_iff] at h
    obtain ⟨nresmap, hins, rman, hup, modset, -, h⟩ := h
    obtain rfl := Option.some.inj h
    refine ⟨_, _, some (.insert fd p), rfl, rfl, ?_, ?_, fun e' he' => Option.some.inj he' ▸ rfl⟩
    · obtain ⟨r, -, rfl⟩ := heap_of_update hup
      exact ⟨rfl, id⟩
    · have hmap := nresmap_of_update hup
      simp only [hmap]
      exact .insert hins
  | drop fd =>
    simp only [leave, Option.bind_eq_bind, Option.bind_eq_some_iff] at h
    obtain ⟨⟨nresmap, calls⟩, hdel, h⟩ := h
    obtain rfl := Option.some.inj h
    exact ⟨_, _, some (.delete fd), rfl, rfl, ⟨rfl, id⟩, .delete hdel,
      fun e' he' => Option.some.inj he' ▸ rfl⟩
  | reload =>
    simp only [leave] at h
    split at h
    · simp only [Option.bind_eq_bind, Option.bind_eq_some_iff] at h
      obtain ⟨pc, hpc, h⟩ := h
      obtain rfl := Option.some.inj h
      exact ⟨_, _, none, rfl, rfl, ⟨rfl, fun _ => reloadModified_inDone hpc⟩, .find,
        fun e' he' => by cases he'⟩
    · cases h

/-- A step of the main thread that enters no tree operation leaves the map alone. -/
theorem localStep_map (h : localStep rman o pc = some (rman', pc')) (hout : inDone pc = false)
    (hnext : nextAccess ⟨rman, pc⟩ .free o = none)
    (hev : ∀ msec, pc = .watch msec → o.event = none) :
    rman'.nresmap = rman.nresmap := by
  cases pc with
  | idle | reloadEnq | drain | destroyRelease | poolClear | poolQuit | poolJoin | dead => cases h
  | doneScan | doneReload | doneCall => cases hout
  | reloadTask p k =>
    obtain ⟨rfl, -⟩ := Prod.mk.inj (Option.some.inj h)
    split <;> rfl
  | reloadFlag p t k =>
    obtain ⟨rman₁, hup, heq⟩ := Option.map_eq_some_iff.1 h
    obtain ⟨rfl, -⟩ := Prod.mk.inj heq
    exact nresmap_of_update hup
  | delScan | delTest =>
    obtain ⟨_, -, heq⟩ := Option.map_eq_some_iff.1 h
    obtain ⟨rfl, -⟩ := Prod.mk.inj heq
    rfl
  | delCall | rmCall | destroyCall =>
    obtain ⟨rfl, -⟩ := Prod.mk.inj (Option.some.inj h)
    unfold callDestroy
    split <;> rfl
  | rmStop i p k =>
    obtain ⟨rman₁, hstop, heq⟩ := Option.map_eq_some_iff.1 h
    obtain ⟨rfl, -⟩ := Prod.mk.inj heq
    obtain ⟨r, hr, ⟨-, rfl⟩ | ⟨nresmap, calls, hpos, -⟩⟩ := stopWatch_cases hstop
    · rfl
    · simp [nextAccess, hr, hpos] at hnext
  | rmFree i p k =>
    obtain ⟨rman₁, hfree, heq⟩ := Option.map_eq_some_iff.1 h
    obtain ⟨rfl, -⟩ := Prod.mk.inj heq
    obtain ⟨r, -, hfree⟩ := Option.bind_eq_some_iff.1 hfree
    obtain rfl := Option.some.inj hfree
    rfl
  | watch msec =>
    simp only [localStep, hev msec rfl] at h
    obtain ⟨rfl, -⟩ := Prod.mk.inj (Option.some.inj h)
    rfl
  | modset wds =>
    cases wds with
    | nil =>
      obtain ⟨rfl, -⟩ := Prod.mk.inj (Option.some.inj h)
      rfl
    | cons wd wds => cases hnext
  | doneStart =>
    obtain ⟨rfl, -⟩ := Prod.mk.inj (Option.some.inj h)
    rfl
  | destroyScan i =>
    simp only [localStep] at h
    split at h <;> (obtain ⟨rfl, -⟩ := Prod.mk.inj (Option.some.inj h); rfl)
  | destroyFree i p =>
    obtain ⟨r, -, h⟩ := Option.bind_eq_some_iff.1 h
    obtain ⟨rfl, -⟩ := Prod.mk.inj (Option.some.inj h)
    rfl

/-- Without a `done_func`, the main thread does not come to the last loop of `resman_poll`. -/
theorem localStep_inDone (h : localStep rman o pc = some (rman', pc'))
    (hdone : rman.doneFunc = false) (hout : inDone pc = false) : inDone pc' = false := by
  have hresume : ∀ {p i} {k : Cont}, inDone (.rmFree p i k) = false → inDone k.resume = false := by
    intro p i k hk
    cases k with
    | done => cases hk
    | add | modset | del => rfl
  cases localStep_cases h with
  | doneStart hd => simp [hdone] at hd
  | rmFree => exact hresume hout
  | doneEnd | doneSkip | doneTake | doneLate | doneReload | doneFail | doneOk => cases hout
  | reloadTask | reloadFlag | rmStop | rmCall => exact hout
  | _ => rfl

theorem poolStep_inDone {pool pool' : Pool} (h : poolStep m pool o pc = some (pool', pc'))
    (hout : inDone pc = false) : inDone pc' = false := by
  have hresume : ∀ {p t} {k : Cont}, inDone (.reloadEnq p t k) = false →
      inDone k.resume = false := by
    intro p t k hk
    cases k with
    | done => cases hk
    | add | modset | del => rfl
  cases poolStep_cases h with
  | enqueue | lost => exact hresume hout
  | release hpc' => rcases hpc' with rfl | rfl <;> rfl
  | drain | clear | quit | join => rfl

/-- The last section of `work_func` registers a watch, or leaves the map alone. -/
theorem workDone_map {r : Resource} (hr : rman.heap p = some r) (h : workDone rman p o = some rman')
    (hnext : ¬ (rman.doneFunc = false ∧ r.result ≠ -1 ∧ ¬ 0 < r.nfd.toInt) ∨ o.watch = none) :
    rman'.nresmap = rman.nresmap := by
  simp only [workDone, Option.bind_eq_bind, Option.bind_eq_some_iff] at h
  obtain ⟨rman₁, hup, r₁, hr₁, h⟩ := h
  obtain ⟨r', hr', rfl⟩ := heap_of_update hup
  obtain rfl := Option.some.inj (hr.symm.trans hr')
  obtain rfl : { r with pending := false } = r₁ := by simpa using hr₁
  split at h
  · exact (nresmap_of_update h).trans rfl
  · next hdone =>
    split at h
    · split at h
      · exact (nresmap_of_update h).trans rfl
      · obtain rfl := Option.some.inj h
        rfl
    · next hres =>
      obtain ⟨⟨rman₂, ok⟩, hstart, h⟩ := Option.bind_eq_some_iff.1 h
      obtain rfl := Option.some.inj h
      simp only [startWatch, Function.update_self, Option.bind_eq_bind, Option.bind_some] at hstart
      split at hstart
      · obtain ⟨rfl, -⟩ := Prod.mk.inj (Option.some.inj hstart)
        rfl
      · next hnfd =>
        rcases hnext with hnot | hwatch
        · exact absurd ⟨by simpa using hdone, hres, hnfd⟩ hnot
        · rw [hwatch] at hstart
          obtain ⟨rfl, -⟩ := Prod.mk.inj (Option.some.inj hstart)
          rfl

theorem nextInsert_loaded {j : Job} {r : Resource} (hw : x.sys.pool.workers[w]? = some (.loaded j))
    (hj : j.rman = m) (hins : x.insertion w = none) (hc : x.sys.clients m = some c)
    (hr : c.rman.heap j.res = some r) (hnext : nextInsert m x w o = none) :
    ¬ (c.rman.doneFunc = false ∧ r.result ≠ -1 ∧ ¬ 0 < r.nfd.toInt) ∨ o.watch = none := by
  by_contra hcon
  obtain ⟨hcond, hwatch⟩ := not_or.1 hcon
  obtain ⟨fd, hfd⟩ := Option.ne_none_iff_exists'.1 hwatch
  have hcond := not_not.1 hcond
  simp [nextInsert, hw, hj, hins, hc, hr, hcond, hfd] at hnext

/-- The client of the manager keeps the map, if there is one; it may be created. -/
inductive Keeps (m : MgrPtr) (s s' : Sys) : Prop where
  | absent (hc : s.clients m = none) (hc' : s'.clients m = none)
  | created (destroyFunc : Bool) (hc : s.clients m = none)
      (hc' : s'.clients m = some ⟨.init false destroyFunc, .idle⟩)
  | kept (c c' : Client) (hc : s.clients m = some c) (hc' : s'.clients m = some c')
      (hmap : c'.rman.nresmap = c.rman.nresmap) (hgoes : Goes c c')

theorem Keeps.of_eq {s s' : Sys} (h : s'.clients m = s.clients m) : Keeps m s s' := by
  cases hc : s.clients m with
  | none => exact .absent hc (h.trans hc)
  | some c => exact .kept c c hc (h.trans hc) rfl ⟨rfl, id⟩

/-- A step of a worker that does not enter `rb_inserti` leaves the map alone. -/
theorem worker_keeps {s' : Sys} (h : Manager.workerStep x.sys w o = some s')
    (hins : x.insertion w = none) (hnext : nextInsert m x w o = none) : Keeps m x.sys s' := by
  have hjob : ∀ {j : Job} {rman rman' : Rman} {pc : Pc} {pool : Pool},
      x.sys.clients j.rman = some ⟨rman, pc⟩ →
      (j.rman = m → rman'.nresmap = rman.nresmap ∧ rman'.doneFunc = rman.doneFunc) →
      Keeps m x.sys ⟨Function.update x.sys.clients j.rman (some ⟨rman', pc⟩), pool⟩ := by
    intro j rman rman' pc pool hc hsame
    by_cases hj : j.rman = m
    · subst hj
      obtain ⟨hmap, hdone⟩ := hsame rfl
      exact .kept _ _ hc (Function.update_self ..) hmap ⟨hdone, id⟩
    · exact .of_eq (Function.update_of_ne (Ne.symm hj) ..)
  cases workerStep_cases h with
  | exit | take | sent => exact .of_eq rfl
  | taken _ hc => exact hjob hc fun _ => ⟨rfl, rfl⟩
  | returned _ hc hup =>
    refine hjob hc fun _ => ⟨nresmap_of_update hup, ?_⟩
    obtain ⟨r, -, rfl⟩ := heap_of_update hup
    rfl
  | completed hw hc _ hdone =>
    refine hjob hc fun hj => ?_
    obtain ⟨rman₁, hup, hq, -⟩ := workDone_spec hdone
    obtain ⟨r, hr, rfl⟩ := heap_of_update hup
    subst hj
    exact ⟨workDone_map hr hdone (nextInsert_loaded hw rfl hins hc hr hnext), hq.doneFunc⟩

/-- A call does not touch the map and does not begin in the last loop of `resman_poll`. -/
theorem call_keeps {s s' : Sys} {f : Call} (h : step s (.call m f) = some s') : Keeps m s s' := by
  rcases client_step_cases h rfl with
    ⟨d, f', ha, -, -⟩ | ⟨f', c', rman', pc', ha, hc, -, hcall, rfl⟩ | ⟨o, c', ha, -⟩
  · cases ha
  · refine .kept _ _ hc (Function.update_self ..) ?_ ?_
    · cases callStep_cases hcall with
      | setopt | stay | added | poll | destroy => rfl
      | remove _ hup => exact nresmap_of_update hup
    · cases callStep_cases hcall with
      | setopt | stay | added | poll | destroy => exact ⟨rfl, fun _ => rfl⟩
      | remove _ hup =>
        obtain ⟨r, -, rfl⟩ := heap_of_update hup
        exact ⟨rfl, fun _ => rfl⟩
  · cases ha

/-! ## The cases of a step -/

inductive Step (m : MgrPtr) (x : State) : Action → State → Prop where
  | pass {act : Action} {sys : Sys} {pos : MainAt} (hpass : EntersApart m x act)
      (hpos : pos = x.main ∨ pos.access = none) (hkeeps : Keeps m x.sys sys) :
      Step m x act { x with sys, main := pos }
  | enter {o : Oracle} {torn : WatchTree} {c : Client} {acc : Access}
      (hc : x.sys.clients m = some c) (hnext : nextAccess c x.main o = some acc) :
      Step m x (.main o torn)
        { x with main := .inside acc, raced := x.raced || !x.inserting.isEmpty }
  | leave {o : Oracle} {torn : WatchTree} {c c' : Client} {acc : Access} {pos : MainAt}
      {e : Option Edit} (hc : x.sys.clients m = some c) (hmain : x.main = .inside acc)
      (hpos : pos.access = none) (hgoes : Goes c c')
      (happ : Applied (x.found c torn).nresmap c'.rman.nresmap e)
      (he : ∀ e' ∈ e, acc.wd = some e'.wd) :
      Step m x (.main o torn)
        { x.setClient m c' with main := pos, edits := e.toList ++ x.edits }
  | enterInsert {w : Nat} {o : Oracle} {torn : WatchTree} {c c' : Client}
      {p : ResPtr} {fd : BitVec 32} (hw : x.insertion w = none)
      (hnext : nextInsert m x w o = some (p, fd)) (hfree : x.locks p = none)
      (hc : x.sys.clients m = some c) (hmap : c'.rman.nresmap = c.rman.nresmap)
      (hgoes : Goes c c') :
      Step m x (.worker w o torn)
        { x.setClient m c' with
          inserting := (w, p, fd) :: x.inserting
          locks := Function.update x.locks p (some w)
          raced := x.raced || x.main.access.isSome || !x.inserting.isEmpty }
  | leaveInsert {w : Nat} {o : Oracle} {torn : WatchTree} {c c' : Client} {p : ResPtr}
      {fd : BitVec 32} {pool : Pool} (hw : x.insertion w = some (p, fd))
      (hc : x.sys.clients m = some c) (hgoes : Goes c c')
      (happ : Applied (x.found c torn).nresmap c'.rman.nresmap (some (.insert fd p))) :
      Step m x (.worker w o torn)
        { x with
          sys := ⟨Function.update x.sys.clients m (some c'), pool⟩
          inserting := x.inserting.filter (·.1 ≠ w)
          locks := Function.update x.locks p none
          edits := .insert fd p :: x.edits }

/-- The main thread takes a step that is not split. -/
theorem client_keeps {s s' : Sys} (h : step s (.client m o) = some s') (hc : s.clients m = some c)
    (hnext : nextAccess c .free o = none) (hev : ∀ msec, c.pc = .watch msec → o.event = none)
    (hdone : c.rman.doneFunc = false) (hout : inDone c.pc = false) : Keeps m s s' := by
  rcases client_step_cases h rfl with ⟨d, f, ha, -, -⟩ | ⟨f, c', rman', pc', ha, -⟩ |
    ⟨o', c', ha, hc', ⟨rman', pc', hlocal, rfl⟩ | ⟨pool', pc', hpool, rfl⟩⟩
  · cases ha
  · cases ha
  · obtain ⟨-, rfl⟩ := Action.client.inj ha
    obtain rfl := Option.some.inj (hc.symm.trans hc')
    refine .kept _ _ hc (Function.update_self ..) (localStep_map hlocal hout hnext hev) ?_
    exact ⟨(localStep_fields hlocal).1, localStep_inDone hlocal hdone⟩
  · obtain rfl := Option.some.inj (hc.symm.trans hc')
    exact .kept _ _ hc (Function.update_self ..) rfl ⟨rfl, poolStep_inDone hpool⟩

/-- A manager without a `done_func`, whose main thread is not in the last loop of `resman_poll`. -/
def State.NoDone (x : State) (m : MgrPtr) : Prop :=
  ∀ c ∈ x.sys.clients m, c.rman.doneFunc = false ∧ inDone c.pc = false

theorem pass_cases (hx : x.NoDone m) (hc : x.sys.clients m = some c)
    (hnext : nextAccess c x.main o = none) (h : pass m x c o = some x') :
    ∃ sys pos, x' = { x with sys, main := pos } ∧ (pos = x.main ∨ pos.access = none) ∧
      Keeps m x.sys sys := by
  obtain ⟨hdone, hout⟩ := hx c hc
  unfold pass at h
  split at h
  · next hfree =>
    rw [hfree] at hnext
    split at h
    · obtain rfl := Option.some.inj h
      exact ⟨_, _, rfl, .inr rfl, .kept c c hc hc rfl ⟨rfl, id⟩⟩
    · next hev =>
      obtain ⟨sys, hs, rfl⟩ := Option.map_eq_some_iff.1 h
      refine ⟨_, _, rfl, .inl rfl, client_keeps hs hc hnext (fun msec hpc => ?_) hdone hout⟩
      cases hoev : o.event with
      | none => rfl
      | some ev => exact absurd hoev (hev msec ev hpc)
  · obtain rfl := Option.some.inj h
    exact ⟨_, _, rfl, .inr rfl, .kept c c hc hc rfl ⟨rfl, id⟩⟩
  · obtain rfl := Option.some.inj h
    exact ⟨_, _, rfl, .inr rfl, .kept c c hc hc rfl ⟨rfl, id⟩⟩
  · simp only [Option.bind_eq_bind, Option.bind_eq_some_iff] at h
    obtain ⟨r, -, h⟩ := h
    split at h
    · simp only [Option.bind_eq_some_iff] at h
      obtain ⟨modset, -, h⟩ := h
      obtain rfl := Option.some.inj h
      exact ⟨_, _, rfl, .inr rfl, .kept c _ hc (Function.update_self ..) rfl ⟨rfl, id⟩⟩
    · simp only [Option.bind_eq_some_iff] at h
      obtain ⟨rman, hup, h⟩ := h
      obtain rfl := Option.some.inj h
      exact ⟨_, _, rfl, .inr rfl, .kept c _ hc (Function.update_self ..) (nresmap_of_update hup)
        (.of_update hup rfl)⟩
  · simp only [Option.bind_eq_bind, Option.bind_eq_some_iff] at h
    obtain ⟨r, -, h⟩ := h
    obtain rfl := Option.some.inj h
    exact ⟨_, _, rfl, .inr rfl, .kept c c hc hc rfl ⟨rfl, id⟩⟩
  · cases h

theorem nextInsert_eq_some (h : nextInsert m x w o = some (p, fd)) :
    x.insertion w = none ∧ o.watch = some fd ∧
      ∃ wk, x.sys.pool.workers[w]? = some wk ∧ lockedBy m wk = some p := by
  simp only [nextInsert, Option.bind_eq_bind, Option.bind_eq_some_iff] at h
  obtain ⟨wk, hw, h⟩ := h
  split at h
  · next j =>
    split at h
    · next hj =>
      simp only [Option.bind_eq_some_iff] at h
      obtain ⟨c, -, r, -, h⟩ := h
      split at h
      · obtain ⟨fd', hfd, h⟩ := Option.bind_eq_some_iff.1 h
        obtain ⟨rfl, rfl⟩ := Prod.mk.inj (Option.some.inj h)
        exact ⟨hj.2, hfd, _, hw, by simp [lockedBy, hj.1]⟩
      · cases h
    · cases h
  · cases h

theorem workerStep_split (h : workerStep m x w o torn = some x') :
    Step m x (.worker w o torn) x' := by
  unfold workerStep at h
  split at h
  · next p fd hins =>
    simp only [leaveInsert, Option.bind_eq_bind, Option.bind_eq_some_iff] at h
    obtain ⟨c, hc, nresmap, hins', rman, hup, h⟩ := h
    obtain rfl := Option.some.inj h
    refine .leaveInsert hins hc (.of_update hup rfl) ?_
    rw [nresmap_of_update hup]
    exact .insert hins'
  · next hins =>
    simp only [Option.bind_eq_bind, Option.bind_eq_some_iff] at h
    obtain ⟨wk, hw, h⟩ := h
    split at h
    · cases h
    · next hlock =>
      split at h
      · next p fd hnext =>
        obtain ⟨-, -, wk', hw', hby⟩ := nextInsert_eq_some hnext
        obtain rfl := Option.some.inj (hw.symm.trans hw')
        have hfree : x.locks p = none := by simpa [hby] using hlock
        simp only [enterInsert, Option.bind_eq_bind, Option.bind_eq_some_iff] at h
        obtain ⟨c, hc, c', hsec, h⟩ := h
        obtain rfl := Option.some.inj h
        unfold lockedSection at hsec
        split at hsec
        · cases hsec
        · obtain ⟨rman, hup, rfl⟩ := Option.map_eq_some_iff.1 hsec
          exact .enterInsert hins hnext hfree hc (nresmap_of_update hup) (.of_update hup rfl)
      · next hnext =>
        obtain ⟨sys, hs, rfl⟩ := Option.map_eq_some_iff.1 h
        refine .pass ?_ (.inl rfl) ?_
        · intro e he
          rw [hnext] at he
          cases he
        · exact worker_keeps hs hins hnext

theorem step_cases (hx : x.NoDone m) (h : mapStep m x act = some x') : Step m x act x' := by
  cases act with
  | create destroyFunc =>
    obtain ⟨sys, hs, rfl⟩ := Option.map_eq_some_iff.1 h
    refine .pass trivial (.inl rfl) ?_
    simp only [step] at hs
    split at hs
    · cases hs
    · next hc =>
      obtain rfl := Option.some.inj hs
      exact .created destroyFunc hc (Function.update_self ..)
  | call f =>
    simp only [mapStep] at h
    split at h
    · cases h
    · next hf =>
      obtain ⟨sys, hs, rfl⟩ := Option.map_eq_some_iff.1 h
      exact .pass trivial (.inl rfl) (call_keeps hs)
  | main o torn =>
    simp only [mapStep, mainStep, Option.bind_eq_bind, Option.bind_eq_some_iff] at h
    obtain ⟨c, hc, h⟩ := h
    split at h
    · next acc hmain =>
      obtain ⟨c', pos, e, rfl, hpos, hgoes, happ, he⟩ := leave_cases h
      exact .leave hc hmain hpos hgoes happ he
    · split at h
      · next acc hnext =>
        obtain rfl := Option.some.inj h
        exact .enter hc hnext
      · next hnext =>
        obtain ⟨sys, pos, rfl, hpos, hkeeps⟩ := pass_cases hx hc hnext h
        refine .pass ?_ hpos hkeeps
        intro c' hc' hne
        obtain rfl := Option.some.inj (hc.symm.trans hc')
        exact absurd hnext hne
  | worker w o torn => exact workerStep_split h
  | other a =>
    simp only [mapStep] at h
    split at h
    · cases h
    · next ha =>
      obtain ⟨sys, hs, rfl⟩ := Option.map_eq_some_iff.1 h
      obtain ⟨hnone, hne⟩ := not_or.1 ha
      obtain ⟨m', hm'⟩ := Option.ne_none_iff_exists'.1 hnone
      refine .pass trivial (.inl rfl) (.of_eq (step_other hs hm' ?_).1)
      rintro rfl
      exact hne hm'

end Resman.WatchMap
