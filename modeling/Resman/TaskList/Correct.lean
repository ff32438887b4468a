import Resman.TaskList.Steps

/-!
# Mutual exclusion on the list of tasks

`alloc_task` and `free_task` run under different locks. `alone_sound_iff` says when no two threads
are inside them at once, and that then the list is `Sound`. A thread that is alone in its function
knows what it has read (`MainPc.Knows`, `WorkerPc.Knows`), so the accesses of one call are together
the operation of `Resman.Manager` on the list (`agrees_of_step`).
-/

namespace Resman.TaskList

open Lib Manager

variable {s s' s₁ : State} {a : Action} {w : Nat} {p : ResPtr} {t : TaskPtr} {pc pc' : WorkerPc}
  {l : List TaskPtr}

/-! ## Who is inside -/

theorem MainStep.workers {pc : MainPc} (h : MainStep s pc s') : s'.workers = s.workers := by
  cases h <;> rfl

theorem WorkerStep.workers (h : WorkerStep s w pc pc' s₁) : s₁.workers = s.workers := by
  cases h <;> rfl

theorem WorkerStep.main (h : WorkerStep s w pc pc' s₁) : s₁.main = s.main := by
  cases h <;> rfl

theorem inside_of_main (h : s'.workers = s.workers) :
    s'.inside = Function.update s.inside .main s'.main.inside := by
  funext u
  cases u with
  | main => rw [Function.update_self, State.inside]
  | worker w =>
    rw [Function.update_of_ne (by simp)]
    simp only [State.inside, h]

theorem inside_of_worker (hw : s.workers[w]? = some pc) (h : WorkerStep s w pc pc' s₁) :
    (s₁.setWorker w pc').inside = Function.update s.inside (.worker w) pc'.inside := by
  funext u
  cases u with
  | main =>
    rw [Function.update_of_ne (by simp)]
    simp only [State.inside, State.setWorker, h.main]
  | worker v =>
    simp only [State.inside, State.setWorker, h.workers]
    by_cases hv : v = w
    · subst hv
      have hlt := (List.getElem?_eq_some_iff.1 hw).1
      simp [hlt]
    · rw [Function.update_of_ne (by simpa using hv), List.getElem?_set_ne (Ne.symm hv)]
      rfl

/-- The main thread comes into `alloc_task` by locking the mutex of the manager. -/
theorem MainStep.inside {pc : MainPc} (h : MainStep s pc s') (hpc : pc.enters = false) :
    s'.main.inside = none ∨ s'.main.inside = pc.inside := by
  cases h with
  | lock => cases hpc
  | store | malloc | unlock | setRes | enqueue | drop => exact .inl rfl
  | empty | test | head | next => exact .inr rfl

/-- A worker comes into `free_task` by locking the mutex of the resource. -/
theorem WorkerStep.inside (h : WorkerStep s w pc pc' s₁) (hpc : pc.enters = none) :
    pc'.inside = none ∨ pc'.inside = pc.inside := by
  cases h with
  | lock => cases hpc
  | take | start | store | unlock | load | lockDone | unlockDone => exact .inl rfl
  | head | link => exact .inr rfl

theorem inside_worker_eq_some {k : Section} :
    s.inside (.worker w) = some k ↔ ∃ pc p, s.workers[w]? = some pc ∧ pc.frees = some p ∧
      k = .freeTask := by
  simp only [State.inside, Option.bind_eq_some_iff, WorkerPc.inside, Option.map_eq_some_iff]
  constructor
  · rintro ⟨pc, hw, p, hp, rfl⟩
    exact ⟨pc, p, hw, hp, rfl⟩
  · rintro ⟨pc, p, hw, hp, rfl⟩
    exact ⟨pc, hw, p, hp, rfl⟩

theorem inside_main_eq_some {k : Section} :
    s.inside .main = some k ↔ s.main.allocates = true ∧ k = .allocTask := by
  simp only [State.inside, MainPc.inside]
  split
  · next h => simp [h, eq_comm]
  · next h => simp [h]

/-- A worker that is inside `free_task` holds the lock of the resource. -/
theorem WorkerPc.holds_of_frees (h : pc.frees = some p) : pc.holds = some p := by
  cases pc with
  | head | link | store => exact h
  | idle | start | lock | unlock | load | lockDone | unlockDone => cases h

/-- Nobody is in the way of the main thread. -/
theorem admitted_main_iff :
    Admitted (fun _ _ => True) s.inside .main (some .allocTask) ↔
      ∀ pc ∈ s.workers, pc.frees = none := by
  constructor
  · intro h pc hpc
    obtain ⟨w, hw⟩ := List.mem_iff_getElem?.1 hpc
    by_contra hne
    obtain ⟨p, hp⟩ := Option.ne_none_iff_exists'.1 hne
    exact h _ rfl (.worker w) (by simp) _ (inside_worker_eq_some.2 ⟨pc, p, hw, hp, rfl⟩) trivial
  · rintro h a - u hne b hb
    cases u with
    | main => exact absurd rfl hne
    | worker w =>
      obtain ⟨pc, p, hw, hp, -⟩ := inside_worker_eq_some.1 hb
      rw [h pc (List.mem_of_getElem? hw)] at hp
      cases hp

/-- Workers that are inside `free_task` hold the lock of the resource. -/
def State.Locked (s : State) : Prop :=
  ∀ w pc, s.workers[w]? = some pc → ∀ p ∈ pc.holds, s.resLock p = some (.worker w)

/-- Nobody is in the way of a worker that locks the mutex of `p`: those of the
same resource cannot be. -/
theorem admitted_worker_iff (hlocked : s.Locked) (hfree : s.resLock p = none)
    (hw : s.workers[w]? = some pc) (hpc : pc.frees = none) :
    Admitted (fun _ _ => True) s.inside (.worker w) (some .freeTask) ↔
      s.main.allocates = false ∧ ∀ pc' ∈ s.workers, ∀ q ∈ pc'.frees, q = p := by
  constructor
  · refine fun h => ⟨?_, fun pc' hpc' q hq => ?_⟩
    · by_contra hne
      exact h _ rfl .main (by simp) _ (inside_main_eq_some.2 ⟨by simpa using hne, rfl⟩) trivial
    · obtain ⟨v, hv⟩ := List.mem_iff_getElem?.1 hpc'
      refine absurd trivial (h _ rfl (.worker v) ?_ _
        (inside_worker_eq_some.2 ⟨pc', q, hv, hq, rfl⟩))
      rintro heq
      obtain rfl := Thread.worker.inj heq
      obtain rfl := Option.some.inj (hw.symm.trans hv)
      rw [hpc] at hq
      cases hq
  · rintro ⟨hmain, hothers⟩ a - u hne b hb
    cases u with
    | main =>
      rw [(inside_main_eq_some.1 hb).1] at hmain
      cases hmain
    | worker v =>
      obtain ⟨pc', q, hv, hq, -⟩ := inside_worker_eq_some.1 hb
      obtain rfl := hothers pc' (List.mem_of_getElem? hv) q hq
      rw [hlocked v pc' hv q (WorkerPc.holds_of_frees hq)] at hfree
      cases hfree

/-- A step keeps the threads apart if and only if it meets the condition. -/
theorem alone_iff (hlocked : s.Locked) (hex : s.Alone) (h : Step s a s') :
    s'.Alone ↔ EntersAlone s a := by
  unfold State.Alone at *
  cases h with
  | @reload p =>
    have hin : State.inside { s with main := .lock p } = Function.update s.inside .main none :=
      inside_of_main rfl
    rw [hin, hex.update_iff fun _ _ h => h]
    exact iff_of_true (hex.admitted (.inl rfl)) trivial
  | main h =>
    rw [inside_of_main h.workers, hex.update_iff fun _ _ h => h]
    simp only [EntersAlone]
    generalize hpc : s.main = pc at h
    by_cases henters : pc.enters = true
    · cases h with
      | lock =>
        simp only [MainPc.enters, forall_const]
        exact admitted_main_iff
      | _ => cases henters
    · refine iff_of_true (hex.admitted ?_) fun henters' => absurd henters' henters
      simpa only [State.inside, hpc] using h.inside (by simpa using henters)
  | worker hw h =>
    rw [inside_of_worker hw h, hex.update_iff fun _ _ h => h]
    simp only [EntersAlone, hw, Option.mem_some_iff, forall_eq']
    cases henters : WorkerPc.enters _ with
    | none =>
      refine iff_of_true (hex.admitted ?_) fun p hp => by cases hp
      simpa only [State.inside, hw, Option.bind_some] using h.inside henters
    | some p =>
      cases h with
      | lock hfree =>
        obtain rfl := Option.some.inj henters
        simp only [Option.mem_some_iff, forall_eq']
        exact admitted_worker_iff hlocked hfree hw rfl
      | _ => cases henters

/-! ## Locks -/

theorem MainStep.resLock {pc : MainPc} (h : MainStep s pc s') : s'.resLock = s.resLock := by
  cases h <;> rfl

/-- A worker locks a mutex that is free and unlocks the one that it holds. -/
theorem WorkerStep.resLock (h : WorkerStep s w pc pc' s₁) :
    (pc'.holds = pc.holds ∧ s₁.resLock = s.resLock) ∨
    (∃ p, pc'.holds = some p ∧ s.resLock p = none ∧
      s₁.resLock = Function.update s.resLock p (some (.worker w))) ∨
    (∃ p, pc.holds = some p ∧ pc'.holds = none ∧
      s₁.resLock = Function.update s.resLock p none) := by
  cases h with
  | take | start | head | link | store | load => exact .inl ⟨rfl, rfl⟩
  | lock hfree | lockDone hfree => exact .inr (.inl ⟨_, rfl, hfree, rfl⟩)
  | unlock | unlockDone => exact .inr (.inr ⟨_, rfl, rfl, rfl⟩)

theorem State.Locked.step (hI : s.Locked) (h : Step s a s') : s'.Locked := by
  cases h with
  | reload => exact hI
  | main h =>
    intro v pc hv p hp
    rw [h.workers] at hv
    rw [h.resLock]
    exact hI v pc hv p hp
  | @worker w pc pc' s₁ hw h =>
    intro v pcv hv p hp
    simp only [State.setWorker, h.workers] at hv ⊢
    rcases slot_of_set hv with ⟨rfl, rfl⟩ | ⟨hne, hv⟩
    · rcases h.resLock with ⟨hkeep, hres⟩ | ⟨q, hq, -, hres⟩ | ⟨q, -, hnone, -⟩
      · rw [hkeep] at hp
        rw [hres]
        exact hI v pc hw p hp
      · rw [hq] at hp
        obtain rfl := Option.some.inj hp
        rw [hres, Function.update_self]
      · rw [hnone] at hp
        cases hp
    · have hold := hI v pcv hv p hp
      rcases h.resLock with ⟨-, hres⟩ | ⟨q, -, hfree, hres⟩ | ⟨q, hq, -, hres⟩
      · rw [hres]
        exact hold
      · rw [hres, Function.update_of_ne, hold]
        rintro rfl
        rw [hfree] at hold
        cases hold
      · rw [hres, Function.update_of_ne, hold]
        rintro rfl
        rw [hI w pc hw p hq] at hold
        exact hne (Thread.worker.inj (Option.some.inj hold)).symm

/-! ## What a thread knows about the list -/

/-- What the main thread has found out in `alloc_task`. -/
def MainPc.Knows (tasks : Option TaskPtr) (nexts : TaskPtr → Option (Option TaskPtr)) :
    MainPc → Prop
  | head _ => tasks ≠ none
  | next _ t => tasks = some t
  | store _ t n => tasks = some t ∧ nexts t = some n
  | malloc _ => tasks = none
  | idle | lock _ | test _ | unlock .. | setRes .. | enqueue _ => True

/-- What a worker has found out and written in `free_task`. -/
def WorkerPc.Knows (tasks : Option TaskPtr) (nexts : TaskPtr → Option (Option TaskPtr)) :
    WorkerPc → Prop
  | link _ _ h => tasks = h
  | store t _ => nexts t = some tasks
  | idle | start _ | lock .. | head .. | unlock _ | load _ | lockDone _ | unlockDone _ => True

/-- The invariant of the runs in which no two threads are inside. A block that has not been
allocated holds nothing. -/
structure Inv (s : State) : Prop where
  locked : s.Locked
  alone : s.Alone
  sound : s.Sound
  fresh : ∀ t, s.ntasks ≤ t → s.mem t = none
  main : s.main.Knows s.tasks s.link
  workers : ∀ (w : Nat) (pc : WorkerPc), s.workers[w]? = some pc → pc.Knows s.tasks s.link

theorem MainPc.knows_of_outside {tasks : Option TaskPtr} {nexts : TaskPtr → Option (Option TaskPtr)}
    {pc : MainPc} (h : pc.inside = none) : pc.Knows tasks nexts := by
  cases pc with
  | head | next | store | malloc => cases h
  | idle | lock | test | unlock | setRes | enqueue => trivial

theorem WorkerPc.knows_of_outside {tasks : Option TaskPtr}
    {nexts : TaskPtr → Option (Option TaskPtr)} (h : pc.inside = none) : pc.Knows tasks nexts := by
  cases pc with
  | link | store => cases h
  | idle | start | lock | head | unlock | load | lockDone | unlockDone => trivial

/-- The main thread changes no link. -/
theorem MainStep.link {pc : MainPc} (hfresh : ∀ t, s.ntasks ≤ t → s.mem t = none)
    (h : MainStep s pc s') : s'.link = s.link := by
  cases h with
  | malloc =>
    funext t
    simp only [State.link, Function.update_apply]
    split
    · next heq =>
      rw [hfresh t heq.ge]
      rfl
    · rfl
  | setRes ht =>
    funext t
    simp only [State.link, Function.update_apply]
    split
    · next heq =>
      subst heq
      rw [ht]
      rfl
    · rfl
  | lock | empty | test | head | next | store | unlock | enqueue | drop => rfl

/-- A worker changes the list only inside of `free_task`. -/
theorem WorkerStep.outside (h : WorkerStep s w pc pc' s₁) (hpc : pc.inside = none) :
    s₁.tasks = s.tasks ∧ s₁.link = s.link := by
  cases h with
  | head | link | store => cases hpc
  | take | start | lock | unlock | load | lockDone | unlockDone => exact ⟨rfl, rfl⟩

theorem MainStep.outside {pc : MainPc} (h : MainStep s pc s') (hpc : pc.inside = none) :
    s'.tasks = s.tasks := by
  cases h with
  | store => cases hpc
  | lock | empty | test | head | next | malloc | unlock | setRes | enqueue | drop => rfl

theorem MainStep.knows (hI : s.main.Knows s.tasks s.link) (h : MainStep s s.main s') :
    s'.main.Knows s'.tasks s'.link := by
  generalize s.main = pc at hI h
  cases h with
  | empty htasks | test htasks | head htasks => exact htasks
  | next hn => exact ⟨hI, hn⟩
  | lock | store | malloc | unlock | setRes | enqueue | drop => trivial

theorem WorkerStep.knows (hI : pc.Knows s.tasks s.link) (h : WorkerStep s w pc pc' s₁) :
    pc'.Knows s₁.tasks s₁.link := by
  cases h with
  | head => exact rfl
  | link ht =>
    obtain rfl : s.tasks = _ := hI
    simp [WorkerPc.Knows, State.link]
  | take | start | lock | store | unlock | load | lockDone | unlockDone => trivial

/-! ## The list -/

/-- The head of the list is taken off. -/
theorem chain_store {n : Option TaskPtr} (hl : Chain s.link s.tasks l)
    (hknows : s.tasks = some t ∧ s.link t = some n) : ∃ l', l = t :: l' ∧ Chain s.link n l' := by
  obtain ⟨htasks, hn⟩ := hknows
  rw [htasks] at hl
  obtain ⟨q, l', rfl, hq, hl'⟩ := hl.pop
  obtain rfl := Option.some.inj (hq.symm.trans hn)
  exact ⟨l', rfl, hl'⟩

theorem chain_malloc (hl : Chain s.link s.tasks l) (htasks : s.tasks = none) : l = [] := by
  rw [htasks] at hl
  exact List.head?_eq_none_iff.1 hl.head_eq.symm

/-- The link of a task that is not on the list is written. -/
theorem chain_link {task : Task} (hl : Chain s.link s.tasks l) (ht : t ∉ l) :
    Chain (State.link { s with mem := Function.update s.mem t (some task) }) s.tasks l := by
  refine hl.congr fun u hu => ?_
  have hne : u ≠ t := by
    rintro rfl
    exact ht hu
  simp [State.link, hne]

theorem main_sound (hI : Inv s) (h : MainStep s s.main s') : s'.Sound := by
  obtain ⟨l, hl, hplaces⟩ := hI.sound
  have hknows := hI.main
  have hlink := h.link hI.fresh
  generalize hpc : s.main = pc at h hknows
  unfold State.Sound
  rw [hlink]
  cases h with
  | lock | empty | test | head | next | unlock =>
    refine ⟨l, hl, fun u => ?_⟩
    simpa [State.places, hpc, MainPc.task] using hplaces u
  | @store p t n =>
    obtain ⟨l', rfl, hl'⟩ := chain_store hl hknows
    refine ⟨l', hl', fun u => ?_⟩
    have hu := hplaces u
    simp only [State.places, hpc, MainPc.task, List.count_cons, beq_iff_eq] at hu ⊢
    grind
  | malloc =>
    refine ⟨l, hl, fun u => ?_⟩
    have hu := hplaces u
    simp only [State.places, hpc, MainPc.task] at hu ⊢
    grind
  | setRes ht =>
    refine ⟨l, hl, fun u => ?_⟩
    simpa [State.places, hpc, MainPc.task] using hplaces u
  | @enqueue t =>
    refine ⟨l, hl, fun u => ?_⟩
    have hu := hplaces u
    simp only [State.places, hpc, MainPc.task, List.count_append, List.count_cons, List.count_nil,
      beq_iff_eq] at hu ⊢
    grind
  | @drop t =>
    refine ⟨l, hl, fun u => ?_⟩
    have hu := hplaces u
    simp only [State.places, hpc, MainPc.task, List.count_cons, beq_iff_eq] at hu ⊢
    grind

/-- The places of a task after a worker has moved. -/
theorem places_setWorker (hw : s.workers[w]? = some pc) (hworkers : s₁.workers = s.workers)
    (pc' : WorkerPc) (u : TaskPtr) :
    (s₁.setWorker w pc').places l u + (if pc.task = some u then 1 else 0) =
      s₁.places l u + if pc'.task = some u then 1 else 0 := by
  have hcount := countP_set_add (f := fun pc => pc.task = some u) (b := pc') hw
  simp only [State.places, State.setWorker, hworkers]
  grind

theorem places_same (hw : s.workers[w]? = some pc) (hworkers : s₁.workers = s.workers)
    (htask : pc'.task = pc.task) (u : TaskPtr) :
    (s₁.setWorker w pc').places l u = s₁.places l u := by
  have hmoved := places_setWorker (l := l) hw hworkers pc' u
  rw [htask] at hmoved
  exact Nat.add_right_cancel hmoved

theorem places_gain (hw : s.workers[w]? = some pc) (hworkers : s₁.workers = s.workers)
    (hpc : pc.task = none) (hpc' : pc'.task = some t) (u : TaskPtr) :
    (s₁.setWorker w pc').places l u = s₁.places l u + if t = u then 1 else 0 := by
  have hmoved := places_setWorker (l := l) hw hworkers pc' u
  simpa [hpc, hpc'] using hmoved

theorem places_lose (hw : s.workers[w]? = some pc) (hworkers : s₁.workers = s.workers)
    (hpc : pc.task = some t) (hpc' : pc'.task = none) (u : TaskPtr) :
    (s₁.setWorker w pc').places l u + (if t = u then 1 else 0) = s₁.places l u := by
  have hmoved := places_setWorker (l := l) hw hworkers pc' u
  simpa [hpc, hpc'] using hmoved

/-- A task that a worker holds is not on the list. -/
theorem not_mem_of_task (hplaces : ∀ t, s.places l t = if t < s.ntasks then 1 else 0)
    (hw : s.workers[w]? = some pc) (ht : pc.task = some t) : t ∉ l := by
  intro hmem
  have hlist : 0 < l.count t := List.count_pos_iff.2 hmem
  have hworker : 0 < s.workers.countP (·.task = some t) := countP_pos_of_slot hw (by simpa using ht)
  have hone : s.places l t ≤ 1 := by
    rw [hplaces t]
    split <;> omega
  unfold State.places at hone
  omega

theorem worker_sound (hI : Inv s) (hw : s.workers[w]? = some pc) (h : WorkerStep s w pc pc' s₁) :
    (s₁.setWorker w pc').Sound := by
  obtain ⟨l, hl, hplaces⟩ := hI.sound
  have hknows := hI.workers w pc hw
  have hworkers := h.workers
  cases h with
  | @take t queue hq =>
    refine ⟨l, hl, fun u => Eq.trans (places_gain hw hworkers rfl (t := t) rfl u) ?_⟩
    refine Eq.trans ?_ (hplaces u)
    simp only [State.places, hq, List.count_cons, beq_iff_eq]
    omega
  | start | lock | head | unlock | load | lockDone | unlockDone =>
    refine ⟨l, hl, fun u => Eq.trans (places_same hw hworkers ?_ u) (hplaces u)⟩
    rfl
  | @link t p h task ht =>
    refine ⟨l, chain_link hl (not_mem_of_task hplaces hw rfl), fun u => ?_⟩
    refine Eq.trans (places_same hw hworkers ?_ u) (hplaces u)
    rfl
  | @store t p =>
    refine ⟨t :: l, hl.push (fun _ _ => rfl) hknows, fun u => ?_⟩
    refine Nat.add_right_cancel (Eq.trans (places_lose hw hworkers (t := t) rfl rfl u) ?_)
    refine Eq.trans ?_ (congrArg (· + if t = u then 1 else 0) (hplaces u))
    simp only [State.places, List.count_cons, beq_iff_eq]
    omega

theorem MainStep.fresh {pc : MainPc} (hfresh : ∀ t, s.ntasks ≤ t → s.mem t = none)
    (h : MainStep s pc s') : ∀ t, s'.ntasks ≤ t → s'.mem t = none := by
  cases h with
  | malloc =>
    intro u hu
    have hlt : s.ntasks < u := hu
    exact (Function.update_of_ne hlt.ne' _ _).trans (hfresh u hlt.le)
  | @setRes p t task ht =>
    intro u hu
    have hne : u ≠ t := by
      rintro rfl
      rw [hfresh u hu] at ht
      cases ht
    exact (Function.update_of_ne hne _ _).trans (hfresh u hu)
  | lock | empty | test | head | next | store | unlock | enqueue | drop => exact hfresh

theorem WorkerStep.fresh (hfresh : ∀ t, s.ntasks ≤ t → s.mem t = none)
    (h : WorkerStep s w pc pc' s₁) : ∀ t, s₁.ntasks ≤ t → s₁.mem t = none := by
  cases h with
  | @link t p h task ht =>
    intro u hu
    have hne : u ≠ t := by
      rintro rfl
      rw [hfresh u hu] at ht
      cases ht
    exact (Function.update_of_ne hne _ _).trans (hfresh u hu)
  | take | start | lock | head | store | unlock | load | lockDone | unlockDone => exact hfresh

/-- A thread that is inside is alone. -/
theorem State.Alone.outside {t u : Thread} (h : s.Alone) (hne : t ≠ u) :
    s.inside t = none ∨ s.inside u = none := by
  cases ht : s.inside t with
  | none => exact .inl rfl
  | some a =>
    cases hu : s.inside u with
    | none => exact .inr rfl
    | some b => exact absurd trivial (h t u hne a ht b hu)

theorem Inv.step (hI : Inv s) (ha : EntersAlone s a) (h : Step s a s') : Inv s' := by
  have hlocked := hI.locked.step h
  have halone := (alone_iff hI.locked hI.alone h).2 ha
  cases h with
  | reload hidle =>
    obtain ⟨l, hl, hplaces⟩ := hI.sound
    refine ⟨hlocked, halone, ⟨l, hl, fun u => ?_⟩, hI.fresh, trivial, hI.workers⟩
    simpa [State.places, hidle, MainPc.task] using hplaces u
  | main h =>
    refine ⟨hlocked, halone, main_sound hI h, h.fresh hI.fresh, h.knows hI.main, fun v pc hv => ?_⟩
    rw [h.workers] at hv
    rcases hI.alone.outside (t := .main) (u := .worker v) (by simp) with hmain | hout
    · -- the main thread has left the list alone
      rw [h.outside hmain, h.link hI.fresh]
      exact hI.workers v pc hv
    · apply WorkerPc.knows_of_outside
      simpa only [State.inside, hv, Option.bind_some] using hout
  | @worker w pc pc' s₁ hw h =>
    have hfresh := h.fresh hI.fresh
    -- the worker has left the list alone if another thread is inside
    have hkeeps : ∀ u, u ≠ .worker w → s.inside u = none ∨ s₁.tasks = s.tasks ∧
        s₁.link = s.link := by
      intro u hne
      refine (hI.alone.outside hne).imp_right fun hout => h.outside ?_
      simpa only [State.inside, hw, Option.bind_some] using hout
    refine ⟨hlocked, halone, worker_sound hI hw h, hfresh, ?_, fun v pcv hv => ?_⟩
    · have hknows : s₁.main.Knows s₁.tasks s₁.link := by
        rw [h.main]
        rcases hkeeps .main (by simp) with hmain | ⟨htasks, hlink⟩
        · exact MainPc.knows_of_outside hmain
        · rw [htasks, hlink]
          exact hI.main
      exact hknows
    · simp only [State.setWorker, h.workers] at hv
      have hknows : pcv.Knows s₁.tasks s₁.link := by
        rcases slot_of_set hv with ⟨rfl, rfl⟩ | ⟨hne, hv⟩
        · exact h.knows (hI.workers v pc hw)
        · rcases hkeeps (.worker v) (by simpa using hne) with hout | ⟨htasks, hlink⟩
          · apply WorkerPc.knows_of_outside
            simpa only [State.inside, hv, Option.bind_some] using hout
          · rw [htasks, hlink]
            exact hI.workers v pcv hv
      exact hknows

theorem Inv.initial (numThreads : Nat) : Inv (.initial numThreads) := by
  have hidle : ∀ (w : Nat) pc, (State.initial numThreads).workers[w]? = some pc →
      pc = WorkerPc.idle := by
    intro w pc hw
    exact List.eq_of_mem_replicate (List.mem_of_getElem? hw)
  have hout : ∀ u, (State.initial numThreads).inside u = none := by
    intro u
    cases u with
    | main => rfl
    | worker w =>
      cases hw : (State.initial numThreads).workers[w]? with
      | none => simp [State.inside, hw]
      | some pc =>
        obtain rfl := hidle w pc hw
        simp only [State.inside, hw]
        rfl
  refine ⟨fun w pc hw p hp => ?_, fun t u _ a ha => ?_, ⟨[], rfl, fun t => ?_⟩,
    fun _ _ => rfl, trivial, fun w pc hw => ?_⟩
  · obtain rfl := hidle w pc hw
    cases hp
  · rw [hout t] at ha
    cases ha
  · simp [State.places, State.initial, MainPc.task, WorkerPc.task, List.countP_replicate]
  · obtain rfl := hidle w pc hw
    trivial

/-! ## The operations of the manager -/

/-- The list and the number of tasks are those of the manager. -/
def State.Agrees (s : State) (rman : Rman) : Prop :=
  Chain s.link s.tasks rman.tasks ∧ s.ntasks = rman.ntasks

/-- What a step is to the manager: the last access of a call of `alloc_task` or
`free_task` is the call. -/
def State.perform (s : State) (rman : Rman) : Action → Rman
  | .reload _ => rman
  | .main _ =>
    match s.main with
    | .store .. | .malloc _ => (allocTask rman).1
    | _ => rman
  | .worker w =>
    match s.workers[w]? with
    | some (.store t _) => freeTask rman t
    | _ => rman

theorem agrees_of_step {rman : Rman} (hI : Inv s) (hag : s.Agrees rman) (h : Step s a s') :
    s'.Agrees (s.perform rman a) := by
  obtain ⟨hl, hn⟩ := hag
  cases h with
  | reload => exact ⟨hl, hn⟩
  | main h =>
    have hknows := hI.main
    have hlink := h.link hI.fresh
    simp only [State.Agrees, State.perform, hlink]
    generalize s.main = pc at h hknows
    cases h with
    | store =>
      obtain ⟨l', hl', hchain⟩ := chain_store hl hknows
      simp only [allocTask, hl']
      exact ⟨hchain, hn⟩
    | malloc =>
      have hempty := chain_malloc hl hknows
      rw [hempty] at hl
      simp only [allocTask, hempty, hn]
      exact ⟨hl, trivial⟩
    | lock | empty | test | head | next | unlock | setRes | enqueue | drop => exact ⟨hl, hn⟩
  | @worker w pc pc' s₁ hw h =>
    have hknows := hI.workers w pc hw
    simp only [State.Agrees, State.perform, hw]
    cases h with
    | link ht =>
      obtain ⟨l, hl', hplaces⟩ := hI.sound
      obtain rfl := hl.unique hl'
      exact ⟨chain_link hl (not_mem_of_task hplaces hw rfl), hn⟩
    | store => exact ⟨hl.push (fun _ _ => rfl) hknows, hn⟩
    | take | start | lock | head | unlock | load | lockDone | unlockDone => exact ⟨hl, hn⟩

/-- `alloc_task` returns the task that the manager takes from its list or allocates. -/
theorem MainStep.returns {rman : Rman} (hI : Inv s) (hag : s.Agrees rman) (h : MainStep s s.main s')
    (hin : s.main.allocates = true) (hout : s'.main.allocates = false) :
    ∃ p, s'.main = .unlock p (allocTask rman).2 := by
  obtain ⟨hl, hn⟩ := hag
  have hknows := hI.main
  generalize s.main = pc at h hin hknows
  cases h with
  | @store p t n =>
    obtain ⟨l', hl', -⟩ := chain_store hl hknows
    exact ⟨p, by simp only [allocTask, hl']⟩
  | @malloc p =>
    have hempty := chain_malloc hl hknows
    exact ⟨p, by simp only [allocTask, hempty, hn]⟩
  | empty | test | head | next => cases hout
  | lock | unlock | setRes | enqueue | drop => cases hin

/-- **No two threads are inside `alloc_task` and `free_task`**, and no task is lost or in two
places, in the runs, and only in the runs, in which no thread enters one of them while another
thread is inside under another lock. -/
theorem alone_sound_iff {numThreads : Nat} {as : List Action} {s : State}
    (h : exec step (.initial numThreads) as = some s) :
    (∀ pre s', pre <+: as → exec step (.initial numThreads) pre = some s' → s'.Alone ∧ s'.Sound) ↔
      Along step EntersAlone (.initial numThreads) as := by
  refine forall_prefix_iff_along (D := fun _ _ => True) (I := Inv)
    (fun s' hI => ⟨hI.alone, hI.sound⟩) (fun _ _ _ hI _ ha hs => hI.step ha (step_cases hs)) ?_
    (.initial numThreads) (along_true _ _) h
  intro s₁ a s₂ hI _ ha hs hgood
  exact ha ((alone_iff hI.locked hI.alone (step_cases hs)).1 hgood.1)

/-- The main thread calls `resman_reload` and takes `k` steps. -/
def reloads (p : ResPtr) (k : Nat) : List Action := .reload p :: List.replicate k (.main true)

def works (w k : Nat) : List Action := List.replicate k (.worker w)

/-- A resource is loaded, and another one with the same task. -/
def loadsInTurn : List Action := reloads 0 6 ++ works 0 7 ++ reloads 1 8 ++ works 1 7

theorem alone_sound_iff_loadsInTurn :
    Along step EntersAlone (.initial 2) loadsInTurn ∧
      ∀ pre s', pre <+: loadsInTurn → exec step (.initial 2) pre = some s' →
        s'.Alone ∧ s'.Sound := by
  have hC : Along step EntersAlone (.initial 2) loadsInTurn := by decide +kernel
  have h := (Option.some_get
    (by decide +kernel : (exec step (.initial 2) loadsInTurn).isSome)).symm
  exact ⟨hC, (alone_sound_iff h).2 hC⟩

/-- Two resources are loaded, and both workers read `rman->tasks`. -/
def loadsAtOnce : List Action := reloads 0 6 ++ reloads 1 6 ++ works 0 4 ++ works 1 4

theorem not_alone_loadsAtOnce :
    ¬ ∀ numThreads as s, exec step (.initial numThreads) as = some s → s.Alone := by
  intro hall
  have hrun : ((exec step (.initial 2) loadsAtOnce).any fun s =>
      s.inside (.worker 0) = some .freeTask ∧ s.inside (.worker 1) = some .freeTask) = true := by
    decide +kernel
  obtain ⟨s, hs, hrun⟩ := (Option.any_eq_true _ _).1 hrun
  obtain ⟨h₀, h₁⟩ := of_decide_eq_true hrun
  exact hall 2 _ s hs (.worker 0) (.worker 1) (by simp) _ h₀ _ h₁ trivial

/-- When both workers go on, the task of the first one is lost. -/
theorem not_sound_loadsAtOnce :
    ∃ s, exec step (.initial 2) (loadsAtOnce ++ works 0 2 ++ works 1 2) = some s ∧ ¬ s.Sound := by
  have hrun : ((exec step (.initial 2) (loadsAtOnce ++ works 0 2 ++ works 1 2)).any fun s =>
      s.tasks = some 1 ∧ s.link 1 = some none ∧ s.places [1] 0 = 0 ∧ 0 < s.ntasks) = true := by
    decide +kernel
  obtain ⟨s, hs, hrun⟩ := (Option.any_eq_true _ _).1 hrun
  obtain ⟨htasks, hlink, hplaces, hn⟩ := of_decide_eq_true hrun
  refine ⟨s, hs, fun ⟨l, hl, hone⟩ => ?_⟩
  have hl' : Chain s.link s.tasks [1] := ⟨htasks, none, hlink, rfl⟩
  have hzero := hone 0
  rw [hl.unique hl', hplaces, if_pos hn] at hzero
  cases hzero

end Resman.TaskList
