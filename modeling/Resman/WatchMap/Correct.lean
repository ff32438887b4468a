import Resman.WatchMap.Steps

/-!
# Mutual exclusion on the watch map

`apart_intact_iff` says when no thread is inside a tree operation on `nresmap` that changes it while
another thread is inside any, and that then the map holds what has been registered.
-/

namespace Resman.WatchMap

open Lib Rb FileWatch Manager
open TaskList (Thread)

variable {m : MgrPtr} {x x' : State} {c c' : Client} {o : Oracle} {torn : WatchTree} {w : Nat}
  {p : ResPtr} {fd : BitVec 32} {pos : MainAt} {acc : Access} {act : Action} {es : List Edit}
  {map map' : WatchTree} {rman rman' : Rman} {pc pc' : Pc}

/-! ## Who is inside -/

theorem lookup_filter {α : Type} {l : List (Nat × α)} {v : Nat} :
    (l.filter (·.1 ≠ w)).lookup v = if v = w then none else l.lookup v := by
  induction l with
  | nil => simp
  | cons e l ih =>
    rw [List.filter_cons, List.lookup_cons]
    by_cases hv : v = e.1
    · subst hv
      split
      · next he =>
        have hne : e.1 ≠ w := by simpa using he
        rw [if_neg hne, List.lookup_cons, beq_self_eq_true]
      · next he =>
        have heq : e.1 = w := by simpa using he
        rw [ih, if_pos heq, if_pos heq]
    · rw [beq_false_of_ne hv]
      split
      · rw [List.lookup_cons, beq_false_of_ne hv]
        exact ih
      · exact ih

theorem inside_of_main {x x' : State} (h : x'.inserting = x.inserting) :
    x'.inside = Function.update x.inside .main (x'.main.access.map Access.kind) := by
  funext u
  cases u with
  | main =>
    rw [Function.update_self, State.inside]
  | worker w =>
    rw [Function.update_of_ne (by simp)]
    simp only [State.inside, State.insertion, h]

theorem inside_of_enter {x x' : State} {e : ResPtr × BitVec 32} (hmain : x'.main = x.main)
    (h : x'.inserting = (w, e) :: x.inserting) :
    x'.inside = Function.update x.inside (.worker w) (some .edit) := by
  funext u
  cases u with
  | main =>
    rw [Function.update_of_ne (by simp)]
    simp only [State.inside, hmain]
  | worker v =>
    simp only [State.inside, State.insertion, h, List.lookup_cons]
    by_cases hv : v = w
    · subst hv
      simp
    · rw [Function.update_of_ne (by simpa using hv), beq_false_of_ne hv]
      rfl

theorem inside_of_leave {x x' : State} (hmain : x'.main = x.main)
    (h : x'.inserting = x.inserting.filter (·.1 ≠ w)) :
    x'.inside = Function.update x.inside (.worker w) none := by
  funext u
  cases u with
  | main =>
    rw [Function.update_of_ne (by simp)]
    simp only [State.inside, hmain]
  | worker v =>
    simp only [State.inside, State.insertion, h, lookup_filter]
    by_cases hv : v = w
    · subst hv
      simp
    · rw [Function.update_of_ne (by simpa using hv)]
      simp [hv, State.insertion, State.inside]

theorem clash_symm : ∀ a b : Kind, a.clash b → b.clash a := fun _ _ h => h.symm

theorem inside_worker_eq_some {k : Kind} :
    x.inside (.worker w) = some k ↔ ∃ e, x.insertion w = some e ∧ k = .edit := by
  simp only [State.inside, Option.map_eq_some_iff]
  constructor
  · rintro ⟨e, he, rfl⟩
    exact ⟨e, he, rfl⟩
  · rintro ⟨e, he, rfl⟩
    exact ⟨e, he, rfl⟩

/-- A worker in the list is inside. -/
theorem exists_insertion {i : Nat × ResPtr × BitVec 32} (h : i ∈ x.inserting) :
    ∃ e, x.insertion i.1 = some e := by
  apply Option.isSome_iff_exists.1
  exact List.lookup_isSome_iff.2 ⟨i, h, beq_self_eq_true _⟩

theorem mem_inserting {e : ResPtr × BitVec 32} (h : x.insertion w = some e) :
    (w, e) ∈ x.inserting := by
  obtain ⟨l₁, l₂, heq, -⟩ := List.lookup_eq_some_iff.1 h
  rw [heq]
  simp

/-- Nobody is in the way of the main thread. -/
theorem admitted_main_iff :
    Admitted Kind.clash x.inside .main (some acc.kind) ↔ x.inserting = [] := by
  constructor
  · intro h
    by_contra hne
    obtain ⟨i, hi⟩ := List.exists_mem_of_ne_nil _ hne
    obtain ⟨e, he⟩ := exists_insertion hi
    exact h _ rfl (.worker i.1) (by simp) _ (inside_worker_eq_some.2 ⟨e, he, rfl⟩) (.inr rfl)
  · rintro h a - u hne b hb
    cases u with
    | main => exact absurd rfl hne
    | worker w =>
      obtain ⟨e, he, -⟩ := inside_worker_eq_some.1 hb
      have hmem := mem_inserting he
      rw [h] at hmem
      cases hmem

/-- Workers that are inside `rb_inserti` hold the lock of the resource. -/
def State.Locked (x : State) : Prop := ∀ w p fd, x.insertion w = some (p, fd) → x.locks p = some w

/-- Nobody is in the way of a worker that locks the mutex of `p`: those of the
same resource cannot be. -/
theorem admitted_worker_iff (hlocked : x.Locked) (hfree : x.locks p = none)
    (hw : x.insertion w = none) :
    Admitted Kind.clash x.inside (.worker w) (some .edit) ↔
      x.main.access = none ∧ ∀ i ∈ x.inserting, i.2.1 = p := by
  constructor
  · refine fun h => ⟨?_, fun i hi => ?_⟩
    · by_contra hne
      obtain ⟨acc, hacc⟩ := Option.ne_none_iff_exists'.1 hne
      have hin : x.inside .main = some acc.kind := by simp [State.inside, hacc]
      exact h _ rfl .main (by simp) _ hin (.inl rfl)
    · obtain ⟨e, he⟩ := exists_insertion hi
      refine absurd (.inl rfl) (h _ rfl (.worker i.1) ?_ _ (inside_worker_eq_some.2 ⟨e, he, rfl⟩))
      intro heq
      rw [Thread.worker.inj heq, hw] at he
      cases he
  · rintro ⟨hmain, hothers⟩ a - u hne b hb
    cases u with
    | main =>
      simp only [State.inside, hmain] at hb
      cases hb
    | worker v =>
      obtain ⟨⟨q, fd⟩, he, -⟩ := inside_worker_eq_some.1 hb
      obtain rfl := hothers _ (mem_inserting he)
      rw [hlocked v _ fd he] at hfree
      cases hfree

theorem apart_of_main (hex : x.Apart) (h : x'.inserting = x.inserting) :
    x'.Apart ↔ Admitted Kind.clash x.inside .main (x'.main.access.map Access.kind) := by
  rw [State.Apart, inside_of_main h]
  exact Exclusive.update_iff clash_symm hex

theorem apart_of_enter {e : ResPtr × BitVec 32} (hex : x.Apart) (hmain : x'.main = x.main)
    (h : x'.inserting = (w, e) :: x.inserting) :
    x'.Apart ↔ Admitted Kind.clash x.inside (.worker w) (some .edit) := by
  rw [State.Apart, inside_of_enter hmain h]
  exact Exclusive.update_iff clash_symm hex

theorem apart_of_leave (hex : x.Apart) (hmain : x'.main = x.main)
    (h : x'.inserting = x.inserting.filter (·.1 ≠ w)) : x'.Apart := by
  rw [State.Apart, inside_of_leave hmain h]
  exact (Exclusive.update_iff clash_symm hex).2 (hex.admitted (.inl rfl))

/-- A step keeps the threads apart if and only if it meets the condition. -/
theorem apart_iff (hlocked : x.Locked) (hex : x.Apart) (h : Step m x act x') :
    x'.Apart ↔ EntersApart m x act := by
  cases h with
  | pass hpass hpos =>
    refine Iff.trans (apart_of_main hex rfl) (iff_of_true (hex.admitted ?_) hpass)
    rcases hpos with rfl | hpos
    · exact .inr rfl
    · exact .inl (by rw [hpos]; rfl)
  | enter hc hnext =>
    refine Iff.trans (apart_of_main hex rfl) (Iff.trans admitted_main_iff ?_)
    constructor
    · exact fun hnone _ _ _ => hnone
    · exact fun h => h _ hc (by simp [hnext])
  | leave hc hmain hpos =>
    refine Iff.trans (apart_of_main hex rfl)
      (iff_of_true (hex.admitted (.inl ?_)) fun c hc hne => ?_)
    · rw [hpos]
      rfl
    · rw [hmain] at hne
      exact absurd rfl hne
  | enterInsert hw hnext hfree =>
    refine Iff.trans (apart_of_enter hex rfl rfl) ?_
    simp only [EntersApart, hnext, Option.mem_some_iff, forall_eq']
    exact admitted_worker_iff hlocked hfree hw
  | leaveInsert hw =>
    refine iff_of_true (apart_of_leave hex rfl rfl) fun e he => ?_
    obtain ⟨q, fd'⟩ := e
    rw [(nextInsert_eq_some he).1] at hw
    cases hw

/-! ## The map -/

/-- The map of the client holds what the edits say. -/
structure Kept (c : Client) (es : List Edit) : Prop where
  tree : IntTree c.rman.nresmap
  full : Full c.rman.nresmap
  map : rbFindi c.rman.nresmap = registered es
  doneFunc : c.rman.doneFunc = false
  outside : inDone c.pc = false

/-- The invariant of the runs in which the threads are apart. -/
structure Inv (m : MgrPtr) (x : State) : Prop where
  locked : x.Locked
  apart : x.Apart
  clean : x.raced = false
  access : ∀ acc ∈ x.main.access, ∀ fd ∈ acc.wd, 0 < fd.toInt
  insertion : ∀ w p fd, x.insertion w = some (p, fd) → 0 < fd.toInt
  absent : x.sys.clients m = none → x.edits = []
  client : ∀ c ∈ x.sys.clients m, Kept c x.edits

theorem Kept.init (destroyFunc : Bool) : Kept ⟨.init false destroyFunc, .idle⟩ [] where
  tree := .create
  full _ := not_entry_create
  map := rfl
  doneFunc := rfl
  outside := rfl

/-- An operation is done on the map and on what it holds. -/
theorem Kept.applied {e : Option Edit} (h : Kept c es) (hgoes : Goes c c')
    (happ : Applied c.rman.nresmap c'.rman.nresmap e) (hpos : ∀ e' ∈ e, 0 < e'.wd.toInt) :
    Kept c' (e.toList ++ es) := by
  have hdone := hgoes.doneFunc.trans h.doneFunc
  have hout := hgoes.outside h.outside
  generalize hmap : c'.rman.nresmap = map' at happ
  cases happ with
  | find =>
    refine ⟨?_, ?_, ?_, hdone, hout⟩ <;> rw [hmap]
    · exact h.tree
    · exact h.full
    · exact h.map
  | insert hins =>
    obtain ⟨htree, hfull, hfind⟩ := rbFindi_rbInserti h.tree h.full (Int.le_of_lt (hpos _ rfl)) hins
    refine ⟨?_, ?_, ?_, hdone, hout⟩ <;> rw [hmap]
    · exact htree
    · exact hfull
    · rw [hfind, h.map]
      rfl
  | delete hdel =>
    obtain ⟨htree, hfull, hfind⟩ := rbFindi_rbDeletei h.tree h.full (Int.le_of_lt (hpos _ rfl)) hdel
    refine ⟨?_, ?_, ?_, hdone, hout⟩ <;> rw [hmap]
    · exact htree
    · exact hfull
    · rw [hfind, h.map]
      rfl

theorem Inv.noDone (h : Inv m x) : x.NoDone m :=
  fun c hc => ⟨(h.client c hc).doneFunc, (h.client c hc).outside⟩

theorem Inv.found (h : Inv m x) : (x.found c torn).nresmap = c.rman.nresmap := by
  rw [State.found, h.clean]
  rfl

theorem State.Locked.step (hI : x.Locked) (h : Step m x act x') : x'.Locked := by
  cases h with
  | pass | enter | leave => exact hI
  | @enterInsert w o torn c c' p fd hw hnext hfree =>
    intro v q fd' hv
    simp only [State.insertion, List.lookup_cons] at hv
    by_cases hvw : v = w
    · subst hvw
      rw [beq_self_eq_true] at hv
      obtain ⟨rfl, rfl⟩ := Prod.mk.inj (Option.some.inj hv)
      exact Function.update_self ..
    · rw [beq_false_of_ne hvw] at hv
      have hold := hI v q fd' hv
      refine (Function.update_of_ne ?_ ..).trans hold
      rintro rfl
      rw [hfree] at hold
      cases hold
  | @leaveInsert w o torn c c' p fd pool hw =>
    intro v q fd' hv
    simp only [State.insertion, lookup_filter] at hv
    split at hv
    · cases hv
    · next hvw =>
      have hold := hI v q fd' hv
      refine (Function.update_of_ne ?_ ..).trans hold
      rintro rfl
      exact hvw (Option.some.inj (hold.symm.trans (hI w q fd hw)))

/-- The threads that enter alone have not raced. -/
theorem clean_of_step (hI : Inv m x) (ha : EntersApart m x act) (h : Step m x act x') :
    x'.raced = false := by
  cases h with
  | pass | leave | leaveInsert => exact hI.clean
  | enter hc hnext =>
    simp [hI.clean, ha _ hc (by simp [hnext])]
  | enterInsert hw hnext hfree =>
    obtain ⟨hmain, hothers⟩ := ha _ hnext
    have hnil : x.inserting = [] := by
      by_contra hne
      obtain ⟨i, hi⟩ := List.exists_mem_of_ne_nil _ hne
      obtain ⟨⟨q, fd'⟩, he⟩ := exists_insertion hi
      obtain rfl := hothers _ (mem_inserting he)
      rw [hI.locked _ _ fd' he] at hfree
      cases hfree
    simp [hI.clean, hmain, hnil]

/-- Only positive descriptors are registered and deleted. -/
theorem nextAccess_wd (h : nextAccess c pos o = some acc) (hpos : ∀ fd ∈ o.watch, 0 < fd.toInt) :
    ∀ fd ∈ acc.wd, 0 < fd.toInt := by
  unfold nextAccess at h
  split at h
  · split at h
    · simp only [Option.bind_eq_bind, Option.bind_eq_some_iff] at h
      obtain ⟨r, -, h⟩ := h
      split at h
      · next hnfd =>
        obtain rfl := Option.some.inj h
        exact fun fd hfd => Option.some.inj hfd ▸ hnfd
      · cases h
    · simp only [Option.bind_eq_bind, Option.bind_eq_some_iff] at h
      obtain ⟨ev, -, h⟩ := h
      split at h
      · obtain rfl := Option.some.inj h
        exact fun fd hfd => by cases hfd
      · cases h
    · obtain rfl := Option.some.inj h
      exact fun fd hfd => by cases hfd
    · cases h
  · split at h
    · obtain rfl := Option.some.inj h
      exact fun fd hfd => by cases hfd
    · cases h
  · split at h
    · obtain rfl := Option.some.inj h
      exact fun fd hfd => by cases hfd
    · cases h
  · simp only [Option.bind_eq_bind, Option.bind_eq_some_iff] at h
    obtain ⟨r, -, h⟩ := h
    split at h
    · cases h
    · obtain ⟨fd', hfd', h⟩ := Option.bind_eq_some_iff.1 h
      obtain rfl := Option.some.inj h
      exact fun fd hfd => Option.some.inj hfd ▸ hpos fd' hfd'
  · simp only [Option.bind_eq_bind, Option.bind_eq_some_iff] at h
    obtain ⟨r, -, h⟩ := h
    split at h
    · next hnfd =>
      obtain rfl := Option.some.inj h
      exact fun fd hfd => Option.some.inj hfd ▸ hnfd
    · cases h
  · cases h

theorem access_of_step (hI : Inv m x) (hpos : PositiveWatch x act) (h : Step m x act x') :
    ∀ acc ∈ x'.main.access, ∀ fd ∈ acc.wd, 0 < fd.toInt := by
  cases h with
  | pass hpass hmain =>
    rcases hmain with rfl | hmain
    · exact hI.access
    · intro acc hacc
      rw [hmain] at hacc
      cases hacc
  | enter hc hnext =>
    intro acc hacc
    obtain rfl := Option.some.inj hacc
    exact nextAccess_wd hnext hpos
  | leave hc hmain hout =>
    intro acc hacc
    rw [hout] at hacc
    cases hacc
  | enterInsert | leaveInsert => exact hI.access

theorem insertion_of_step (hI : Inv m x) (hpos : PositiveWatch x act) (h : Step m x act x') :
    ∀ w p fd, x'.insertion w = some (p, fd) → 0 < fd.toInt := by
  cases h with
  | pass | enter | leave => exact hI.insertion
  | @enterInsert w o torn c c' p fd hw hnext =>
    intro v q fd' hv
    simp only [State.insertion, List.lookup_cons] at hv
    split at hv
    · obtain ⟨rfl, rfl⟩ := Prod.mk.inj (Option.some.inj hv)
      exact hpos fd (nextInsert_eq_some hnext).2.1
    · exact hI.insertion v q fd' hv
  | leaveInsert =>
    intro v q fd' hv
    simp only [State.insertion, lookup_filter] at hv
    split at hv
    · cases hv
    · exact hI.insertion v q fd' hv

theorem client_of_step (hI : Inv m x) (h : Step m x act x') :
    (x'.sys.clients m = none → x'.edits = []) ∧ ∀ c ∈ x'.sys.clients m, Kept c x'.edits := by
  -- the client that there is after the step
  have hsome : ∀ {x' : State} {c' : Client}, x'.sys.clients m = some c' → Kept c' x'.edits →
      (x'.sys.clients m = none → x'.edits = []) ∧ ∀ c ∈ x'.sys.clients m, Kept c x'.edits := by
    intro x' c' hc' hkept
    refine ⟨fun hnone => ?_, fun c hc => ?_⟩
    · rw [hc'] at hnone
      cases hnone
    · obtain rfl := Option.some.inj (hc'.symm.trans hc)
      exact hkept
  cases h with
  | pass hpass hmain hkeeps =>
    cases hkeeps with
    | absent hc hc' =>
      refine ⟨fun _ => hI.absent hc, fun c hcc => ?_⟩
      exact absurd (hc'.symm.trans hcc) (by simp)
    | created destroyFunc hc hc' =>
      refine hsome hc' ?_
      rw [hI.absent hc]
      exact .init destroyFunc
    | kept c c' hc hc' hmap hgoes =>
      refine hsome hc' ((hI.client c hc).applied (e := none) hgoes ?_ fun e he => by cases he)
      rw [hmap]
      exact .find
  | enter => exact ⟨hI.absent, hI.client⟩
  | leave hc hmain hout hgoes happ he =>
    rw [hI.found] at happ
    refine hsome (Function.update_self ..) ((hI.client _ hc).applied hgoes happ fun e' he' => ?_)
    exact hI.access _ (by rw [hmain]; rfl) _ (he e' he')
  | enterInsert hw hnext hfree hc hmap hgoes =>
    refine hsome (Function.update_self ..)
      ((hI.client _ hc).applied (e := none) hgoes ?_ fun e he => by cases he)
    rw [hmap]
    exact .find
  | leaveInsert hw hc hgoes happ =>
    rw [hI.found] at happ
    refine hsome (Function.update_self ..) ((hI.client _ hc).applied hgoes happ fun e' he' => ?_)
    obtain rfl := Option.some.inj he'
    exact hI.insertion _ _ _ hw

theorem Inv.step (hI : Inv m x) (hpos : PositiveWatch x act) (ha : EntersApart m x act)
    (h : Step m x act x') : Inv m x' where
  locked := hI.locked.step h
  apart := (apart_iff hI.locked hI.apart h).2 ha
  clean := clean_of_step hI ha h
  access := access_of_step hI hpos h
  insertion := insertion_of_step hI hpos h
  absent := (client_of_step hI h).1
  client := (client_of_step hI h).2

theorem Inv.initial (m : MgrPtr) (numThreads : Nat) : Inv m (.initial numThreads) where
  locked w p fd h := by cases h
  apart t u hne a ha := by
    cases t with
    | main => cases ha
    | worker w => cases ha
  clean := rfl
  access acc h := by cases h
  insertion w p fd h := by cases h
  absent _ := rfl
  client c h := by cases h

/-- **No thread is inside a tree operation on the watch map that changes it while another thread is
inside any**, and no registration is lost, in the runs, and only in the runs, in which no thread
enters one while another thread is inside under another lock or without any. -/
theorem apart_intact_iff {numThreads : Nat} {acts : List Action} {x : State}
    (hpos : Along (mapStep m) PositiveWatch (.initial numThreads) acts)
    (h : exec (mapStep m) (.initial numThreads) acts = some x) :
    (∀ pre x', pre <+: acts → exec (mapStep m) (.initial numThreads) pre = some x' →
        x'.Apart ∧ x'.Intact m) ↔
      Along (mapStep m) (EntersApart m) (.initial numThreads) acts := by
  refine forall_prefix_iff_along (I := Inv m)
    (fun x' hI => ⟨hI.apart, fun c hc => (hI.client c hc).map⟩)
    (fun _ _ _ hI hp ha hs => hI.step hp ha (step_cases hI.noDone hs)) ?_
    (.initial m numThreads) hpos h
  intro x₁ act x₂ hI _ ha hs hgood
  exact ha ((apart_iff hI.locked hI.apart (step_cases hI.noDone hs)).1 hgood.1)

/-- Two files are added to a manager without a `done_func`. -/
def addsTwo : List Action :=
  .create false :: .call (.add "a" 0 {}) :: List.replicate 3 (.main {} (rbCreate cmpint)) ++
  .call (.add "b" 0 {}) :: List.replicate 3 (.main {} (rbCreate cmpint))

/-- Worker `w` takes `k` steps, and `inotify_add_watch` returns `fd`. -/
def works (w : Nat) (fd : BitVec 32) (k : Nat) : List Action :=
  List.replicate k (.worker w { watch := some fd, node := w } (rbCreate cmpint))

theorem apart_intact_iff_addsTwo :
    Along (mapStep 0) (EntersApart 0) (.initial 2) (addsTwo ++ works 0 1 5 ++ works 1 2 5) ∧
      ∀ pre x', pre <+: addsTwo ++ works 0 1 5 ++ works 1 2 5 →
        exec (mapStep 0) (.initial 2) pre = some x' → x'.Apart ∧ x'.Intact 0 := by
  have hpos : Along (mapStep 0) PositiveWatch (.initial 2)
      (addsTwo ++ works 0 1 5 ++ works 1 2 5) := by
    decide +kernel
  have hC : Along (mapStep 0) (EntersApart 0) (.initial 2)
      (addsTwo ++ works 0 1 5 ++ works 1 2 5) := by
    decide +kernel
  have h := (Option.some_get (by decide +kernel :
    (exec (mapStep 0) (.initial 2) (addsTwo ++ works 0 1 5 ++ works 1 2 5)).isSome)).symm
  exact ⟨hC, (apart_intact_iff hpos h).2 hC⟩

/-- Both workers are inside `rb_inserti`. -/
theorem not_apart_addsTwo :
    ¬ ∀ m numThreads acts x, exec (mapStep m) (.initial numThreads) acts = some x → x.Apart := by
  intro hall
  have hrun : ((exec (mapStep 0) (.initial 2) (addsTwo ++ works 0 1 4 ++ works 1 2 4)).any fun x =>
      x.inside (.worker 0) = some .edit ∧ x.inside (.worker 1) = some .edit) = true := by
    decide +kernel
  obtain ⟨x, hx, hrun⟩ := (Option.any_eq_true _ _).1 hrun
  obtain ⟨h₀, h₁⟩ := of_decide_eq_true hrun
  exact hall 0 2 _ x hx (.worker 0) (.worker 1) (by simp) _ h₀ _ h₁ (.inl rfl)

end Resman.WatchMap
