import Resman.Adding.Steps

/-!
# Whether an addition is all or nothing

A call of `resman_add` for a new name should either add the resource and its load job, or return
`-1` and change neither the table nor the queue. `resman_add` does so when the resource cannot be
allocated. After that it should succeed: a failure to grow the array is not seen by the caller of
`dynarr_push`, which then reads past the end of the array, and a failure to enqueue the job is
ignored by `resman_reload`, so the resource stays without a job. `allOrNothing_iff` is the exact
condition.
-/

namespace Resman.Adding

open Lib Dynarr
open TPool (PoolPtr ItemPtr World tpoolEnqueue)

variable {s s' : State} {p : Word} {ws : List Word} {fname : String} {data idx : Nat}
  {mem : Mem} {capacity : Nat} {res : DynArr}

/-! ## What should happen -/

/-- `p` is a new resource with this name, data and id, the other ones are as before, and one job for
`p` has been enqueued. -/
structure Stored (s : State) (fname : String) (data : Nat) (s' : State) (idx : Nat) (p : Word) :
    Prop where
  fresh : s.deref p = none
  resource : ∃ r, s'.deref p = some r ∧ r.id = idx ∧ r.name = fname ∧ r.data = data
  others : ∀ q, q ≠ p → s'.deref q = s.deref q
  job : ∃ t jobs, s'.taskRes t = some p ∧ s.jobs = some jobs ∧
    s'.jobs = some (jobs ++ [⟨t, workFunc, none⟩])

/-- The id of a new resource in a new slot is returned, or `-1` with the table and the queue as
before. In either case nothing outside the array is accessed. -/
def AllOrNothing (s : State) (fname : String) (data : Nat) (mem : Mem) : Prop :=
  ∃ s' ret, resmanAdd s fname data mem = some (s', ret) ∧
    ((∃ ws p, s.slots = some ws ∧ s'.slots = some (ws ++ [p]) ∧ ret = ws.length ∧
        Stored s fname data s' ws.length p) ∨
      ret = -1 ∧ s'.slots = s.slots ∧ s'.deref = s.deref ∧ s'.jobs = s.jobs)

def State.NoHoles (s : State) : Prop := ∀ ws, s.slots = some ws → 0 ∉ ws

/-- No resource in the table has the name. -/
def State.NewName (s : State) (fname : String) : Prop :=
  ∀ ws, s.slots = some ws → ∀ p ∈ ws, ∀ r, s.deref p = some r → r.name ≠ fname

/-- What `malloc` and `realloc` can return: addresses that are not in use, and
no block of `2 ^ 63` bytes. -/
structure Mem.Possible (s : State) (mem : Mem) : Prop where
  res : ∀ p ∈ mem.res, p ≠ 0 ∧ s.heap p = none
  grow : mem.grow = true → dynarrReserve s.res true ≠ none
  item : ∀ a ∈ mem.item, s.world.items.heap a = none

/-- The array has room for one more pointer, or can grow. -/
def Mem.Room (s : State) (mem : Mem) : Prop := s.res.nelem < s.res.maxElem ∨ mem.grow = true

/-- There is a work item in the free list, or memory for one. -/
def Mem.HasItem (s : State) (mem : Mem) : Prop := s.world.items.wpool ≠ none ∨ mem.item ≠ none

/-! ## The steps of the call -/

theorem resmanAdd_eq (h : findResource s fname = some (-1)) :
    resmanAdd s fname data mem = addResource s fname data mem := by
  rw [resmanAdd, h]
  rfl

/-- Without room and memory, the slot behind the array is read. -/
theorem Table.room (ht : Table s ws) (hres : mem.res ≠ none) {o : Option (Nat × Word)}
    (h : storeResource s fname data mem = some (s', o)) : mem.Room s := by
  by_contra hroom
  obtain ⟨hfull, hgrow⟩ := not_or.1 hroom
  rcases storeResource_cases h with ⟨hnone, -⟩ | ⟨p, res, q, -, -, -, -, hpush, hq, -⟩
  · exact hres hnone
  · rw [Bool.not_eq_true] at hgrow
    rw [hgrow, dynarrPush_full (by omega)] at hpush
    obtain rfl := Option.some.inj hpush
    cases (ht.readWord_end (by omega)).symm.trans hq

/-- The new pointer is put behind the others, and read again. -/
theorem Table.storeResource (ht : Table s ws) (fname : String) (data : Nat) (hholes : 0 ∉ ws)
    (hres : mem.res = some p) (hp : p ≠ 0)
    (hfresh : s.heap p = none) (hpush : dynarrPush s.res (some (wordBytes p)) mem.grow = some res)
    (hholds : HoldsWords res (ws ++ [p])) :
    storeResource s fname data mem =
      some (s.withResource res p (newResource fname data ws.length), some (ws.length, p)) := by
  have hempty : emptyFrom s.res.buf ws.length 0 = some none :=
    ht.holds.nelem ▸ emptyFrom_of_not_mem ht.slots hholes
  have hread : readWord res.buf ws.length = some p := by
    rw [hholds.read (by simp), List.getElem_concat_length rfl]
  have hmalloc : mallocResource s p (newResource fname data 0) = some { s with
      heap := Function.update s.heap p (some (newResource fname data 0)) } := if_pos ⟨hp, hfresh⟩
  have hderef := (deref_set s (s.withResource res p (newResource fname data 0)) hp rfl).1
  unfold State.withResource at hderef
  simp only [Adding.storeResource, hres, hmalloc, ht.holds.nelem, hempty, hpush,
    State.update, hderef, Option.map_some, hread, Option.bind_eq_bind, Option.bind_some,
      Option.pure_def, Function.update_idem]
  rfl

/-- With room and an item, everything is done. -/
theorem Sound.allOrNothing (hs : Sound s) (hholes : s.NoHoles) (hnew : s.NewName fname)
    (hmem : mem.Possible s) (hres : mem.res = some p) (hroom : mem.Room s) (hitem : mem.HasItem s) :
    AllOrNothing s fname data mem := by
  obtain ⟨ws, ht⟩ := hs.table
  obtain ⟨own, howned⟩ := hs.owned
  obtain ⟨pool, hpool⟩ := Option.isSome_iff_exists.1 hs.pool
  obtain ⟨hp, hfresh⟩ := hmem.res p hres
  have hholes' := hholes ws ht.slots
  obtain ⟨res, hpush, hholds⟩ := ht.holds.push_some ht.sized hroom hmem.grow p
  have hstore := ht.storeResource fname data hholes' hres hp hfresh hpush hholds
  -- the job is enqueued for the task that `alloc_task` has given
  obtain ⟨tasks, ntasks, t, hreload⟩ :=
    reload_iff (s.withResource res p (newResource fname data ws.length)) p mem.item
  obtain ⟨world, jobs, henq, hjobs, hjobs'⟩ :=
    TPool.tpoolEnqueue_some ⟨t, workFunc, none⟩ howned hpool hmem.item hitem
  have hderef := (deref_set s (s.withResource res p (newResource fname data ws.length)) hp rfl).1
  have hadd := (hreload _).2 ⟨_, world, 0, hderef, henq, rfl⟩
  refine ⟨(s.withResource res p (newResource fname data ws.length)).withJob p
    (newResource fname data ws.length)
    tasks ntasks t world, ws.length, ?_, .inl ⟨ws, p, ht.slots, ?_, rfl, ?_⟩⟩
  · rw [resmanAdd_eq (ht.findResource hholes' (hnew ws ht.slots)), addResource, hstore]
    simp only [Option.bind_eq_bind, Option.bind_some, hadd]
    rfl
  · exact hholds.words
  · have hset := deref_set s ((s.withResource res p (newResource fname data ws.length)).withJob p
      (newResource fname data ws.length) tasks ntasks t world) hp (Function.update_idem _ _ _)
    exact {
      fresh := by rw [State.deref, if_neg hp, hfresh]
      resource := ⟨_, hset.1, rfl, rfl, rfl⟩
      others := hset.2
      job := ⟨t, jobs, Function.update_self _ _ _, hjobs, hjobs'⟩ }

/-- A resource without its job is neither. -/
theorem Sound.not_allOrNothing (hs : Sound s) (hnew : findResource s fname = some (-1))
    (hres : mem.res ≠ none) (hfail : ¬ (mem.Room s ∧ mem.HasItem s)) :
    ¬ AllOrNothing s fname data mem := by
  rintro ⟨s', ret, hadd, houtcome⟩
  obtain ⟨ws, ht⟩ := hs.table
  obtain ⟨pool, hpool⟩ := Option.isSome_iff_exists.1 hs.pool
  rw [resmanAdd_eq hnew] at hadd
  simp only [addResource, Option.bind_eq_bind, Option.bind_eq_some_iff] at hadd
  obtain ⟨⟨s₁, o⟩, hstore, hadd⟩ := hadd
  have hroom := ht.room hres hstore
  rcases storeResource_cases hstore with ⟨hnone, -⟩ | ⟨p, res, q, -, -, -, -, -, -, rfl, rfl⟩
  · exact hres hnone
  simp only [Option.bind_eq_some_iff] at hadd
  obtain ⟨s₂, hreload, hadd⟩ := hadd
  obtain ⟨rfl, rfl⟩ := Prod.mk.inj (Option.some.inj hadd)
  obtain ⟨tasks, ntasks, t, hiff⟩ :=
    reload_iff (s.withResource res p (newResource fname data s.res.nelem.toNat)) q mem.item
  obtain ⟨r, world, ret, -, henq, rfl⟩ := (hiff _).1 hreload
  have hitem : ¬ mem.HasItem s := fun hitem => hfail ⟨hroom, hitem⟩
  obtain ⟨hwpool, hnull⟩ := not_or.1 hitem
  rw [not_not.1 hnull] at henq
  have hkept := henq.symm.trans (TPool.tpoolEnqueue_null hpool (not_not.1 hwpool))
  obtain ⟨rfl, -⟩ := Prod.mk.inj (Option.some.inj hkept)
  -- the queue has not changed, and the id is not `-1`
  rcases houtcome with ⟨ws', p', -, -, -, hstored⟩ | ⟨hret, -⟩
  · obtain ⟨t', jobs, -, hjobs, hjobs'⟩ := hstored.job
    have hsame : some jobs = some (jobs ++ [⟨t', workFunc, none⟩]) := hjobs.symm.trans hjobs'
    simpa using congrArg List.length (Option.some.inj hsame)
  · omega

/-- **All or nothing**: an addition of a new name to a table without holes is so
exactly when the resource cannot be allocated, or the array has room or can grow and
there is a work item for the job. -/
theorem allOrNothing_iff {P : PoolPtr} {numThreads : Nat} {acts : List Action}
    (h : exec (step capacity) (.initial P numThreads) acts = some s) (hholes : s.NoHoles)
    (hnew : s.NewName fname) (hmem : mem.Possible s) :
    AllOrNothing s fname data mem ↔ mem.res = none ∨ mem.Room s ∧ mem.HasItem s := by
  have hs := sound_of_run h
  obtain ⟨ws, ht⟩ := hs.table
  have hfind := ht.findResource (hholes ws ht.slots) (hnew ws ht.slots)
  cases hres : mem.res with
  | none =>
    refine ⟨fun _ => .inl rfl, fun _ => ⟨s, -1, ?_, .inr ⟨rfl, rfl, rfl, rfl⟩⟩⟩
    rw [resmanAdd_eq hfind, addResource, Adding.storeResource, hres]
    rfl
  | some p =>
    constructor
    · intro hall
      by_contra hfail
      exact hs.not_allOrNothing hfind (by simp [hres]) (fun hok => hfail (.inr hok)) hall
    · rintro (hnone | ⟨hroom, hitem⟩)
      · cases hnone
      · exact hs.allOrNothing hholes hnew hmem hres hroom hitem

/-- The first resource is added by thread 7, and the array grows to one element. -/
def addsFirst : List Action := [.add 7 "a" 5 ⟨some 16, true, some 100⟩]

theorem allOrNothing_iff_addsFirst :
    let s := (exec (step 65536) (.initial 0 1) addsFirst).get (by decide +kernel)
    AllOrNothing s "b" 6 ⟨some 32, true, some 101⟩ := by
  have hslots : ((exec (step 65536) (.initial 0 1) addsFirst).get (by decide +kernel)).slots =
      some [16] := by
    decide +kernel
  have hname : (((exec (step 65536) (.initial 0 1) addsFirst).get (by decide +kernel)).deref 16).map
      Manager.Resource.name = some "a" := by
    decide +kernel
  refine (allOrNothing_iff (Option.some_get _).symm (fun ws hws => ?_) (fun ws hws p hp r hr => ?_)
    ⟨?_, ?_, ?_⟩).2 (.inr ⟨.inr rfl, .inr (by decide)⟩)
  · obtain rfl := Option.some.inj (hslots.symm.trans hws)
    decide
  · obtain rfl := Option.some.inj (hslots.symm.trans hws)
    obtain rfl := List.mem_singleton.1 hp
    rw [hr] at hname
    rw [Option.some.inj hname]
    decide
  · rintro p ⟨⟩
    decide +kernel
  · intro _
    decide +kernel
  · rintro a ⟨⟩
    decide +kernel

/-- The array cannot grow, and its first slot is read past the end. -/
theorem not_allOrNothing_grow :
    ¬ ∀ (capacity : Nat) (P : PoolPtr) (numThreads : Nat) (acts : List Action)
      (s : State) (fname : String) (data : Nat)
      (mem : Mem), exec (step capacity) (.initial P numThreads) acts = some s → s.NoHoles →
        s.NewName fname → mem.Possible s → AllOrNothing s fname data mem := by
  intro hall
  obtain ⟨s', ret, hadd, -⟩ := hall 65536 0 1 [] (.initial 0 1) "a" 5 ⟨some 16, false, some 100⟩ rfl
    (fun ws hws => by
      obtain rfl : [] = ws := Option.some.inj hws
      exact List.not_mem_nil)
    (fun ws hws p hp => by
      obtain rfl : [] = ws := Option.some.inj hws
      cases hp)
    { res := fun p hp => by
        obtain rfl := Option.some.inj hp
        decide
      grow := fun h => (by cases h)
      item := fun _ _ => rfl }
  have hnone : (resmanAdd (.initial 0 1) "a" 5 ⟨some 16, false, some 100⟩).isNone := by
    decide +kernel
  rw [hadd] at hnone
  cases hnone

end Resman.Adding
