import Resman.Adding.AllOrNothing

/-!
# Whether an empty slot is used again

`remove_resource` leaves a null pointer in its slot, for `add_resource` to put the next resource
there. The search of `add_resource` finds the first empty slot, but then `res = rman->res[idx]`
overwrites the pointer to the new resource with the null pointer from the slot, and the id is
written through it (`storeResource_hole`). So no slot is ever used again (`not_reusesSlot`).
-/

namespace Resman.Adding

open Lib Dynarr
open TPool (PoolPtr)

variable {s : State} {ws : List Word} {fname : String} {data : Nat} {mem : Mem}

/-- The first empty slot gets a new resource with this name, data and id, the table keeps its size
and its other slots, the index of the slot is returned, and one job for the resource is enqueued. -/
def ReusesSlot (s : State) (fname : String) (data : Nat) (mem : Mem) : Prop :=
  ∃ s' ws idx p, addResource s fname data mem = some (s', Int.ofNat idx) ∧ s.slots = some ws ∧
    ws.findIdx? (· = 0) = some idx ∧ p ≠ 0 ∧ s'.slots = some (ws.set idx p) ∧
    Stored s fname data s' idx p

/-- All allocations succeed. -/
structure Mem.Succeeds (mem : Mem) : Prop where
  res : mem.res ≠ none
  grow : mem.grow = true
  item : mem.item ≠ none

theorem exists_findIdx? (hhole : 0 ∈ ws) : ∃ i, ws.findIdx? (· = 0) = some i :=
  Option.isSome_iff_exists.1 (List.findIdx?_isSome.trans (List.any_eq_true.2 ⟨0, hhole, by simp⟩))

/-- The null pointer in the first empty slot is dereferenced. -/
theorem storeResource_hole (hslots : s.slots = some ws) (hhole : 0 ∈ ws) (hres : mem.res ≠ none) :
    storeResource s fname data mem = none := by
  obtain ⟨i, hi⟩ := exists_findIdx? hhole
  have hempty := emptyFrom_eq hslots
  rw [hi] at hempty
  by_contra hne
  obtain ⟨⟨s', o⟩, hstore⟩ := Option.ne_none_iff_exists'.1 hne
  rcases storeResource_cases hstore with ⟨hnone, -⟩ | ⟨p, res, q, -, -, -, hfull, -⟩
  · exact hres hnone
  · cases Option.some.inj (hempty.symm.trans hfull)

/-- **No slot is used again**, whatever the table, the name and the memory. -/
theorem not_reusesSlot (hslots : s.slots = some ws) (hhole : 0 ∈ ws) :
    ¬ ReusesSlot s fname data mem := by
  rintro ⟨s', -, idx, -, hadd, -⟩
  by_cases hres : mem.res = none
  · rw [addResource, storeResource, hres] at hadd
    cases (Prod.mk.inj (Option.some.inj hadd)).2
  · rw [addResource, storeResource_hole hslots hhole hres] at hadd
    cases hadd

/-- The worker takes the job, returns the task, runs the job to its end and waits; then the client
removes the resource. -/
def removesFirst : List Action :=
  addsFirst ++ List.replicate 3 (.pool (.worker 0 0)) ++
    [.freeTask 0, .write 16 (newResource "a" 5 0),
      .write 16 { newResource "a" 5 0 with deletePending := true }] ++
    List.replicate 5 (.pool (.worker 0 0)) ++ [.remove 0]

theorem not_reusesSlot_removesFirst :
    ¬ ReusesSlot ((exec (step 65536) (.initial 0 1) removesFirst).get (by decide +kernel)) "b" 6
      ⟨some 32, true, some 101⟩ :=
  not_reusesSlot (show State.slots _ = some [0] by decide +kernel) (by decide)

/-- A resource is added after the first one has been removed. -/
theorem not_reusesSlot_add :
    ¬ ∀ (capacity : Nat) (P : PoolPtr) (numThreads : Nat) (acts : List Action)
      (s : State) (ws : List Word) (fname : String) (data : Nat)
      (mem : Mem), exec (step capacity) (.initial P numThreads) acts = some s →
        s.slots = some ws → 0 ∈ ws → s.NewName fname → mem.Possible s → mem.Succeeds →
          ReusesSlot s fname data mem := by
  intro hall
  have hslots : ((exec (step 65536) (.initial 0 1) removesFirst).get (by decide +kernel)).slots =
      some [0] := by
    decide +kernel
  obtain ⟨s', ws, idx, p, hadd, -⟩ :=
    hall 65536 0 1 removesFirst _ [0] "b" 6 ⟨some 32, true, some 101⟩
    (Option.some_get (by decide +kernel)).symm hslots (by decide)
    (fun ws hws p hp r hr => by
      obtain rfl := Option.some.inj (hslots.symm.trans hws)
      obtain rfl := List.mem_singleton.1 hp
      cases (deref_null _).symm.trans hr)
    { res := fun p hp => by
        obtain rfl := Option.some.inj hp
        decide +kernel
      grow := fun _ => (by decide +kernel)
      item := fun a ha => by
        obtain rfl := Option.some.inj ha
        decide +kernel }
    ⟨by decide, rfl, by decide⟩
  have hnone :
      (addResource ((exec (step 65536) (.initial 0 1) removesFirst).get (by decide +kernel)) "b" 6
      ⟨some 32, true, some 101⟩).isNone := by
    decide +kernel
  rw [hadd] at hnone
  cases hnone

end Resman.Adding
