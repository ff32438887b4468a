import Resman.Adding.Reuse

/-!
# The array behind the table of a manager

The modules of `Manager` take the array of resources as a list of slots, and a resource as an
identity that is never used again. `Refines` says that such a manager is what the array and the
addresses stand for; an address gets a new identity when it is allocated again. `find_resource` then
has the same result on both (`Refines.findResource`), and `add_resource` has on both, or is
undefined on both (`Refines.storeResource`).
-/

namespace Resman.Adding

open Lib Dynarr
open Manager (Rman ResPtr Resource AddMem)

variable {s : State} {rman : Rman} {ι : Word → ResPtr} {ws : List Word} {fname : String}
  {data : Nat} {mem : Mem}

/-- What a pointer in a slot stands for. -/
def slotOf (ι : Word → ResPtr) (p : Word) : Option ResPtr := if p = 0 then none else some (ι p)

structure Refines (s : State) (rman : Rman) (ι : Word → ResPtr) (ws : List Word) : Prop where
  table : Table s ws
  res : rman.res = ws.map (slotOf ι)
  heap : ∀ p ∈ ws, p ≠ 0 → rman.heap (ι p) = s.heap p
  fresh : ∀ p ∈ ws, p ≠ 0 → ι p < rman.nalloc

instance (s : State) (mem : Mem) : Decidable (mem.Room s) := inferInstanceAs (Decidable (_ ∨ _))

/-- The memory as the manager sees it. -/
def Mem.addMem (s : State) (mem : Mem) : AddMem := ⟨mem.res.isSome, decide (mem.Room s)⟩

theorem findIdx?_slotOf (ι : Word → ResPtr) (ws : List Word) :
    (ws.map (slotOf ι)).findIdx? Option.isNone = ws.findIdx? (· = 0) := by
  rw [List.findIdx?_map]
  refine congrArg (List.findIdx? · ws) (funext fun p => ?_)
  show (slotOf ι p).isNone = decide (p = 0)
  by_cases hp : p = 0
  · simp [slotOf, hp]
  · rw [slotOf, if_neg hp, decide_eq_false hp]
    rfl

namespace Refines

theorem initial (P : TPool.PoolPtr) (numThreads : Nat) (doneFunc destroyFunc : Bool)
    (ι : Word → ResPtr) :
    Refines (.initial P numThreads) (.init doneFunc destroyFunc) ι [] where
  table := .initial P numThreads
  res := rfl
  heap _ h := by cases h
  fresh _ h := by cases h

theorem findFrom (h : Refines s rman ι ws) :
    ∀ n i, i + n = ws.length →
      findFrom s fname n i = Manager.findFrom rman fname i ((ws.drop i).map (slotOf ι))
  | 0, i, hi => by
    rw [List.drop_of_length_le (by omega)]
    rfl
  | n + 1, i, hi => by
    have hlt : i < ws.length := by omega
    rw [List.drop_eq_getElem_cons hlt, List.map_cons, Adding.findFrom, Manager.findFrom,
      h.table.holds.read hlt, h.findFrom n (i + 1) (by omega)]
    by_cases hp : ws[i] = 0
    · simp [slotOf, State.deref, hp]
    · have hderef : s.deref ws[i] = rman.heap (ι ws[i]) := by
        rw [State.deref, if_neg hp, h.heap _ (List.getElem_mem hlt) hp]
      rw [slotOf, if_neg hp]
      simp only [Option.bind_eq_bind, Option.bind_some, hderef]
      rfl

/-- `find_resource` on the array is `find_resource` on the list. -/
theorem findResource (h : Refines s rman ι ws) :
    findResource s fname = Manager.findResource rman fname := by
  rw [Adding.findResource, Manager.findResource, h.res,
    h.findFrom _ 0 (by rw [h.table.holds.nelem, Nat.zero_add])]
  rfl

/-- A new resource has been put behind the others, with a new identity. -/
theorem append (h : Refines s rman ι ws) {p : Word} {r : Resource} {res : DynArr} (hp : p ≠ 0)
    (hfresh : s.heap p = none) (hholds : HoldsWords res (ws ++ [p])) (hsized : Sized res wordSize)
    {rman' : Rman} (hres : rman'.res = rman.res ++ [some rman.nalloc])
    (hheap : rman'.heap = Function.update rman.heap rman.nalloc (some r))
    (halloc : rman'.nalloc = rman.nalloc + 1) :
    Refines (s.withResource res p r) rman' (Function.update ι p rman.nalloc) (ws ++ [p]) := by
  have hold : ∀ q ∈ ws, q ≠ 0 → q ≠ p ∧ ι q ≠ rman.nalloc := by
    intro q hq hne
    refine ⟨?_, (h.fresh q hq hne).ne⟩
    rintro rfl
    exact h.table.live q hq hne hfresh
  refine ⟨h.table.append hfresh rfl hholds hsized, ?_, fun q hq hne => ?_, fun q hq hne => ?_⟩
  · rw [hres, h.res, List.map_append, List.map_singleton, slotOf, if_neg hp, Function.update_self]
    refine congrArg (· ++ _) (List.map_congr_left fun q hq => ?_)
    by_cases hne : q = 0
    · simp [slotOf, hne]
    · simp [slotOf, (hold q hq hne).1]
  · rw [hheap]
    rcases List.mem_append.1 hq with hq | hq
    · obtain ⟨hqp, hnew⟩ := hold q hq hne
      simp [State.withResource, hqp, hnew, h.heap q hq hne]
    · simp [State.withResource, List.mem_singleton.1 hq]
  · rw [halloc]
    rcases List.mem_append.1 hq with hq | hq
    · rw [Function.update_of_ne (hold q hq hne).1]
      exact (h.fresh q hq hne).trans (Nat.lt_succ_self _)
    · rw [List.mem_singleton.1 hq, Function.update_self]
      exact Nat.lt_succ_self _

/-- **`add_resource` refines** the one of the manager, up to the call of `resman_reload`. -/
theorem storeResource (h : Refines s rman ι ws) (hmem : mem.Possible s) :
    match storeResource s fname data mem with
    | none => Manager.addResource rman fname data (mem.addMem s) = none
    | some (s', none) =>
      s' = s ∧ Manager.addResource rman fname data (mem.addMem s) = some (rman, none)
    | some (s', some (idx, p)) => ∃ rman' ι', idx = ws.length ∧ Refines s' rman' ι' (ws ++ [p]) ∧
        Manager.addResource rman fname data (mem.addMem s) = some (rman', some (ι' p)) := by
  have hfind := findIdx?_slotOf ι ws
  rw [← h.res] at hfind
  cases hres : mem.res with
  | none => simp [Adding.storeResource, Manager.addResource, Mem.addMem, hres]
  | some p =>
    obtain ⟨hp, hfresh⟩ := hmem.res p hres
    by_cases hhole : 0 ∈ ws
    · -- both dereference the empty slot
      obtain ⟨i, hi⟩ := exists_findIdx? hhole
      rw [storeResource_hole h.table.slots hhole (by simp [hres])]
      simp [Manager.addResource, Mem.addMem, hres, hfind.trans hi]
    · have hnone : rman.res.findIdx? Option.isNone = none := by
        rw [hfind, List.findIdx?_eq_none_iff]
        intro q hq
        simpa using ne_of_mem_of_not_mem hq hhole
      by_cases hroom : mem.Room s
      · obtain ⟨res, hpush, hholds⟩ := h.table.holds.push_some h.table.sized hroom hmem.grow p
        have hsized : Sized res wordSize := by
          rcases h.table.holds.push_cases h.table.sized hpush with ⟨rfl, -⟩ | ⟨-, hsized⟩
          · exact h.table.sized
          · exact hsized
        have hlen : rman.res.length = ws.length := by rw [h.res, List.length_map]
        obtain ⟨rman', hadd, hres', hheap', halloc'⟩ :
            ∃ rman', Manager.addResource rman fname data (mem.addMem s) =
              some (rman', some rman.nalloc) ∧
              rman'.res = rman.res ++ [some rman.nalloc] ∧
              rman'.heap = Function.update rman.heap rman.nalloc
                (some (newResource fname data ws.length)) ∧
              rman'.nalloc = rman.nalloc + 1 := by
          simp [Manager.addResource, Mem.addMem, hres, hnone, hroom, hlen, newResource]
        rw [h.table.storeResource fname data hhole hres hp hfresh hpush hholds, hadd]
        refine ⟨rman', _, rfl, h.append hp hfresh hholds hsized hres' hheap' halloc', ?_⟩
        rw [Function.update_self]
      · -- both read behind the end of the array
        have hstore : Adding.storeResource s fname data mem = none := by
          by_contra hne
          obtain ⟨⟨s', o⟩, hstore⟩ := Option.ne_none_iff_exists'.1 hne
          exact hroom (h.table.room (by simp [hres]) hstore)
        rw [hstore]
        simp [Manager.addResource, Mem.addMem, hres, hnone, hroom]

end Refines

end Resman.Adding
