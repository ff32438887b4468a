import Resman.DynArr.Stack
import Resman.Lib.ResizingTable

/-!
# What resizing costs

The two counters of an array make a table that grows and shrinks (`Block.step_table`), so the
general account of such tables is one of `dynarr.c`. `amortized`: over any run of calls, with any
answers of `realloc`, pushes and pops make `realloc` move three elements each, and an array never
has room for more than about three times its elements.
-/

namespace Resman.Dynarr

open Lib

variable {s s' : Option DynArr} {da da' : DynArr} {n m sz : Nat} {op : Op} {ops : List Op}

/-- The elements that lie both in the block that `realloc` gets and in the one that it returns. -/
def Op.moved : Option DynArr → Op → Nat
  | some da, .resize elem true => min da.maxElem.toNat elem
  | some da, .push _ true => if da.maxElem ≤ da.nelem then da.maxElem.toNat else 0
  | some da, .pop true =>
    if da.nelem ≠ 0 ∧ da.nelem ≤ da.maxElem.tdiv 3 then (da.maxElem.tdiv 2).toNat else 0
  | _, _ => 0

/-- Twice the number of moves that a call pays for: those for its own elements, when it sets their
number, and three when it changes it by one. -/
def Op.credit : Op → Nat
  | alloc elem _ _ => 2 * elem
  | resize elem _ => 4 * elem
  | push _ _ | pop _ => 6

/-- What a call does to the counters of an array. -/
def Op.table (t : Table) : Op → Table
  | alloc _ _ _ => t
  | resize elem mem => if mem then ⟨elem, elem⟩ else t
  | push item mem => t.push (if item.isSome then 1 else 0) mem
  | pop mem => t.pop mem

theorem Block.step_table (h : Block da n m sz) (hv : Valid (some da) op) (hf : Fits (some da) op) :
    ∃ da', step (some da) op = some (some da') ∧
      Block da' (op.table ⟨n, m⟩).used (op.table ⟨n, m⟩).room sz := by
  cases op with
  | alloc elem szelem mem => exact ⟨da, rfl, h⟩
  | resize elem mem =>
    cases mem with
    | false => exact ⟨da, rfl, h⟩
    | true =>
      obtain ⟨hcount, hbytes⟩ := hf _ rfl
      rw [show da.szelem.toNat = sz by rw [h.szelem]; rfl] at hbytes
      obtain ⟨da', hr, hblock', -⟩ := h.resize hcount hbytes
      exact ⟨da', by simp [step, hr], hblock'⟩
  | push item mem =>
    have hitem : ∀ x ∈ item, x.length = sz := by
      intro x hx
      have hlen := hv x hx
      rw [h.szelem] at hlen
      omega
    have hask := h.asks item mem
    by_cases hfull : n = m
    · rw [if_pos hfull] at hask
      obtain ⟨hcount, hbytes⟩ := hf _ hask
      cases mem with
      | false =>
        have hp := push_refused (reserve_null h hfull) item
        exact ⟨da, by simp [step, hp], by simpa [Op.table, Table.push, hfull] using h⟩
      | true =>
        cases item with
        | none =>
          obtain ⟨da', hr, hblock', -⟩ := h.reserve hfull hcount hbytes
          refine ⟨da', by simp [step, push_null hr], ?_⟩
          rw [Op.table, Table.push, if_pos hfull]
          exact hblock'
        | some x =>
          obtain ⟨da', hp, hblock', -⟩ := h.push_grow hfull hcount hbytes (hitem x rfl)
          refine ⟨da', by simp [step, hp], ?_⟩
          rw [Op.table, Table.push, if_pos hfull]
          exact hblock'
    · have hroom : n < m := lt_of_le_of_ne h.le hfull
      cases item with
      | none =>
        exact ⟨da, by simp [step, push_null (reserve_room h hroom)],
          by simpa [Op.table, Table.push, hfull] using h⟩
      | some x =>
        obtain ⟨da', hp, hblock', -⟩ := h.push_room hroom (hitem x rfl) mem
        exact ⟨da', by simp [step, hp], by simpa [Op.table, Table.push, hfull] using hblock'⟩
  | pop mem =>
    cases n with
    | zero => exact ⟨da, by simp [step, pop_empty h], by simpa [Op.table, Table.pop] using h⟩
    | succ n =>
      by_cases hfew : n + 1 ≤ m / 3
      · cases mem with
        | false =>
          exact ⟨da, by simp [step, pop_refused h hfew],
            by simpa [Op.table, Table.pop, hfew] using h⟩
        | true =>
          obtain ⟨da', hp, hblock', -⟩ := h.pop_shrink hfew
          exact ⟨da', by simp [step, hp], by simpa [Op.table, Table.pop, hfew] using hblock'⟩
      · obtain ⟨da', hp, hblock', -⟩ := h.pop_room (Nat.lt_of_not_le hfew) mem
        exact ⟨da', by simp [step, hp], by simpa [Op.table, Table.pop, hfew] using hblock'⟩

/-- The moves of a call are those of the table. -/
theorem Block.moved_eq (h : Block da n m sz) : op.moved (some da) =
    match op with
    | .alloc _ _ _ => 0
    | .resize elem mem => if mem then min m elem else 0
    | .push _ mem => Table.pushMoves ⟨n, m⟩ mem
    | .pop mem => Table.popMoves ⟨n, m⟩ mem := by
  have hle := h.le
  have hnelem := h.nelem
  have hmax := h.maxElem
  cases op with
  | alloc => rfl
  | resize elem mem =>
    cases mem with
    | false => rfl
    | true =>
      rw [Op.moved, hmax]
      rfl
  | push item mem =>
    cases mem with
    | false => simp [Op.moved, Table.pushMoves]
    | true =>
      have hiff : da.maxElem ≤ da.nelem ↔ n = m := by omega
      simp only [Op.moved, hiff]
      simp [Table.pushMoves, hmax]
  | pop mem =>
    cases mem with
    | false => simp [Op.moved, Table.popMoves]
    | true =>
      have hthird : da.maxElem.tdiv 3 = ((m / 3 : Nat) : Int) := h.tdiv 3
      have hhalf : da.maxElem.tdiv 2 = ((m / 2 : Nat) : Int) := h.tdiv 2
      have hiff : da.nelem ≠ 0 ∧ da.nelem ≤ da.maxElem.tdiv 3 ↔ n ≠ 0 ∧ n ≤ m / 3 := by omega
      simp only [Op.moved, hiff, hhalf, Int.toNat_natCast]
      simp [Table.popMoves]

/-! ## Runs -/

/-- The potential of the table that the counters make. -/
def potential (s : Option DynArr) : Nat :=
  (s.map fun da => Table.potential ⟨da.nelem.toNat, da.maxElem.toNat⟩).getD 0

/-- There is no array, or one with its block and not much more room than it needs. -/
def Compact (s : Option DynArr) : Prop :=
  ∀ da ∈ s, ∃ n m sz, Block da n m sz ∧ Table.Dense ⟨n, m⟩

theorem Block.potential_eq (h : Block da n m sz) :
    potential (some da) = Table.potential ⟨n, m⟩ := by
  rw [potential, Option.map_some, Option.getD_some, h.nelem, h.maxElem]
  rfl

theorem Op.dense (op : Op) {t : Table} (h : t.Dense) : (op.table t).Dense := by
  cases op with
  | alloc => exact h
  | resize elem mem =>
    cases mem with
    | false => exact h
    | true => exact Table.full elem
  | push item mem =>
    apply Table.Dense.push h
    split <;> omega
  | pop mem => exact Table.Dense.pop h

/-- A call pays for its moves. -/
theorem Compact.step (h : Compact s) (hin : InRange s op) (hs : step s op = some s') :
    Compact s' ∧ 2 * op.moved s + potential s' ≤ potential s + op.credit := by
  cases s with
  | none =>
    cases op with
    | alloc elem szelem mem =>
      obtain ⟨hcount, hbytes⟩ := hin.2 _ rfl
      cases mem with
      | false =>
        obtain rfl := Option.some.inj hs
        exact ⟨h, Nat.zero_le _⟩
      | true =>
        obtain ⟨da, ha, hblock⟩ := Block.alloc hcount hbytes
        obtain rfl := Option.some.inj (hs.symm.trans ha)
        refine ⟨fun da' hda => ?_, ?_⟩
        · obtain rfl := Option.some.inj hda
          exact ⟨elem, elem, szelem, hblock, Table.full elem⟩
        · rw [hblock.potential_eq, Table.potential_full]
          simp [Op.moved, Op.credit, potential]
    | resize | push | pop =>
      obtain rfl := Option.some.inj hs
      exact ⟨h, Nat.zero_le _⟩
  | some da =>
    obtain ⟨n, m, sz, hblock, hdense⟩ := h da rfl
    obtain ⟨da', hs', hblock'⟩ := hblock.step_table hin.1 hin.2
    obtain rfl := Option.some.inj (hs.symm.trans hs')
    refine ⟨fun da'' hda => ?_, ?_⟩
    · obtain rfl := Option.some.inj hda
      exact ⟨_, _, sz, hblock', op.dense hdense⟩
    · rw [hblock.potential_eq, hblock'.potential_eq, hblock.moved_eq]
      cases op with
      | alloc =>
        simp only [Op.table, Op.credit]
        omega
      | resize elem mem =>
        cases mem with
        | false =>
          simp only [Op.table, Op.credit, Bool.false_eq_true, if_false]
          omega
        | true =>
          simp only [Op.table, Op.credit, if_true, Table.potential_full]
          omega
      | push item mem =>
        apply Table.push_paid
        split <;> omega
      | pop mem => exact Table.pop_paid

/-- **Resizing costs a constant for each element.** Over any run of calls, whatever `malloc` and
`realloc` answer, the elements that `realloc` moves are paid for: three for every push and every
pop, one for each element of the array that is allocated, and two for each element of an array that
is resized. And an array never has room for more than two over three times its elements. -/
theorem amortized (hc : Along step InRange none ops) (h : exec step none ops = some s) :
    2 * total step (fun s op => op.moved s) none ops ≤ (ops.map Op.credit).sum ∧
      ∀ da ∈ s, da.nelem ≤ da.maxElem ∧ da.maxElem ≤ 3 * da.nelem + 2 := by
  have hcompact : Compact none := fun _ hda => by cases hda
  constructor
  · have hstep : ∀ s op s', Compact s → InRange s op → step s op = some s' →
        Compact s' ∧ 2 * Op.moved s op + potential s' ≤ potential s + op.credit :=
          fun _ _ _ hI hin hs =>
      hI.step hin hs
    have hpaid := total_add_le hstep hcompact hc h
    rw [total_mul, total_of_exec h] at hpaid
    exact (Nat.le_add_right _ _).trans (hpaid.trans (Nat.zero_add _).le)
  · intro da hda
    obtain ⟨n, m, sz, hblock, hdense⟩ := exec_invariant (I := Compact) hcompact
      (fun _ _ _ hI hin hs => (hI.step hin hs).1) hc h da hda
    have hle := hdense.le
    have hroom := hdense.dense
    simp only at hle hroom
    rw [hblock.nelem, hblock.maxElem]
    omega

/-- An array grows to four elements and shrinks to none. -/
theorem amortized_upAndDown :
    2 * total step (fun s op => op.moved s) none (stackOps upAndDown) ≤
      ((stackOps upAndDown).map Op.credit).sum ∧
      ∀ da ∈ (exec step none (stackOps upAndDown)).get (by decide +kernel),
        da.nelem ≤ da.maxElem ∧ da.maxElem ≤ 3 * da.nelem + 2 :=
  amortized (by decide +kernel) (Option.some_get _).symm

end Resman.Dynarr
