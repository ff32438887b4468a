import Resman.DynArr.Block
import Resman.Lib.Run

/-!
# The sizes that an array asks for

A run of calls on one array, with any answers of `malloc` and `realloc`. A call that needs a block
multiplies a number of elements with their size, in `int`. `Fits` says that the product is an `int`;
`enough_iff` says how far the code gets by with less: a product that wraps around to a negative
number is refused as a `size_t`, unless adding the size of the descriptor makes it a small number
again.
-/

namespace Resman.Dynarr

open Lib

/-- A call of a function of `dynarr.h`, with whether memory is found. -/
inductive Op where
  | alloc (elem szelem : Nat) (mem : Bool)
  | resize (elem : Nat) (mem : Bool)
  | push (item : Option (List Byte)) (mem : Bool)
  | pop (mem : Bool)
  deriving DecidableEq, Repr

/-- The pointer to the array is null before the array is allocated, and no function is called on a
null pointer. When `dynarr_resize` returns null, the old array is still there. -/
def step : Option DynArr → Op → Option (Option DynArr)
  | none, .alloc elem szelem mem => dynarrAlloc elem szelem mem
  | some da, .resize elem mem => (dynarrResize da elem mem).map fun ret => some (ret.getD da)
  | some da, .push item mem => (dynarrPush da item mem).map some
  | some da, .pop mem => (dynarrPop da mem).map fun r => some r.1
  | s, _ => some s

/-! ## What a call asks for -/

/-- The number of elements that a block is asked for, and their size; a pop asks
for less than there is. -/
def Op.asks : Option DynArr → Op → Option (Nat × Nat)
  | none, .alloc elem szelem _ => some (elem, szelem)
  | some da, .resize elem _ => some (elem, da.szelem.toNat)
  | some da, .push _ _ =>
    if da.maxElem ≤ da.nelem then some (capacity da.maxElem.toNat, da.szelem.toNat) else none
  | _, _ => none

def Op.mem : Op → Bool
  | alloc _ _ mem | resize _ mem | push _ mem | pop mem => mem

/-- What a caller promises: counts are not negative, an element has at least one byte, both are
`int` values, and an item is one element. -/
def Valid : Option DynArr → Op → Prop
  | none, .alloc elem szelem _ => elem < 2 ^ 31 ∧ 1 ≤ szelem ∧ szelem < 2 ^ 31
  | some _, .resize elem _ => elem < 2 ^ 31
  | some da, .push item _ => ∀ x ∈ item, (x.length : Int) = da.szelem
  | _, _ => True

instance : ∀ s op, Decidable (Valid s op)
  | none, .alloc elem szelem _ =>
    inferInstanceAs (Decidable (elem < 2 ^ 31 ∧ 1 ≤ szelem ∧ szelem < 2 ^ 31))
  | some _, .resize elem _ => inferInstanceAs (Decidable (elem < 2 ^ 31))
  | some da, .push item _ =>
    Option.decidableForallMem (p := fun x : List Byte => (x.length : Int) = da.szelem) item
  | none, .resize .. | none, .push .. | none, .pop _ | some _, .alloc .. | some _, .pop _ =>
    isTrue trivial

/-- The capacity and the size in bytes are `int` values. -/
def Fits (s : Option DynArr) (op : Op) : Prop := ∀ r ∈ op.asks s, r.1 < 2 ^ 31 ∧ r.1 * r.2 < 2 ^ 31

instance (s : Option DynArr) (op : Op) : Decidable (Fits s op) :=
  Option.decidableForallMem (p := fun r : Nat × Nat => r.1 < 2 ^ 31 ∧ r.1 * r.2 < 2 ^ 31)
    (op.asks s)

/-! ## The blocks of a run -/

/-- There is no array, or one with its block. -/
def Blocked (s : Option DynArr) : Prop := ∀ da ∈ s, ∃ n m sz, 1 ≤ sz ∧ sz < 2 ^ 31 ∧ Block da n m sz

variable {s s' : Option DynArr} {da da' : DynArr} {n m sz : Nat} {op : Op} {ops : List Op}

theorem Block.asks (h : Block da n m sz) (item : Option (List Byte)) (mem : Bool) :
    (Op.push item mem).asks (some da) = if n = m then some (capacity m, sz) else none := by
  have hle := h.le
  have hiff : da.maxElem ≤ da.nelem ↔ n = m := by
    rw [h.maxElem, h.nelem]
    omega
  rw [Op.asks, h.szelem, Int.toNat_natCast, h.maxElem, Int.toNat_natCast, ← h.maxElem]
  simp only [hiff]

theorem Block.blocked (h : Block da n m sz) (hpos : 1 ≤ sz) (hlt : sz < 2 ^ 31) :
    Blocked (some da) := by
  rintro da' hda
  obtain rfl := Option.some.inj hda
  exact ⟨n, m, sz, hpos, hlt, h⟩

theorem blocked_none : Blocked none := fun _ h => by cases h

/-- A push that grows the array, or finds room. -/
theorem Block.step_push (h : Block da n m sz) (hpos : 1 ≤ sz) (hlt : sz < 2 ^ 31)
    {item : Option (List Byte)} {mem : Bool} (hitem : ∀ x ∈ item, x.length = sz)
    (hf : Fits (some da) (.push item mem)) :
    ∃ s', step (some da) (.push item mem) = some s' ∧ Blocked s' := by
  have hask := h.asks item mem
  by_cases hfull : n = m
  · rw [if_pos hfull] at hask
    obtain ⟨hcount, hbytes⟩ := hf _ hask
    cases mem with
    | false =>
      have hp := push_refused (reserve_null h hfull) item
      exact ⟨some da, by simp [step, hp], h.blocked hpos hlt⟩
    | true =>
      cases item with
      | none =>
        obtain ⟨da', hr, hblock', -⟩ := h.reserve hfull hcount hbytes
        exact ⟨some da', by simp [step, push_null hr], hblock'.blocked hpos hlt⟩
      | some x =>
        obtain ⟨da', hp, hblock', -⟩ := h.push_grow hfull hcount hbytes (hitem x rfl)
        exact ⟨some da', by simp [step, hp], hblock'.blocked hpos hlt⟩
  · have hroom : n < m := lt_of_le_of_ne h.le hfull
    cases item with
    | none => exact ⟨some da, by simp [step, push_null (reserve_room h hroom)], h.blocked hpos hlt⟩
    | some x =>
      obtain ⟨da', hp, hblock', -⟩ := h.push_room hroom (hitem x rfl) mem
      exact ⟨some da', by simp [step, hp], hblock'.blocked hpos hlt⟩

/-- A pop that finds nothing, shrinks the array, or leaves its block. -/
theorem Block.step_pop (h : Block da n m sz) (hpos : 1 ≤ sz) (hlt : sz < 2 ^ 31) (mem : Bool) :
    ∃ s', step (some da) (.pop mem) = some s' ∧ Blocked s' := by
  cases n with
  | zero => exact ⟨some da, by simp [step, pop_empty h], h.blocked hpos hlt⟩
  | succ n =>
    by_cases hfew : n + 1 ≤ m / 3
    · cases mem with
      | false => exact ⟨some da, by simp [step, pop_refused h hfew], h.blocked hpos hlt⟩
      | true =>
        obtain ⟨da', hp, hblock', -⟩ := h.pop_shrink hfew
        exact ⟨some da', by simp [step, hp], hblock'.blocked hpos hlt⟩
    · obtain ⟨da', hp, hblock', -⟩ := h.pop_room (Nat.lt_of_not_le hfew) mem
      exact ⟨some da', by simp [step, hp], hblock'.blocked hpos hlt⟩

/-- A call whose sizes are `int` values is defined, and there is the block for it. -/
theorem Blocked.step (h : Blocked s) (hv : Valid s op) (hf : Fits s op) :
    ∃ s', step s op = some s' ∧ Blocked s' := by
  cases s with
  | none =>
    cases op with
    | alloc elem szelem mem =>
      obtain ⟨hcount, hbytes⟩ := hf _ rfl
      obtain ⟨-, hpos, hlt⟩ := hv
      cases mem with
      | false => exact ⟨none, rfl, blocked_none⟩
      | true =>
        obtain ⟨da, ha, hblock⟩ := Block.alloc hcount hbytes
        exact ⟨some da, ha, hblock.blocked hpos hlt⟩
    | resize | push | pop => exact ⟨none, rfl, blocked_none⟩
  | some da =>
    obtain ⟨n, m, sz, hpos, hlt, hblock⟩ := h da rfl
    have hsame : Blocked (some da) := h
    cases op with
    | alloc => exact ⟨_, rfl, hsame⟩
    | resize elem mem =>
      obtain ⟨hcount, hbytes⟩ := hf _ rfl
      cases mem with
      | false => exact ⟨_, rfl, hsame⟩
      | true =>
        rw [show da.szelem.toNat = sz by rw [hblock.szelem]; rfl] at hbytes
        obtain ⟨da', hr, hblock', -⟩ := hblock.resize hcount hbytes
        exact ⟨some da', by simp [Dynarr.step, hr], hblock'.blocked hpos hlt⟩
    | push item mem =>
      refine hblock.step_push hpos hlt (fun x hx => ?_) hf
      have hlen := hv x hx
      rw [hblock.szelem] at hlen
      omega
    | pop mem => exact hblock.step_pop hpos hlt mem

/-! ## Products that wrap around -/

/-- Memory is found exactly when the request can be a size of an object. -/
def Granted (s : Option DynArr) (op : Op) : Prop :=
  ∀ r ∈ op.asks s, op.mem = decide (request (wrapInt ((r.1 * r.2 : Nat) : Int)) < 2 ^ 63)

/-- The size in bytes is an `int`, or it wraps around to a number that is refused. -/
def NoWrap (s : Option DynArr) (op : Op) : Prop :=
  ∀ r ∈ op.asks s, r.1 * r.2 < 2 ^ 31 ∨ wrapInt ((r.1 * r.2 : Nat) : Int) < -descSize

/-- The block has room for `max_elem` elements, and no more of them are in use. -/
def Enough (s : Option DynArr) : Prop :=
  ∀ da ∈ s, da.maxElem * da.szelem ≤ da.buf.length ∧ da.nelem ≤ da.maxElem

/-- An array is allocated, resized and pushed to, as its callers may, with the
memory that there is. -/
def Grows (s : Option DynArr) (op : Op) : Prop := Valid s op ∧ Granted s op ∧ ∀ mem, op ≠ .pop mem

instance (s : Option DynArr) (op : Op) : Decidable (NoWrap s op) :=
  Option.decidableForallMem
    (p := fun r : Nat × Nat => r.1 * r.2 < 2 ^ 31 ∨ wrapInt ((r.1 * r.2 : Nat) : Int) < -descSize)
    (op.asks s)

theorem request_lt_iff {size : Int} (hle : -2 ^ 31 ≤ size) (hlt : size < 2 ^ 31) :
    request size < 2 ^ 63 ↔ ¬ size < -descSize := by
  unfold request descSize
  omega

theorem Granted.mem_iff (h : Granted s op) {r : Nat × Nat} (hr : r ∈ op.asks s) :
    op.mem = true ↔ ¬ wrapInt ((r.1 * r.2 : Nat) : Int) < -descSize := by
  rw [h r hr, decide_eq_true_iff, request_lt_iff (le_wrapInt _) (wrapInt_lt _)]

/-- A block for a product that has wrapped around is too small. -/
theorem length_of_wrapped {old buf : List (Option Byte)} {p : Nat} (hp : 2 ^ 31 ≤ p)
    (h : newBuf old (wrapInt p) true = some (some buf)) : buf.length < p := by
  obtain ⟨k, hk, rfl⟩ := newBuf_some (le_wrapInt _) (wrapInt_lt _) h
  have hlt := wrapInt_lt p
  rw [length_newBuf]
  omega

theorem Blocked.enough (h : Blocked s) : Enough s := by
  intro da hda
  obtain ⟨n, m, sz, -, -, hblock⟩ := h da hda
  rw [hblock.maxElem, hblock.szelem, hblock.length, hblock.nelem, ← Int.natCast_mul]
  exact ⟨le_rfl, Int.ofNat_le.2 hblock.le⟩

/-- The size of an element is not zero. -/
theorem Blocked.asks_pos (h : Blocked s) (hv : Valid s op) {r : Nat × Nat} (hr : r ∈ op.asks s) :
    1 ≤ r.2 := by
  cases s with
  | none =>
    cases op with
    | alloc elem szelem mem =>
      obtain rfl : (elem, szelem) = r := Option.some.inj hr
      exact hv.2.1
    | resize | push | pop => cases hr
  | some da =>
    obtain ⟨n, m, sz, hpos, -, hblock⟩ := h da rfl
    cases op with
    | alloc | pop => cases hr
    | resize elem mem =>
      obtain rfl : (elem, da.szelem.toNat) = r := Option.some.inj hr
      rwa [hblock.szelem]
    | push item mem =>
      obtain ⟨-, heq⟩ := Option.ite_none_right_eq_some.1 hr
      rw [← Option.some.inj heq]
      show 1 ≤ da.szelem.toNat
      rwa [hblock.szelem]

/-- What is refused leaves things as they are. -/
theorem step_refused (h : Blocked s) {r : Nat × Nat} (hr : r ∈ op.asks s) (hmem : op.mem = false) :
    step s op = some s := by
  cases s with
  | none =>
    cases op with
    | alloc elem szelem mem =>
      obtain rfl : mem = false := hmem
      rfl
    | resize | push | pop => cases hr
  | some da =>
    cases op with
    | alloc | pop => cases hr
    | resize elem mem =>
      obtain rfl : mem = false := hmem
      rfl
    | push item mem =>
      obtain rfl : mem = false := hmem
      obtain ⟨n, m, sz, -, -, hblock⟩ := h da rfl
      have hfull : n = m := by
        by_contra hne
        have hask := hblock.asks item false
        rw [if_neg hne] at hask
        rw [hask] at hr
        cases hr
      simp [step, push_refused (reserve_null hblock hfull) item]

/-- A wrapped product that is not refused: the descriptor does not fit, or the elements do not. -/
theorem step_wrapped (h : Blocked s) (hv : Valid s op) {r : Nat × Nat} (hr : r ∈ op.asks s)
    (hmem : op.mem = true) (hp : 2 ^ 31 ≤ r.1 * r.2) (hs : step s op = some s') : ¬ Enough s' := by
  cases s with
  | none =>
    cases op with
    | alloc elem szelem mem =>
      obtain rfl : mem = true := hmem
      obtain rfl : (elem, szelem) = r := Option.some.inj hr
      simp only [step, dynarrAlloc, Option.bind_eq_bind, Option.bind_eq_some_iff] at hs
      obtain ⟨block, hnew, hs⟩ := hs
      cases block with
      | none => exact absurd hnew newBuf_ne_none
      | some buf =>
        obtain rfl := Option.some.inj hs
        have hp : 2 ^ 31 ≤ elem * szelem := hp
        rw [← Int.natCast_mul] at hnew
        have hlen := length_of_wrapped hp hnew
        intro henough
        have hfit : (elem : Int) * szelem ≤ buf.length := (henough _ rfl).1
        rw [← Int.natCast_mul] at hfit
        omega
    | resize | push | pop => cases hr
  | some da =>
    obtain ⟨n, m, sz, hpos, hlt, hblock⟩ := h da rfl
    cases op with
    | alloc | pop => cases hr
    | resize elem mem =>
      obtain rfl : mem = true := hmem
      obtain rfl : (elem, da.szelem.toNat) = r := Option.some.inj hr
      have hsz : da.szelem.toNat = sz := by rw [hblock.szelem]; rfl
      have hp : 2 ^ 31 ≤ elem * sz := hsz ▸ hp
      simp only [step, dynarrResize, Option.bind_eq_bind, Option.map_eq_some_iff,
        Option.bind_eq_some_iff] at hs
      obtain ⟨ret, ⟨block, hnew, hs⟩, rfl⟩ := hs
      cases block with
      | none => exact absurd hnew newBuf_ne_none
      | some buf =>
        obtain rfl := Option.some.inj hs
        rw [hblock.szelem, Int.mul_comm, ← Int.natCast_mul] at hnew
        have hlen := length_of_wrapped hp hnew
        intro henough
        have hfit : (elem : Int) * da.szelem ≤ buf.length := (henough _ rfl).1
        rw [hblock.szelem, ← Int.natCast_mul] at hfit
        omega
    | push item mem =>
      obtain rfl : mem = true := hmem
      have hask := hblock.asks item true
      by_cases hfull : n = m
      · rw [if_pos hfull] at hask
        obtain rfl := Option.some.inj (hask.symm.trans hr)
        have hnone := push_undefined (reserve_overflow hblock hfull hlt hp) item
        simp [step, hnone] at hs
      · rw [if_neg hfull] at hask
        rw [hask] at hr
        cases hr

/-- **Sizes near the limit**: while an array is allocated, resized and pushed to, every call is
defined and leaves a block for its `max_elem` elements, exactly as long as no product of a number of
elements and their size wraps around to a number that `malloc` or `realloc` takes for a request. -/
theorem enough_iff (h : Along step Grows none ops) :
    (∀ pre, pre <+: ops → ∃ s, exec step none pre = some s ∧ Enough s) ↔
      Along step NoWrap none ops := by
  refine forall_prefix_total_iff_along (I := Blocked) (fun _ => Blocked.enough) ?_ ?_ blocked_none h
  · rintro s op hI ⟨hv, hgrant, -⟩ hC
    by_cases hrefused : ∃ r ∈ op.asks s, wrapInt ((r.1 * r.2 : Nat) : Int) < -descSize
    · obtain ⟨r, hr, hneg⟩ := hrefused
      have hmem : op.mem = false := by
        rw [← Bool.not_eq_true, hgrant.mem_iff hr]
        exact not_not.2 hneg
      exact ⟨s, step_refused hI hr hmem, hI⟩
    · refine hI.step hv fun r hr => ?_
      have hbytes := (hC r hr).resolve_right fun hneg => hrefused ⟨r, hr, hneg⟩
      exact ⟨lt_of_le_of_lt (Nat.le_mul_of_pos_right _ (hI.asks_pos hv hr)) hbytes, hbytes⟩
  · rintro s op s' hI ⟨hv, hgrant, -⟩ hC hs
    obtain ⟨r, hr, hwrap⟩ : ∃ r ∈ op.asks s,
        ¬ (r.1 * r.2 < 2 ^ 31 ∨ wrapInt ((r.1 * r.2 : Nat) : Int) < -descSize) := by
      simpa only [NoWrap, not_forall, exists_prop] using hC
    obtain ⟨hbytes, hneg⟩ := not_or.1 hwrap
    exact step_wrapped hI hv hr ((hgrant.mem_iff hr).2 hneg) (Nat.le_of_not_lt hbytes) hs

/-- Three elements of four bytes are pushed, with the growing that this takes. -/
def pushesThree : List Op :=
  [.alloc 0 4 true, .push (some [1, 2, 3, 4]) true, .push (some [5, 6, 7, 8]) true,
    .push (some [9, 9, 9, 9]) true]

instance (s : Option DynArr) (op : Op) : Decidable (Granted s op) :=
  Option.decidableForallMem (p := fun r : Nat × Nat =>
    op.mem = decide (request (wrapInt ((r.1 * r.2 : Nat) : Int)) < 2 ^ 63)) (op.asks s)

instance (s : Option DynArr) : ∀ op, Decidable (Grows s op)
  | .pop mem => isFalse fun h => h.2.2 mem rfl
  | .alloc elem szelem mem =>
    decidable_of_iff (Valid s (.alloc elem szelem mem) ∧ Granted s (.alloc elem szelem mem))
      ⟨fun h => ⟨h.1, h.2, nofun⟩, fun h => ⟨h.1, h.2.1⟩⟩
  | .resize elem mem => decidable_of_iff (Valid s (.resize elem mem) ∧ Granted s (.resize elem mem))
      ⟨fun h => ⟨h.1, h.2, nofun⟩, fun h => ⟨h.1, h.2.1⟩⟩
  | .push item mem => decidable_of_iff (Valid s (.push item mem) ∧ Granted s (.push item mem))
      ⟨fun h => ⟨h.1, h.2, nofun⟩, fun h => ⟨h.1, h.2.1⟩⟩

theorem enough_iff_pushesThree :
    (∀ pre, pre <+: pushesThree → ∃ s, exec step none pre = some s ∧ Enough s) ↔
      Along step NoWrap none pushesThree :=
  enough_iff (by decide +kernel)

/-- Two to the power of 32 bytes are asked for, and none are allocated. -/
theorem not_enough_alloc :
    ¬ ∀ ops, Along step Grows none ops → ∀ pre, pre <+: ops → ∃ s, exec step none pre = some s ∧
      Enough s := by
  intro hall
  obtain ⟨s, hs, henough⟩ := hall [.alloc 65536 65536 true] (by decide +kernel) _ List.prefix_rfl
  have hrun : exec step none [.alloc 65536 65536 true] =
      some (some ⟨65536, 65536, 65536, 0, []⟩) := by
    decide +kernel
  obtain rfl := Option.some.inj (hrun.symm.trans hs)
  have hfit := (henough _ rfl).1
  exact absurd hfit (by decide)

end Resman.Dynarr
