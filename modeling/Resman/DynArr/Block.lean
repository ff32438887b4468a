import Resman.DynArr.Contents

/-!
# The block of an array

`Block da n m sz`: the array has `n` of at most `m` elements of `sz` bytes, its block is exactly as
large as that, and all sizes are `int` values. Each function of `dynarr.c` has a lemma that says
what it makes of such an array, of its `n` elements (`contents`), and of the block; they cover the
cases of the capacity and of the answer of `realloc`.
-/

namespace Resman.Dynarr

variable {da da' : DynArr} {n m c sz k : Nat} {x : List Byte} {mem : Bool}

/-- The bytes of the elements. -/
def DynArr.contents (da : DynArr) : List (Option Byte) :=
  da.buf.take (da.nelem.toNat * da.szelem.toNat)

structure Block (da : DynArr) (n m sz : Nat) : Prop where
  nelem : da.nelem = n
  maxElem : da.maxElem = m
  szelem : da.szelem = sz
  bufsz : da.bufsz = (m * sz : Nat)
  length : da.buf.length = m * sz
  le : n ≤ m
  count : m < 2 ^ 31
  bytes : m * sz < 2 ^ 31

theorem Block.contents_eq (h : Block da n m sz) : da.contents = da.buf.take (n * sz) := by
  rw [DynArr.contents, h.nelem, h.szelem]
  rfl

/-! ## Requests of memory -/

/-- A block for a size that is an `int`. -/
theorem newBuf_of_lt {old : List (Option Byte)} (hk : k < 2 ^ 31) :
    newBuf old k true = some (some (old.take k ++ List.replicate (k - old.length) none)) := by
  have hreq : request k = k + descSize := by
    unfold request descSize
    omega
  have hlow : descSize ≤ request k ∧ request k < 2 ^ 63 := by
    rw [hreq]
    unfold descSize
    omega
  rw [newBuf, if_pos rfl, if_pos hlow, hreq, Nat.add_sub_cancel]

/-- There is no block for a negative size that the descriptor fits in. -/
theorem newBuf_of_neg {old : List (Option Byte)} {size : Int} (hle : -2 ^ 31 ≤ size)
    (hneg : size < 0) :
    newBuf old size true = none := by
  have hout : ¬ (descSize ≤ request size ∧ request size < 2 ^ 63) := by
    unfold request descSize
    omega
  rw [newBuf, if_pos rfl, if_neg hout]

theorem length_newBuf {old : List (Option Byte)} :
    (old.take k ++ List.replicate (k - old.length) none).length = k := by
  simp only [List.length_append, List.length_take, List.length_replicate]
  omega

theorem take_newBuf {old : List (Option Byte)} {j : Nat} (hj : j ≤ k) (hold : j ≤ old.length) :
    (old.take k ++ List.replicate (k - old.length) none).take j = old.take j := by
  rw [List.take_append_of_le_length (by rw [List.length_take]; omega), List.take_take,
    Nat.min_eq_left hj]

/-- The size in bytes of `c` elements, when it is an `int`. -/
theorem wrapInt_mul (h : c * sz < 2 ^ 31) : wrapInt ((sz : Int) * c) = ((c * sz : Nat) : Int) := by
  rw [← Int.natCast_mul, Nat.mul_comm, wrapInt_of_lt h]

/-- The size in bytes of `c` elements, when it is one of the first sizes that are no `int`. -/
theorem wrapInt_mul_neg (h : 2 ^ 31 ≤ c * sz) (hlt : c * sz < 2 ^ 32) :
    wrapInt ((sz : Int) * c) = ((c * sz : Nat) : Int) - 2 ^ 32 := by
  rw [← Int.natCast_mul, Nat.mul_comm, wrapInt, Int.bmod, Int.emod_eq_of_lt (by omega) (by omega)]
  split
  · omega
  · rfl

/-! ## Allocating and resizing -/

theorem Block.alloc (hc : c < 2 ^ 31) (hb : c * sz < 2 ^ 31) :
    ∃ da, dynarrAlloc c sz true = some (some da) ∧ Block da c c sz := by
  have hsize : wrapInt ((c : Int) * sz) = ((c * sz : Nat) : Int) := by
    rw [Int.mul_comm, wrapInt_mul hb]
  refine ⟨⟨c, sz, c, ((c * sz : Nat) : Int), _⟩, by
    rw [dynarrAlloc, hsize, newBuf_of_lt hb]
    rfl, rfl, rfl, rfl, rfl, length_newBuf, le_rfl, hc, hb⟩

/-- The bytes are kept as far as both blocks go. -/
theorem Block.resize (h : Block da n m sz) (hc : c < 2 ^ 31) (hb : c * sz < 2 ^ 31) :
    ∃ da', dynarrResize da c true = some (some da') ∧ Block da' c c sz ∧
      ∀ j ≤ c * sz, j ≤ m * sz → da'.buf.take j = da.buf.take j := by
  refine ⟨{ da with nelem := c, maxElem := c, bufsz := ((c * sz : Nat) : Int), buf := _ }, by
    rw [dynarrResize, h.szelem, wrapInt_mul hb, newBuf_of_lt hb]
    rfl, ⟨rfl, rfl, h.szelem, rfl, length_newBuf, le_rfl, hc, hb⟩, fun j hj hjm => ?_⟩
  exact take_newBuf hj (h.length ▸ hjm)

theorem dynarrResize_false (da : DynArr) (elem : Int) :
    dynarrResize da elem false = some none := rfl

/-! ## Room for one more -/

/-- The capacity that a push asks for when the array is full. -/
def capacity (m : Nat) : Nat := if m = 0 then 1 else 2 * m

theorem lt_capacity (m : Nat) : m < capacity m := by
  unfold capacity
  split <;> omega

theorem newCapacity_eq (h : da.maxElem = m) (hm : capacity m < 2 ^ 31) :
    (if da.maxElem ≠ 0 then wrapInt (da.maxElem * 2) else 1) = ((capacity m : Nat) : Int) := by
  unfold capacity at hm ⊢
  rw [h]
  by_cases hz : m = 0
  · rw [if_neg (by omega), if_pos hz]
    rfl
  · rw [if_neg hz] at hm
    rw [if_pos (by omega), if_neg hz, ← wrapInt_of_lt hm]
    congr 1
    omega

/-- The capacity may wrap around, but then its size does as well. -/
theorem wrapInt_mul_newCapacity (h : da.maxElem = m) :
    wrapInt ((sz : Int) * if da.maxElem ≠ 0 then wrapInt (da.maxElem * 2) else 1) =
      wrapInt ((sz : Int) * capacity m) := by
  unfold capacity
  rw [h]
  by_cases hz : m = 0
  · rw [if_neg (by omega), if_pos hz]
    rfl
  · rw [if_pos (by omega), if_neg hz, wrapInt_mul_wrapInt]
    congr 2
    omega

theorem reserve_room (h : Block da n m sz) (hlt : n < m) :
    dynarrReserve da mem = some (some da) := by
  have hle := h.nelem
  have hmax := h.maxElem
  exact if_neg (by omega)

theorem reserve_null (h : Block da n m sz) (hfull : n = m) :
    dynarrReserve da false = some none := by
  have hle := h.nelem
  have hmax := h.maxElem
  exact if_pos (by omega)

/-- The array grows, and its elements are kept. -/
theorem Block.reserve (h : Block da n m sz) (hfull : n = m) (hc : capacity m < 2 ^ 31)
    (hb : capacity m * sz < 2 ^ 31) :
    ∃ da', dynarrReserve da true = some (some da') ∧ Block da' n (capacity m) sz ∧
      da'.contents = da.contents := by
  have hle := h.nelem
  have hmax := h.maxElem
  obtain ⟨da', hres, hblock, hkeep⟩ := h.resize hc hb
  have hm := lt_capacity m
  have hnew : Block { da' with nelem := da.nelem } n (capacity m) sz :=
    { hblock with nelem := h.nelem, le := by omega }
  refine ⟨_, ?_, hnew, ?_⟩
  · have hpos : da.maxElem ≤ da.nelem := by omega
    simp only [dynarrReserve, if_pos hpos, newCapacity_eq h.maxElem hc, hres]
    rfl
  · have hsize : n * sz ≤ m * sz := Nat.mul_le_mul_right sz h.le
    rw [hnew.contents_eq, h.contents_eq]
    exact hkeep _ (Nat.mul_le_mul_right sz (by omega)) hsize

/-- No block has the size that a wrapped product asks for. -/
theorem reserve_overflow (h : Block da n m sz) (hfull : n = m) (hsz : sz < 2 ^ 31)
    (hb : 2 ^ 31 ≤ capacity m * sz) : dynarrReserve da true = none := by
  have hle := h.nelem
  have hmax := h.maxElem
  have hpos : da.maxElem ≤ da.nelem := by omega
  have hlt : capacity m * sz < 2 ^ 32 := by
    have hm := h.bytes
    unfold capacity
    split
    · omega
    · rw [Nat.mul_assoc]
      omega
  simp only [dynarrReserve, if_pos hpos, dynarrResize, h.szelem, wrapInt_mul_newCapacity h.maxElem,
    wrapInt_mul_neg hb hlt, newBuf_of_neg
      (show -2 ^ 31 ≤ ((capacity m * sz : Nat) : Int) - 2 ^ 32 by omega) (by omega)]
  rfl

/-! ## Pushing -/

/-- An element is copied behind the others. -/
theorem Block.append (h : Block da n m sz) (hlt : n < m) (hx : x.length = sz) :
    ∃ buf, copyTo da.buf (wrapInt (da.nelem * da.szelem)) x = some buf ∧
      Block { da with nelem := wrapInt (da.nelem + 1), buf } (n + 1) m sz ∧
      buf.take ((n + 1) * sz) = da.contents ++ x.map some := by
  have hbytes := h.bytes
  have hcount := h.count
  have hend : (n + 1) * sz ≤ m * sz := Nat.mul_le_mul_right sz hlt
  rw [Nat.succ_mul] at hend
  have hoff : wrapInt (da.nelem * da.szelem) = ((n * sz : Nat) : Int) := by
    rw [h.nelem, h.szelem, ← Int.natCast_mul, wrapInt_of_lt (by omega)]
  have hfit : n * sz + x.length ≤ da.buf.length := by rw [h.length, hx]; exact hend
  have hcopy := copyTo_eq hfit
  obtain ⟨-, hlen, htake⟩ := copyTo_some hcopy
  have hsucc : wrapInt (da.nelem + 1) = ((n + 1 : Nat) : Int) := by
    rw [h.nelem, ← wrapInt_of_lt (n := n + 1) (by omega)]
    rfl
  refine ⟨_, hoff ▸ hcopy, { h with nelem := hsucc, length := hlen.trans h.length, le := hlt }, ?_⟩
  have hsize : (n + 1) * sz = n * sz + x.length := by rw [Nat.succ_mul, hx]
  rw [h.contents_eq, hsize]
  exact htake

/-- Once there is room, the item is copied. -/
theorem push_of_reserve (hr : dynarrReserve da mem = some (some da'))
    (h : Block da' n m sz) (hlt : n < m) (hx : x.length = sz) :
    ∃ da'', dynarrPush da (some x) mem = some da'' ∧ Block da'' (n + 1) m sz ∧
      da''.contents = da'.contents ++ x.map some := by
  obtain ⟨buf, hcopy, hblock, htake⟩ := h.append hlt hx
  refine ⟨_, ?_, hblock, hblock.contents_eq.trans htake⟩
  have hsize : (x.length : Int) = da'.szelem := by rw [h.szelem, hx]
  simp only [dynarrPush, hr, Option.bind_eq_bind, Option.bind_some, if_pos hsize, hcopy]
  rfl

theorem Block.push_room (h : Block da n m sz) (hlt : n < m) (hx : x.length = sz) (mem : Bool) :
    ∃ da', dynarrPush da (some x) mem = some da' ∧ Block da' (n + 1) m sz ∧
      da'.contents = da.contents ++ x.map some :=
  push_of_reserve (reserve_room h hlt) h hlt hx

theorem Block.push_grow (h : Block da n m sz) (hfull : n = m) (hc : capacity m < 2 ^ 31)
    (hb : capacity m * sz < 2 ^ 31) (hx : x.length = sz) :
    ∃ da', dynarrPush da (some x) true = some da' ∧ Block da' (n + 1) (capacity m) sz ∧
      da'.contents = da.contents ++ x.map some := by
  obtain ⟨da₁, hr, h₁, hkeep⟩ := h.reserve hfull hc hb
  rw [← hkeep]
  exact push_of_reserve hr h₁ (hfull ▸ lt_capacity m) hx

/-- A null item makes room only. -/
theorem push_null (hr : dynarrReserve da mem = some (some da')) :
    dynarrPush da none mem = some da' := by
  simp only [dynarrPush, hr, Option.bind_eq_bind, Option.bind_some]
  rfl

theorem push_refused (hr : dynarrReserve da mem = some none) (item : Option (List Byte)) :
    dynarrPush da item mem = some da := by
  simp only [dynarrPush, hr, Option.bind_eq_bind, Option.bind_some]
  rfl

theorem push_undefined (hr : dynarrReserve da mem = none) (item : Option (List Byte)) :
    dynarrPush da item mem = none := by
  simp only [dynarrPush, hr, Option.bind_eq_bind, Option.bind_none]

/-! ## Popping -/

/-- The last element is left out. -/
theorem Block.dropLast (h : Block da (n + 1) m sz) :
    Block { da with nelem := wrapInt (da.nelem - 1) } n m sz := by
  have hle := h.le
  have hcount := h.count
  have hpred : wrapInt (da.nelem - 1) = n := by
    rw [h.nelem, ← wrapInt_of_lt (n := n) (by omega)]
    congr 1
    omega
  exact { h with nelem := hpred, le := by omega }

theorem contents_take (h : Block da (n + 1) m sz) :
    da.contents.take (n * sz) = da.buf.take (n * sz) := by
  rw [h.contents_eq, List.take_take, Nat.min_eq_left (Nat.mul_le_mul_right sz (Nat.le_succ n))]

theorem pop_empty (h : Block da 0 m sz) (mem : Bool) : dynarrPop da mem = some (da, false) := by
  have hnelem : da.nelem = 0 := h.nelem
  rw [dynarrPop, if_pos hnelem]
  rfl

theorem Block.tdiv (h : Block da n m sz) (k : Nat) : da.maxElem.tdiv k = ((m / k : Nat) : Int) := by
  rw [h.maxElem, Int.ofNat_tdiv]

theorem Block.pop_room (h : Block da (n + 1) m sz) (hmany : m / 3 < n + 1) (mem : Bool) :
    ∃ da', dynarrPop da mem = some (da', false) ∧ Block da' n m sz ∧
      da'.contents = da.contents.take (n * sz) := by
  have hnelem := h.nelem
  have htdiv : da.maxElem.tdiv 3 = ((m / 3 : Nat) : Int) := h.tdiv 3
  have hdrop := h.dropLast
  refine ⟨_, ?_, hdrop, by rw [hdrop.contents_eq, contents_take h]⟩
  rw [dynarrPop, if_neg (by omega), if_neg (by omega)]
  rfl

/-- The array shrinks to the half of its capacity. -/
theorem Block.pop_shrink (h : Block da (n + 1) m sz) (hfew : n + 1 ≤ m / 3) :
    ∃ da', dynarrPop da true = some (da', true) ∧ Block da' n (m / 2) sz ∧
      da'.contents = da.contents.take (n * sz) := by
  have hnelem := h.nelem
  have hcount := h.count
  have hbytes := h.bytes
  have htdiv : da.maxElem.tdiv 3 = ((m / 3 : Nat) : Int) := h.tdiv 3
  have hhalf : da.maxElem.tdiv 2 = ((m / 2 : Nat) : Int) := h.tdiv 2
  have hsize : m / 2 * sz ≤ m * sz := Nat.mul_le_mul_right sz (by omega)
  obtain ⟨da', hres, hblock, hkeep⟩ := h.resize (c := m / 2) (by omega) (by omega)
  have hfull : Block { da' with nelem := da.nelem } (n + 1) (m / 2) sz :=
    { hblock with nelem := h.nelem, le := by omega }
  have hdrop := hfull.dropLast
  refine ⟨_, ?_, hdrop, ?_⟩
  · simp only [dynarrPop, if_neg (show ¬ da.nelem = 0 by omega),
      if_pos (show da.nelem ≤ da.maxElem.tdiv 3 by omega), hhalf, hres]
    rfl
  · rw [hdrop.contents_eq, contents_take h]
    exact hkeep _ (Nat.mul_le_mul_right sz (by omega)) (Nat.mul_le_mul_right sz (by omega))

theorem pop_refused (h : Block da (n + 1) m sz) (hfew : n + 1 ≤ m / 3) :
    dynarrPop da false = some (da, false) := by
  have hnelem := h.nelem
  have htdiv : da.maxElem.tdiv 3 = ((m / 3 : Nat) : Int) := h.tdiv 3
  simp only [dynarrPop, if_neg (show ¬ da.nelem = 0 by omega),
    if_pos (show da.nelem ≤ da.maxElem.tdiv 3 by omega), dynarrResize_false]
  rfl

end Resman.Dynarr
