import Resman.DynArr.Basic

/-!
# What a dynamic array holds

`Holds da sz xs`: the array has elements of `sz` bytes, and these are the bytes of `xs`, in order.
Pushing an element puts it at the end (`Holds.push`), and a write to the array replaces one
(`Holds.set`). `Sized` says that the block is as large as `max_elem` says; then a push is defined
whenever memory is found (`Sized.push`).
-/

namespace Resman.Dynarr

variable {da da' : DynArr} {sz : Nat} {xs : List (List Byte)} {x : List Byte}

theorem wrapInt_lt (x : Int) : wrapInt x < 2 ^ 31 := by
  have h := @Int.bmod_lt x (2 ^ 32) (by decide)
  unfold wrapInt
  omega

theorem le_wrapInt (x : Int) : -2 ^ 31 ≤ wrapInt x := by
  have h := @Int.le_bmod x (2 ^ 32) (by decide)
  unfold wrapInt
  omega

theorem wrapInt_of_lt {n : Nat} (h : n < 2 ^ 31) : wrapInt n = n := by
  refine Int.bmod_eq_of_le ?_ ?_
  · omega
  · omega

/-- A block for `n` bytes, an `int`, has `n` bytes after the descriptor. -/
theorem newBuf_some {old buf : List (Option Byte)} {n : Int} (hle : -2 ^ 31 ≤ n) (hlt : n < 2 ^ 31)
    (h : newBuf old n true = some (some buf)) :
    ∃ k : Nat, n = k ∧ buf = old.take k ++ List.replicate (k - old.length) none := by
  simp only [newBuf, if_true] at h
  split at h
  · next hr =>
    obtain ⟨hlow, hhigh⟩ := hr
    unfold request descSize at hlow hhigh
    refine ⟨request n - descSize, ?_, (Option.some.inj (Option.some.inj h)).symm⟩
    unfold request descSize
    omega
  · cases h

theorem newBuf_ne_none {old : List (Option Byte)} {n : Int} : newBuf old n true ≠ some none := by
  intro h
  simp only [newBuf, if_true] at h
  split at h
  · cases Option.some.inj h
  · cases h

/-! ## Elements of one size -/

structure Holds (da : DynArr) (sz : Nat) (xs : List (List Byte)) : Prop where
  szelem : da.szelem = sz
  nelem : da.nelem = xs.length
  size : ∀ x ∈ xs, x.length = sz
  bytes : da.buf.take (xs.length * sz) = xs.flatten.map some
  room : da.buf.length < 2 ^ 31

theorem length_flatten (h : ∀ x ∈ xs, x.length = sz) : xs.flatten.length = xs.length * sz := by
  induction xs with
  | nil => simp
  | cons x xs ih =>
    rw [List.forall_mem_cons] at h
    rw [List.flatten_cons, List.length_append, h.1, ih h.2, List.length_cons,
      Nat.succ_mul, Nat.add_comm]

theorem take_flatten (h : ∀ x ∈ xs, x.length = sz) (i : Nat) :
    xs.flatten.take (i * sz) = (xs.take i).flatten := by
  induction xs generalizing i with
  | nil => simp
  | cons x xs ih =>
    rw [List.forall_mem_cons] at h
    cases i with
    | zero => simp
    | succ i =>
      rw [List.flatten_cons, Nat.succ_mul, Nat.add_comm, ← h.1,
        List.take_length_add_append, h.1, ih h.2]
      rfl

theorem drop_flatten (h : ∀ x ∈ xs, x.length = sz) (i : Nat) :
    xs.flatten.drop (i * sz) = (xs.drop i).flatten := by
  induction xs generalizing i with
  | nil => simp
  | cons x xs ih =>
    rw [List.forall_mem_cons] at h
    cases i with
    | zero => simp
    | succ i =>
      rw [List.flatten_cons, Nat.succ_mul, Nat.add_comm, ← h.1,
        List.drop_length_add_append, h.1, ih h.2]
      rfl

theorem element_flatten (h : ∀ x ∈ xs, x.length = sz) {i : Nat} (hi : i < xs.length) :
    (xs.flatten.drop (i * sz)).take sz = xs[i] := by
  rw [drop_flatten h, List.drop_eq_getElem_cons hi, List.flatten_cons]
  exact List.take_left' (h _ (List.getElem_mem hi))

theorem Holds.length_le (h : Holds da sz xs) : xs.length * sz ≤ da.buf.length := by
  have hlen := congrArg List.length h.bytes
  rw [List.length_take, List.length_map, length_flatten h.size] at hlen
  omega

/-- The bytes of an element. -/
theorem Holds.element (h : Holds da sz xs) {i : Nat} (hi : i < xs.length) :
    (da.buf.drop (i * sz)).take sz = xs[i].map some := by
  have hle : i * sz + sz ≤ xs.length * sz := by
    rw [← Nat.succ_mul]
    exact Nat.mul_le_mul_right sz hi
  have hbytes : ((da.buf.take (xs.length * sz)).drop (i * sz)).take sz =
      (da.buf.drop (i * sz)).take sz := by
    rw [List.drop_take, List.take_take, Nat.min_eq_left (by omega)]
  rw [← hbytes, h.bytes, ← List.map_drop, ← List.map_take, element_flatten h.size hi]

/-- What `dynarr_push` has done when there is memory: nothing where there is room, and otherwise a
block of the new capacity has the old bytes, as far as they fit. -/
theorem reserve_cases {o : Option DynArr} (hr : dynarrReserve da true = some o) :
    (o = some da ∧ da.nelem < da.maxElem) ∨
      ∃ (newsz : Int) (k : Nat), newsz = (if da.maxElem ≠ 0 then wrapInt (da.maxElem * 2) else 1) ∧
        wrapInt (da.szelem * newsz) = k ∧
        o = some { da with
          maxElem := newsz, bufsz := k,
            buf := da.buf.take k ++ List.replicate (k - da.buf.length) none } := by
  unfold dynarrReserve at hr
  split at hr
  · simp only [dynarrResize, Option.bind_eq_bind, Option.pure_def, Option.bind_eq_some_iff] at hr
    obtain ⟨resized, ⟨block, hnew, hblock⟩, hr⟩ := hr
    cases block with
    | none => exact absurd hnew newBuf_ne_none
    | some buf =>
      obtain rfl := Option.some.inj hblock
      obtain rfl := Option.some.inj hr
      obtain ⟨k, hk, rfl⟩ := newBuf_some (le_wrapInt _) (wrapInt_lt _) hnew
      refine .inr ⟨_, k, rfl, hk, ?_⟩
      rw [← hk]
      rfl
  · obtain rfl := Option.some.inj hr
    exact .inl ⟨rfl, by omega⟩

/-- With memory there is room, and the old bytes are there as far as the buffer goes. -/
theorem reserve_some {o : Option DynArr} (h : da.buf.length < 2 ^ 31)
    (hr : dynarrReserve da true = some o) :
    ∃ da', o = some da' ∧ da'.nelem = da.nelem ∧ da'.szelem = da.szelem ∧ da'.buf.length < 2 ^ 31 ∧
      ∀ n ≤ da.buf.length, n ≤ da'.buf.length → da'.buf.take n = da.buf.take n := by
  obtain ⟨rfl, -⟩ | ⟨newsz, k, -, hk, rfl⟩ := reserve_cases hr
  · exact ⟨da, rfl, rfl, rfl, h, fun n _ _ => rfl⟩
  · have hlt := wrapInt_lt (da.szelem * newsz)
    refine ⟨_, rfl, rfl, rfl, ?_, fun n hn hn' => ?_⟩
    · simp only [List.length_append, List.length_take, List.length_replicate]
      omega
    · simp only [List.length_append, List.length_take, List.length_replicate] at hn'
      show (da.buf.take k ++ _).take n = _
      rw [List.take_append_of_le_length (by rw [List.length_take]; omega), List.take_take,
        Nat.min_eq_left (by omega)]

theorem copyTo_some {buf buf' : List (Option Byte)} {off : Nat} (h : copyTo buf off x = some buf') :
    off + x.length ≤ buf.length ∧ buf'.length = buf.length ∧
      buf'.take (off + x.length) = buf.take off ++ x.map some := by
  unfold copyTo at h
  split at h
  · next hb =>
    obtain rfl := Option.some.inj h
    have hle : off + x.length ≤ buf.length := by omega
    refine ⟨hle, ?_, ?_⟩
    · simp only [Int.toNat_natCast, List.length_append, List.length_take, List.length_map,
        List.length_drop]
      omega
    · rw [Int.toNat_natCast]
      refine List.take_left' ?_
      rw [List.length_append, List.length_take, List.length_map]
      omega
  · cases h

theorem copyTo_eq {buf : List (Option Byte)} {off : Nat} (h : off + x.length ≤ buf.length) :
    copyTo buf off x = some (buf.take off ++ x.map some ++ buf.drop (off + x.length)) := by
  rw [copyTo, if_pos ⟨Int.natCast_nonneg off, by exact_mod_cast h⟩, Int.toNat_natCast]

/-- An element is written. -/
theorem Holds.set (h : Holds da sz xs) (hx : x.length = sz) {i : Nat} (hi : i < xs.length) :
    ∃ buf, copyTo da.buf ((i * sz : Nat) : Int) x = some buf ∧ buf.length = da.buf.length ∧
      Holds { da with buf } sz (xs.set i x) := by
  have hle := h.length_le
  have hend : i * sz + sz ≤ xs.length * sz := by
    rw [← Nat.succ_mul]
    exact Nat.mul_le_mul_right sz hi
  have hcopy : copyTo da.buf ((i * sz : Nat) : Int) x = _ := copyTo_eq (by omega)
  obtain ⟨-, hlen, -⟩ := copyTo_some hcopy
  refine ⟨_, hcopy, hlen, h.szelem, ?_, ?_, ?_, ?_⟩
  · rw [List.length_set]
    exact h.nelem
  · intro y hy
    rcases List.mem_or_eq_of_mem_set hy with hy | rfl
    · exact h.size y hy
    · exact hx
  · -- the elements before, the new one, and those after it
    have hbefore : da.buf.take (i * sz) = (xs.take i).flatten.map some := by
      have htake := congrArg (List.take (i * sz)) h.bytes
      rwa [List.take_take, Nat.min_eq_left (by omega), ← List.map_take, take_flatten h.size]
        at htake
    have hafter : (da.buf.drop (i * sz + sz)).take (xs.length * sz - (i * sz + sz)) =
        (xs.drop (i + 1)).flatten.map some := by
      have hdrop := congrArg (List.drop ((i + 1) * sz)) h.bytes
      rw [← List.map_drop, drop_flatten h.size, Nat.succ_mul] at hdrop
      rw [← hdrop, List.drop_take]
    show List.take _ (_ ++ _ ++ _) = _
    rw [List.length_set, List.set_eq_take_append_cons_drop, if_pos hi, hx, hbefore]
    have hpre : ((xs.take i).flatten.map some ++ x.map some).length = i * sz + sz := by
      rw [← hbefore, List.length_append, List.length_take, List.length_map, hx,
        Nat.min_eq_left (by omega)]
    rw [List.take_append, List.take_of_length_le (by omega), hpre, hafter, List.flatten_append,
      List.flatten_cons, List.map_append, List.map_append, List.append_assoc]
  · exact hlen ▸ h.room

/-- **Pushing an element** puts it after those that are there. -/
theorem Holds.push (h : Holds da sz xs) (hsz : 0 < sz) (hx : x.length = sz)
    (hp : dynarrPush da (some x) true = some da') : Holds da' sz (xs ++ [x]) := by
  have hroom := h.room
  have hle := h.length_le
  simp only [dynarrPush, Option.bind_eq_bind, Option.bind_eq_some_iff] at hp
  obtain ⟨o, hres, hp⟩ := hp
  obtain ⟨da₁, rfl, hn, hs, hroom₁, hkeep⟩ := reserve_some hroom hres
  simp only at hp
  split at hp
  · simp only [Option.bind_eq_some_iff] at hp
    obtain ⟨buf, hcopy, hp⟩ := hp
    obtain rfl := Option.some.inj hp
    have hoff : wrapInt (da₁.nelem * da₁.szelem) = ((xs.length * sz : Nat) : Int) := by
      rw [hn, hs, h.nelem, h.szelem, ← Int.natCast_mul, wrapInt_of_lt (by omega)]
    rw [hoff] at hcopy
    obtain ⟨hfit, hlen, hbytes⟩ := copyTo_some hcopy
    have hcount : xs.length + 1 ≤ xs.length * sz + sz := by
      have hmul := Nat.le_mul_of_pos_right xs.length hsz
      omega
    have hnelem : da₁.nelem + 1 = ((xs.length + 1 : Nat) : Int) := by
      rw [hn, h.nelem, Int.natCast_succ]
    refine ⟨hs.trans h.szelem, ?_, ?_, ?_, ?_⟩
    · show wrapInt (da₁.nelem + 1) = _
      rw [hnelem, wrapInt_of_lt (by omega), List.length_append, List.length_singleton]
    · rw [List.forall_mem_append]
      exact ⟨h.size, by simpa using hx⟩
    · show buf.take _ = _
      have hold : da₁.buf.take (xs.length * sz) = xs.flatten.map some :=
        (hkeep _ hle (by omega)).trans h.bytes
      rw [hx, hold] at hbytes
      rw [List.length_append, List.length_singleton, Nat.add_mul, Nat.one_mul, hbytes,
        List.flatten_append, List.map_append, List.flatten_singleton]
    · show buf.length < _
      omega
  · cases hp

/-! ## The size of the block -/

/-- The block has `max_elem` elements, and no more of them are in use. -/
structure Sized (da : DynArr) (sz : Nat) : Prop where
  length : (da.buf.length : Int) = da.maxElem * sz
  le : da.nelem ≤ da.maxElem

theorem wrapInt_mul_wrapInt (x y : Int) : wrapInt (x * wrapInt y) = wrapInt (x * y) :=
  Int.mul_bmod_bmod

/-- Up to `2 ^ 32` a product wraps around to a negative number only. -/
theorem of_wrapInt_eq {n k : Nat} (hn : n < 2 ^ 32) (h : wrapInt n = k) : k = n ∧ n < 2 ^ 31 := by
  have hmod : wrapInt n = if (n : Int) < 2 ^ 31 then (n : Int) else n - 2 ^ 32 := by
    rw [wrapInt, Int.bmod, Int.emod_eq_of_lt (by omega) (by omega)]
    rfl
  rw [hmod] at h
  split at h
  · omega
  · omega

/-- The capacity that `dynarr_push` asks for: when there is a block of that size, neither the
capacity nor the size has wrapped around. -/
theorem capacity_of_newBuf {m k : Nat} (hsz : 0 < sz) (hlt : sz < 2 ^ 31) (hroom : m * sz < 2 ^ 31)
    (hk : wrapInt (sz * if (m : Int) ≠ 0 then wrapInt (m * 2) else 1) = k) :
    ∃ c : Nat, (if (m : Int) ≠ 0 then wrapInt (m * 2) else 1) = c ∧ k = c * sz ∧ m < c := by
  have hmul : m ≤ m * sz := Nat.le_mul_of_pos_right m hsz
  split at hk
  · next hpos =>
    have hcast : (sz : Int) * (m * 2) = ((m * sz * 2 : Nat) : Int) := by
      rw [Int.natCast_mul, Int.natCast_mul, ← Int.mul_assoc, Int.mul_comm sz m]
      rfl
    rw [wrapInt_mul_wrapInt, hcast] at hk
    obtain ⟨rfl, hfit⟩ := of_wrapInt_eq (by omega) hk
    refine ⟨m * 2, ?_, Nat.mul_right_comm m sz 2, by omega⟩
    rw [if_pos hpos]
    exact wrapInt_of_lt (n := m * 2) (by omega)
  · next hzero =>
    rw [Int.mul_one, wrapInt_of_lt hlt] at hk
    refine ⟨1, if_neg hzero, by omega, by omega⟩

/-- A new block has room for one more element. -/
theorem Sized.reserve (hs : Sized da sz) (h : Holds da sz xs) (hsz : 0 < sz) (hlt : sz < 2 ^ 31)
    {o : Option DynArr} (hr : dynarrReserve da true = some o) :
    ∃ da', o = some da' ∧ Sized da' sz ∧ da'.nelem < da'.maxElem := by
  have hroom := h.room
  have hlen := hs.length
  have hn := h.nelem
  have hle := hs.le
  obtain ⟨rfl, hfit⟩ | ⟨newsz, k, rfl, hk, rfl⟩ := reserve_cases hr
  · exact ⟨da, rfl, hs, hfit⟩
  · obtain ⟨m, hm⟩ : ∃ m : Nat, da.maxElem = m := ⟨da.maxElem.toNat, by omega⟩
    rw [hm, ← Int.natCast_mul] at hlen
    rw [h.szelem, hm] at hk
    obtain ⟨c, hc, rfl, hmc⟩ := capacity_of_newBuf hsz hlt (by omega) hk
    refine ⟨_, rfl, ⟨?_, ?_⟩, ?_⟩
    all_goals simp only [hm, hc, List.length_append, List.length_take,
      List.length_replicate]
    · rw [← Int.natCast_mul]
      omega
    · omega
    · omega

/-- With memory, a push is defined. -/
theorem Sized.push (hs : Sized da sz) (h : Holds da sz xs) (hsz : 0 < sz) (hlt : sz < 2 ^ 31)
    (hx : x.length = sz) (hmem : dynarrReserve da true ≠ none) :
    ∃ da', dynarrPush da (some x) true = some da' ∧ Sized da' sz := by
  obtain ⟨o, hr⟩ := Option.ne_none_iff_exists'.1 hmem
  obtain ⟨da₁, rfl, hs₁, hfit⟩ := hs.reserve h hsz hlt hr
  obtain ⟨da₂, heq, hn, hsz₁, hroom₁, -⟩ := reserve_some h.room hr
  obtain rfl := Option.some.inj heq
  have hlen := hs₁.length
  obtain ⟨m, hm⟩ : ∃ m : Nat, da₁.maxElem = m :=
    ⟨da₁.maxElem.toNat, by rw [hn, h.nelem] at hfit; omega⟩
  have hend : (xs.length + 1) * sz ≤ m * sz :=
    Nat.mul_le_mul_right sz (by rw [hn, h.nelem] at hfit; omega)
  rw [hm, ← Int.natCast_mul] at hlen
  rw [Nat.add_mul, Nat.one_mul] at hend
  have hoff : wrapInt (da₁.nelem * da₁.szelem) = ((xs.length * sz : Nat) : Int) := by
    rw [hn, hsz₁, h.nelem, h.szelem, ← Int.natCast_mul, wrapInt_of_lt (by omega)]
  have hcopy : copyTo da₁.buf ((xs.length * sz : Nat) : Int) x = _ := copyTo_eq (by omega)
  have hp : dynarrPush da (some x) true = some { da₁ with
      nelem := wrapInt (da₁.nelem + 1)
      buf := da₁.buf.take (xs.length * sz) ++ x.map some ++ da₁.buf.drop
        (xs.length * sz + x.length) } := by
    simp only [dynarrPush, hr, Option.bind_eq_bind, Option.bind_some]
    rw [if_pos (by rw [hsz₁, h.szelem, hx]), hoff, hcopy]
    rfl
  refine ⟨_, hp, ?_, ?_⟩
  · obtain ⟨-, hcopied, -⟩ := copyTo_some hcopy
    show ((da₁.buf.take _ ++ _ ++ _).length : Int) = da₁.maxElem * sz
    rw [hcopied]
    exact hs₁.length
  · show wrapInt (da₁.nelem + 1) ≤ da₁.maxElem
    have hcount : da₁.nelem + 1 = ((xs.length + 1 : Nat) : Int) := by
      rw [hn, h.nelem, Int.natCast_succ]
    have hmul : m ≤ m * sz := Nat.le_mul_of_pos_right m hsz
    rw [hcount, wrapInt_of_lt (by omega)]
    omega

/-- There is room, so no memory is asked for. -/
theorem dynarrPush_of_lt (h : da.nelem < da.maxElem) (item : Option (List Byte)) (mem : Bool) :
    dynarrPush da item mem = dynarrPush da item true := by
  have hr (mem : Bool) : dynarrReserve da mem = some (some da) := if_neg (by omega)
  rw [dynarrPush, dynarrPush, hr, hr]

/-- Without room and memory, the array is returned as it is. -/
theorem dynarrPush_full (h : da.maxElem ≤ da.nelem) (item : Option (List Byte)) :
    dynarrPush da item false = some da := by
  have hr : dynarrReserve da false = some none := if_pos h
  rw [dynarrPush, hr]
  rfl

end Resman.Dynarr
