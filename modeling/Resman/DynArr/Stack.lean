import Resman.DynArr.Sizes

/-!
# The array as a stack

With memory, pushes and pops on a new array are those of a stack (`isStack`). Without it,
`dynarr_push` returns the array that it was given, as if the item had been added, and `dynarr_pop`
does not pop: `refused_iff` says when a call does what it should although `realloc` may fail.
-/

namespace Resman.Dynarr

open Lib

variable {da da' : DynArr} {n m sz : Nat} {xs : List (List Byte)} {ops : List Op}

/-! ## Elements -/

/-- An array with its block holds the elements that its bytes are. -/
theorem Block.holds (h : Block da xs.length m sz) (hsize : ∀ x ∈ xs, x.length = sz)
    (hbytes : da.contents = xs.flatten.map some) : Holds da sz xs where
  szelem := h.szelem
  nelem := h.nelem
  size := hsize
  bytes := h.contents_eq.symm.trans hbytes
  room := h.length ▸ h.bytes

/-! ## With memory -/

/-- A call on a stack of elements of `sz` bytes. -/
inductive StackOp (sz : Nat) where
  | push (x : {x : List Byte // x.length = sz})
  | pushNull
  | pop

/-- The call on the array, with memory. -/
def StackOp.op : StackOp sz → Op
  | push x => .push (some x.1) true
  | pushNull => .push none true
  | pop => .pop true

/-- The abstract stack, with its top at the end. -/
def StackOp.apply (xs : List {x : List Byte // x.length = sz}) :
    StackOp sz → List {x : List Byte // x.length = sz}
  | push x => xs ++ [x]
  | pushNull => xs
  | pop => xs.dropLast

def stack (ops : List (StackOp sz)) : List {x : List Byte // x.length = sz} :=
  ops.foldl StackOp.apply []

/-- The calls on a new array. -/
def stackOps (ops : List (StackOp sz)) : List Op := .alloc 0 sz true :: ops.map StackOp.op

/-- There is an array with its block, and it holds these elements. -/
def Stacked (xs : List {x : List Byte // x.length = sz}) (s : Option DynArr) : Prop :=
  ∃ da m, s = some da ∧ Block da xs.length m sz ∧
    da.contents = (xs.map Subtype.val).flatten.map some

theorem stacked_new (sz : Nat) :
    ∃ s, step none (.alloc 0 sz true) = some s ∧
      Stacked ([] : List {x : List Byte // x.length = sz}) s := by
  obtain ⟨da, ha, hblock⟩ : ∃ da, dynarrAlloc (0 : Nat) sz true = some (some da) ∧
      Block da 0 0 sz :=
    Block.alloc (by decide) (by rw [Nat.zero_mul]; decide)
  refine ⟨some da, ha, da, 0, rfl, hblock, ?_⟩
  rw [hblock.contents_eq, Nat.zero_mul]
  rfl

/-- A call does to the elements what it does to the stack. -/
theorem stacked_step {xs : List {x : List Byte // x.length = sz}} {s : Option DynArr}
    (h : Stacked xs s) (op : StackOp sz) (hf : Fits s op.op) :
    ∃ s', step s op.op = some s' ∧ Stacked (op.apply xs) s' := by
  obtain ⟨da, m, rfl, hblock, hbytes⟩ := h
  cases op with
  | push x =>
    have hadd (c : Nat) {da' : DynArr} (hp : dynarrPush da (some x.1) true = some da')
        (hblock' : Block da' (xs.length + 1) c sz)
        (hbytes' : da'.contents = da.contents ++ x.1.map some) :
        ∃ s', step (some da) (.push (some x.1) true) = some s' ∧ Stacked (xs ++ [x]) s' := by
      refine ⟨some da', by rw [step, hp]; rfl, da', c, rfl, by rwa [List.length_append], ?_⟩
      rw [hbytes', hbytes, List.map_append, List.flatten_append, List.map_append]
      simp
    by_cases hfull : xs.length = m
    · have hask := hblock.asks (some x.1) true
      rw [if_pos hfull] at hask
      obtain ⟨hcount, hsize⟩ := hf _ hask
      obtain ⟨da', hp, hblock', hbytes'⟩ := hblock.push_grow hfull hcount hsize x.2
      exact hadd _ hp hblock' hbytes'
    · obtain ⟨da', hp, hblock', hbytes'⟩ :=
        hblock.push_room (lt_of_le_of_ne hblock.le hfull) x.2 true
      exact hadd _ hp hblock' hbytes'
  | pushNull =>
    by_cases hfull : xs.length = m
    · have hask := hblock.asks none true
      rw [if_pos hfull] at hask
      obtain ⟨hcount, hsize⟩ := hf _ hask
      obtain ⟨da', hr, hblock', hkeep⟩ := hblock.reserve hfull hcount hsize
      exact ⟨some da', by rw [StackOp.op, step, push_null hr]; rfl, da', _, rfl, hblock',
        hkeep.trans hbytes⟩
    · have hr : dynarrReserve da true = some (some da) :=
        reserve_room hblock (lt_of_le_of_ne hblock.le hfull)
      exact ⟨some da, by rw [StackOp.op, step, push_null hr]; rfl, da, m, rfl, hblock, hbytes⟩
  | pop =>
    rcases List.eq_nil_or_concat' xs with rfl | ⟨ys, y, rfl⟩
    · exact ⟨some da, by rw [StackOp.op, step, pop_empty hblock]; rfl, da, m, rfl, hblock, hbytes⟩
    · rw [List.length_append, List.length_singleton] at hblock
      have hdrop (c : Nat) {da' : DynArr} {resized : Bool}
          (hp : dynarrPop da true = some (da', resized)) (hblock' : Block da' ys.length c sz)
          (hbytes' : da'.contents = da.contents.take (ys.length * sz)) :
          ∃ s', step (some da) (.pop true) = some s' ∧ Stacked (ys ++ [y]).dropLast s' := by
        rw [List.dropLast_concat]
        refine ⟨some da', by rw [step, hp]; rfl, da', c, rfl, hblock', ?_⟩
        have hsize : ∀ x ∈ (ys ++ [y]).map Subtype.val, x.length = sz := by
          intro x hx
          obtain ⟨z, -, rfl⟩ := List.mem_map.1 hx
          exact z.2
        rw [hbytes', hbytes, ← List.map_take, take_flatten hsize, ← List.map_take, List.take_left]
      by_cases hfew : ys.length + 1 ≤ m / 3
      · obtain ⟨da', hp, hblock', hbytes'⟩ := hblock.pop_shrink hfew
        exact hdrop _ hp hblock' hbytes'
      · obtain ⟨da', hp, hblock', hbytes'⟩ := hblock.pop_room (Nat.lt_of_not_le hfew) true
        exact hdrop _ hp hblock' hbytes'

theorem stacked_run {xs : List {x : List Byte // x.length = sz}} {s : Option DynArr}
    (h : Stacked xs s) (ops : List (StackOp sz)) (hf : Along step Fits s (ops.map StackOp.op)) :
    ∃ s', exec step s (ops.map StackOp.op) = some s' ∧ Stacked (ops.foldl StackOp.apply xs) s' := by
  induction ops generalizing xs s with
  | nil => exact ⟨s, rfl, h⟩
  | cons op ops ih =>
    rw [List.map_cons, along_cons] at hf
    obtain ⟨s₁, hs₁, h₁⟩ := stacked_step h op hf.1
    obtain ⟨s', hs', h'⟩ := ih h₁ (hf.2 s₁ hs₁)
    exact ⟨s', exec_cons_eq_some.2 ⟨s₁, hs₁, hs'⟩, h'⟩

/-- **The array is a stack**: with memory, and as long as the sizes are `int` values,
every call is defined, and after it the array holds the elements of the stack, in a
block of the size that it says. -/
theorem isStack (ops : List (StackOp sz)) (hfit : Along step Fits none (stackOps ops)) :
    ∀ pre, pre <+: ops → ∃ da, exec step none (stackOps pre) = some (some da) ∧
      da.nelem ≤ da.maxElem ∧
      da.bufsz = da.maxElem * da.szelem ∧ Holds da sz ((stack pre).map Subtype.val) ∧
      (stack pre = [] → ∀ mem, dynarrPop da mem = some (da, false)) := by
  rintro pre ⟨post, rfl⟩
  obtain ⟨s₀, hs₀, h₀⟩ := stacked_new sz
  have hpre : Along step Fits s₀ (pre.map StackOp.op) := by
    have hall := (along_cons.1 hfit).2 s₀ hs₀
    rw [List.map_append, along_iff_forall] at hall
    exact along_iff_forall.2 fun l a m hl hm => hall l a m (hl.trans (List.prefix_append ..)) hm
  obtain ⟨s, hs, da, m, rfl, hblock, hbytes⟩ := stacked_run h₀ pre hpre
  refine ⟨da, exec_cons_eq_some.2 ⟨s₀, hs₀, hs⟩, ?_, ?_, ?_, fun hnil => ?_⟩
  · rw [hblock.nelem, hblock.maxElem]
    exact Int.ofNat_le.2 hblock.le
  · rw [hblock.bufsz, hblock.maxElem, hblock.szelem, Int.natCast_mul]
  · refine Block.holds (m := m) (by rwa [List.length_map]) (fun x hx => ?_) hbytes
    obtain ⟨z, -, rfl⟩ := List.mem_map.1 hx
    exact z.2
  · rw [show List.foldl StackOp.apply [] pre = [] from hnil] at hblock
    exact pop_empty hblock

/-- Growing to four elements and shrinking to two. -/
def upAndDown : List (StackOp 2) :=
  [.push ⟨[1, 2], rfl⟩, .push ⟨[3, 4], rfl⟩, .push ⟨[5, 6], rfl⟩, .pushNull, .pop, .pop, .pop, .pop]

theorem isStack_upAndDown :
    (∃ da, exec step none (stackOps (upAndDown.take 5)) = some (some da) ∧
      Holds da 2 [[1, 2], [3, 4]]) ∧
      ∃ da, exec step none (stackOps upAndDown) = some (some da) ∧
        dynarrPop da false = some (da, false) := by
  have h := isStack upAndDown (by decide +kernel)
  obtain ⟨da, hda, -, -, hholds, -⟩ := h (upAndDown.take 5) (List.take_prefix ..)
  obtain ⟨da', hda', -, -, -, hempty⟩ := h upAndDown List.prefix_rfl
  exact ⟨⟨da, hda, hholds⟩, da', hda', hempty rfl false⟩

/-! ## Without memory -/

/-- The pointer that `dynarr_push` returns: its argument, or the array that has
been resized, and never null. -/
def dynarrPushRet (da : DynArr) (item : Option (List Byte)) (mem : Bool) : Option (Option DynArr) :=
  (dynarrPush da item mem).map some

/-- The item has been added to the array that is returned; when null is returned, nothing is
promised but that the array has not been written to. -/
def AppendsOrNull (da : DynArr) (x : List Byte) (mem : Bool) : Prop :=
  ∃ ret, dynarrPushRet da (some x) mem = some ret ∧
    ∀ da' ∈ ret, da'.nelem = da.nelem + 1 ∧ da'.contents = da.contents ++ x.map some

/-- The last element is gone, and the others are there. -/
def RemovesLast (da : DynArr) (mem : Bool) : Prop :=
  ∃ da' resized, dynarrPop da mem = some (da', resized) ∧ da'.nelem = da.nelem - 1 ∧
    da'.contents = da.contents.take ((da.nelem - 1).toNat * da.szelem.toNat)

/-- A call that its caller may make, without overflow of an `int`. -/
def InRange (s : Option DynArr) (op : Op) : Prop := Valid s op ∧ Fits s op

instance (s : Option DynArr) (op : Op) : Decidable (InRange s op) :=
  inferInstanceAs (Decidable (Valid s op ∧ Fits s op))

theorem blocked_of_run {s : Option DynArr} (hc : Along step InRange none ops)
    (h : exec step none ops = some s) :
    Blocked s :=
  exec_invariant (I := Blocked) blocked_none
    (fun _ _ _ hm ha hs => by
      obtain ⟨m', hm', hI⟩ := hm.step ha.1 ha.2
      exact Option.some.inj (hm'.symm.trans hs) ▸ hI) hc h

theorem Block.appendsOrNull_iff (h : Block da n m sz) (hsz : sz < 2 ^ 31) {x : List Byte}
    (hx : x.length = sz) (hpos : 1 ≤ sz) (mem : Bool) :
    AppendsOrNull da x mem ↔ n < m ∨ mem = true ∧ capacity m * sz < 2 ^ 31 := by
  constructor
  · rintro ⟨ret, hret, hadd⟩
    by_contra hno
    obtain ⟨hfull, hgrow⟩ := not_or.1 hno
    obtain rfl : n = m := Nat.le_antisymm h.le (Nat.le_of_not_lt hfull)
    cases mem with
    | false =>
      rw [dynarrPushRet, push_refused (reserve_null h rfl)] at hret
      obtain rfl := Option.some.inj hret
      have hcount := (hadd da rfl).1
      omega
    | true =>
      have hbytes : 2 ^ 31 ≤ capacity n * sz := Nat.le_of_not_lt fun hlt => hgrow ⟨rfl, hlt⟩
      rw [dynarrPushRet, push_undefined (reserve_overflow h rfl hsz hbytes)] at hret
      cases hret
  · intro hyes
    have hadd (c : Nat) {da' : DynArr} (hp : dynarrPush da (some x) mem = some da')
        (hblock' : Block da' (n + 1) c sz) (hbytes' : da'.contents = da.contents ++ x.map some) :
        AppendsOrNull da x mem := by
      refine ⟨some da', by rw [dynarrPushRet, hp]; rfl, ?_⟩
      intro da'' hda
      obtain rfl := Option.some.inj hda
      exact ⟨by rw [hblock'.nelem, h.nelem]; rfl, hbytes'⟩
    by_cases hroom : n < m
    · obtain ⟨da', hp, hblock', hbytes'⟩ := h.push_room hroom hx mem
      exact hadd _ hp hblock' hbytes'
    · obtain ⟨rfl, hbytes⟩ := hyes.resolve_left hroom
      have hcount := lt_of_le_of_lt (Nat.le_mul_of_pos_right (capacity m) hpos) hbytes
      obtain ⟨da', hp, hblock', hbytes'⟩ :=
        h.push_grow (Nat.le_antisymm h.le (Nat.le_of_not_lt hroom)) hcount hbytes hx
      exact hadd _ hp hblock' hbytes'

theorem Block.removesLast_iff (h : Block da (n + 1) m sz) (mem : Bool) :
    RemovesLast da mem ↔ m / 3 < n + 1 ∨ mem = true := by
  have hpred : (da.nelem - 1).toNat = n := by
    rw [h.nelem]
    omega
  have hrest {da' : DynArr} {resized : Bool} {c : Nat} (hp : dynarrPop da mem = some (da', resized))
      (hblock' : Block da' n c sz) (hbytes' : da'.contents = da.contents.take (n * sz)) :
      RemovesLast da mem := by
    refine ⟨da', resized, hp, ?_, ?_⟩
    · rw [hblock'.nelem, h.nelem]
      omega
    · rw [hpred, h.szelem]
      exact hbytes'
  by_cases hfew : n + 1 ≤ m / 3
  · cases mem with
    | false =>
      refine iff_of_false ?_ (by simpa using hfew)
      rintro ⟨da', resized, hp, hcount, -⟩
      rw [pop_refused h hfew] at hp
      obtain ⟨rfl, -⟩ := Prod.mk.inj (Option.some.inj hp)
      omega
    | true =>
      obtain ⟨da', hp, hblock', hbytes'⟩ := h.pop_shrink hfew
      exact iff_of_true (hrest hp hblock' hbytes') (.inr rfl)
  · obtain ⟨da', hp, hblock', hbytes'⟩ := h.pop_room (Nat.lt_of_not_le hfew) mem
    exact iff_of_true (hrest hp hblock' hbytes') (.inl (Nat.lt_of_not_le hfew))

/-- **Reallocation failure**: on every array that calls with any answers of `realloc` reach, a
push adds its item or returns null exactly when there is room, or `realloc` finds memory for a
size that is an `int`; and a pop removes the last element exactly when the array does not
shrink, or `realloc` succeeds. -/
theorem refused_iff (hc : Along step InRange none ops) (h : exec step none ops = some (some da)) :
    (∀ x mem, (x.length : Int) = da.szelem →
      (AppendsOrNull da x mem ↔ da.nelem < da.maxElem ∨
        mem = true ∧ capacity da.maxElem.toNat * da.szelem.toNat < 2 ^ 31)) ∧
    ∀ mem, 0 < da.nelem → (RemovesLast da mem ↔ da.maxElem < 3 * da.nelem ∨ mem = true) := by
  obtain ⟨n, m, sz, hpos, hlt, hblock⟩ := blocked_of_run hc h da rfl
  rw [hblock.nelem, hblock.maxElem, hblock.szelem]
  refine ⟨fun x mem hx => ?_, fun mem hn => ?_⟩
  · rw [hblock.appendsOrNull_iff hlt (Int.ofNat_inj.1 hx) hpos, Int.ofNat_lt]
    rfl
  · obtain ⟨k, rfl⟩ : ∃ k, n = k + 1 := ⟨n - 1, by omega⟩
    have hmany : m / 3 < k + 1 ↔ (m : Int) < 3 * ((k + 1 : Nat) : Int) := by omega
    rw [hblock.removesLast_iff, hmany]

/-- An array of one element, after a push that was refused. -/
def refusesPush : List Op :=
  [.alloc 0 4 true, .push (some [1, 2, 3, 4]) false, .push (some [1, 2, 3, 4]) true]

theorem refused_iff_refusesPush :
    ∃ da, exec step none refusesPush = some (some da) ∧
      (∀ x mem, (x.length : Int) = da.szelem →
        (AppendsOrNull da x mem ↔ da.nelem < da.maxElem ∨
          mem = true ∧ capacity da.maxElem.toNat * da.szelem.toNat < 2 ^ 31)) ∧
      ∀ mem, 0 < da.nelem → (RemovesLast da mem ↔ da.maxElem < 3 * da.nelem ∨ mem = true) :=
  have h : exec step none refusesPush =
      some (some ⟨1, 4, 1, 4, [some 1, some 2, some 3, some 4]⟩) := by
    decide +kernel
  ⟨_, h, refused_iff (by decide +kernel) h⟩

/-- The first push on a new array, without memory: the pointer is not null, and
the item is not there. -/
theorem not_appendsOrNull_refused :
    ¬ ∀ ops da, Along step InRange none ops → exec step none ops = some (some da) →
      (∀ x mem, (x.length : Int) = da.szelem → AppendsOrNull da x mem) ∧
        ∀ mem, 0 < da.nelem → RemovesLast da mem := by
  intro hall
  obtain ⟨hpush, -⟩ := hall [.alloc 0 4 true] ⟨0, 4, 0, 0, []⟩ (by decide +kernel)
    (by decide +kernel)
  obtain ⟨ret, hret, hadd⟩ := hpush [1, 2, 3, 4] false rfl
  obtain rfl : some ⟨0, 4, 0, 0, []⟩ = ret := Option.some.inj hret
  exact absurd (hadd _ rfl).1 (by decide)

end Resman.Dynarr
