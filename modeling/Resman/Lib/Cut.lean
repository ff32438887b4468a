import Resman.Lib.SortedAssoc

/-!
# Cuts of a list

A search for a key compares it with the elements of an ordered list, and `cut a` is the outcome for
`a`: positive before the key, zero at it, negative after it. `At cut L xs e ys` says that the search
ends at `e`, with `xs` before it and `ys` after it; `Gap cut L xs ys` that it ends between `xs` and
`ys`. Both are all that an operation of a search tree has to know of the order: `At.of_neg`,
`Gap.of_pos` and their kin hand the position on to the part of the list on one side of an element.

A sorted list is cut by every key at one of the two (`WeakOrder.at_or_gap`). For that the comparison
may be a `WeakOrder`, in which different keys compare equal.
-/

namespace Resman.Lib

variable {A : Type*}

structure At (cut : A → Int) (L xs : List A) (e : A) (ys : List A) : Prop where
  split : L = xs ++ e :: ys
  before : ∀ a ∈ xs, 0 < cut a
  equal : cut e = 0
  after : ∀ a ∈ ys, cut a < 0

structure Gap (cut : A → Int) (L xs ys : List A) : Prop where
  split : L = xs ++ ys
  before : ∀ a ∈ xs, 0 < cut a
  after : ∀ a ∈ ys, cut a < 0

section Sides

variable {cut : A → Int} {L R xs ys : List A} {e m : A}

/-- An element that is not in the first of two lists and ends a part of their
concatenation is in the second. -/
theorem split_before (h : L ++ m :: R = xs ++ ys) (hm : m ∉ xs) :
    ∃ zs, L = xs ++ zs ∧ ys = zs ++ m :: R := by
  rcases List.append_eq_append_iff.1 h with ⟨zs, rfl, hR⟩ | ⟨zs, rfl, rfl⟩
  · cases zs with
    | nil => exact ⟨[], by simp, by simpa using hR.symm⟩
    | cons z zs =>
      obtain ⟨rfl, -⟩ := List.cons_eq_cons.1 hR
      exact absurd (by simp) hm
  · exact ⟨zs, rfl, rfl⟩

theorem split_after (h : L ++ m :: R = xs ++ ys) (hm : m ∉ ys) :
    ∃ zs, xs = L ++ m :: zs ∧ R = zs ++ ys := by
  rcases List.append_eq_append_iff.1 h with ⟨zs, rfl, hR⟩ | ⟨zs, rfl, rfl⟩
  · cases zs with
    | nil => exact absurd (by simp [← (show m :: R = ys from hR)]) hm
    | cons z zs =>
      obtain ⟨rfl, rfl⟩ := List.cons_eq_cons.1 hR
      exact ⟨zs, rfl, rfl⟩
  · exact absurd (by simp) hm

theorem Gap.of_neg (h : Gap cut (L ++ m :: R) xs ys) (hm : cut m < 0) :
    ∃ zs, ys = zs ++ m :: R ∧ Gap cut L xs zs := by
  have hx : m ∉ xs := fun hx => absurd (h.before m hx) (by omega)
  obtain ⟨zs, rfl, rfl⟩ := split_before h.split hx
  exact ⟨zs, rfl, rfl, h.before, fun a ha => h.after a (by simp [ha])⟩

theorem Gap.of_pos (h : Gap cut (L ++ m :: R) xs ys) (hm : 0 < cut m) :
    ∃ zs, xs = L ++ m :: zs ∧ Gap cut R zs ys := by
  have hy : m ∉ ys := fun hy => absurd (h.after m hy) (by omega)
  obtain ⟨zs, rfl, rfl⟩ := split_after h.split hy
  exact ⟨zs, rfl, rfl, fun a ha => h.before a (by simp [ha]), h.after⟩

theorem Gap.ne_zero (h : Gap cut L xs ys) {a : A} (ha : a ∈ L) : cut a ≠ 0 := by
  rw [h.split, List.mem_append] at ha
  rcases ha with ha | ha
  · have := h.before a ha
    omega
  · have := h.after a ha
    omega

theorem At.of_neg (h : At cut (L ++ m :: R) xs e ys) (hm : cut m < 0) :
    ∃ zs, ys = zs ++ m :: R ∧ At cut L xs e zs := by
  have hx : m ∉ xs := fun hx => absurd (h.before m hx) (by omega)
  obtain ⟨zs, rfl, hys⟩ := split_before h.split hx
  cases zs with
  | nil =>
    obtain ⟨rfl, -⟩ := List.cons_eq_cons.1 hys
    exact absurd h.equal (by omega)
  | cons z zs =>
    obtain ⟨rfl, rfl⟩ := List.cons_eq_cons.1 hys
    exact ⟨zs, rfl, rfl, h.before, h.equal, fun a ha => h.after a (by simp [ha])⟩

theorem At.of_pos (h : At cut (L ++ m :: R) xs e ys) (hm : 0 < cut m) :
    ∃ zs, xs = L ++ m :: zs ∧ At cut R zs e ys := by
  have hy : m ∉ e :: ys := by
    rw [List.mem_cons, not_or]
    exact ⟨fun he => absurd h.equal (by rw [← he]; omega),
      fun hy => absurd (h.after m hy) (by omega)⟩
  obtain ⟨zs, rfl, rfl⟩ := split_after h.split hy
  exact ⟨zs, rfl, rfl, fun a ha => h.before a (by simp [ha]), h.equal, h.after⟩

/-- The search ends at no other element. -/
theorem At.of_zero (h : At cut (L ++ m :: R) xs e ys) (hm : cut m = 0) :
    xs = L ∧ e = m ∧ ys = R := by
  have hx : m ∉ xs := fun hx => absurd (h.before m hx) (by omega)
  obtain ⟨zs, rfl, hys⟩ := split_before h.split hx
  cases zs with
  | nil =>
    obtain ⟨rfl, rfl⟩ := List.cons_eq_cons.1 hys
    exact ⟨by simp, rfl, rfl⟩
  | cons z zs =>
    obtain ⟨rfl, rfl⟩ := List.cons_eq_cons.1 hys
    exact absurd (h.after m (by simp)) (by omega)

/-- Elements in front of one that is not after the key. -/
theorem At.pos_of_mem (h : At cut (L ++ m :: R) xs e ys) (hm : ¬ cut m < 0) {a : A} (ha : a ∈ L) :
    0 < cut a := by
  refine h.before a ?_
  by_cases hz : cut m = 0
  · rw [(h.of_zero hz).1]
    exact ha
  · obtain ⟨zs, rfl, -⟩ := h.of_pos (by omega)
    simp [ha]

theorem At.map {B : Type*} (f : A → B) (cut : B → Int) (h : At (cut ∘ f) L xs e ys) :
    At cut (L.map f) (xs.map f) (f e) (ys.map f) := by
  refine ⟨by rw [h.split, List.map_append, List.map_cons], ?_, h.equal, ?_⟩
  · rw [List.forall_mem_map]
    exact h.before
  · rw [List.forall_mem_map]
    exact h.after

theorem Gap.map {B : Type*} (f : A → B) (cut : B → Int) (h : Gap (cut ∘ f) L xs ys) :
    Gap cut (L.map f) (xs.map f) (ys.map f) := by
  refine ⟨by rw [h.split, List.map_append], ?_, ?_⟩
  · rw [List.forall_mem_map]
    exact h.before
  · rw [List.forall_mem_map]
    exact h.after

theorem At.mem (h : At cut L xs e ys) : e ∈ L := by simp [h.split]

theorem At.eq_of_zero (h : At cut L xs e ys) {a : A} (ha : a ∈ L) (hz : cut a = 0) : a = e := by
  rw [h.split, List.mem_append, List.mem_cons] at ha
  rcases ha with ha | rfl | ha
  · exact absurd (h.before a ha) (by omega)
  · rfl
  · exact absurd (h.after a ha) (by omega)

/-- A list along which the outcomes fall from positive to negative is cut somewhere. -/
theorem at_or_gap (h : L.Pairwise fun a b => cut a ≤ 0 → cut b < 0) :
    (∃ xs e ys, At cut L xs e ys) ∨ ∃ xs ys, Gap cut L xs ys := by
  induction L with
  | nil => exact .inr ⟨[], [], rfl, by simp, by simp⟩
  | cons a L ih =>
    obtain ⟨ha, hL⟩ := List.pairwise_cons.1 h
    rcases Int.lt_trichotomy (cut a) 0 with hlt | hz | hgt
    · refine .inr ⟨[], a :: L, rfl, by simp, fun b hb => ?_⟩
      rcases List.mem_cons.1 hb with rfl | hb
      · exact hlt
      · exact ha b hb (Int.le_of_lt hlt)
    · exact .inl ⟨[], a, L, rfl, by simp, hz, fun b hb => ha b hb (Int.le_of_eq hz)⟩
    · rcases ih hL with ⟨xs, e, ys, rfl, hx, he, hy⟩ | ⟨xs, ys, rfl, hx, hy⟩
      · exact .inl ⟨a :: xs, e, ys, rfl, List.forall_mem_cons.2 ⟨hgt, hx⟩, he, hy⟩
      · exact .inr ⟨a :: xs, ys, rfl, List.forall_mem_cons.2 ⟨hgt, hx⟩, hy⟩

end Sides

/-! ## Orders up to equivalence -/

variable {K : Type*}

/-- A comparison that is a total order up to the equivalence of keys that compare equal. -/
structure WeakOrder (cmp : K → K → Int) : Prop where
  self : ∀ a, cmp a a = 0
  swap : ∀ {a b}, cmp a b < 0 ↔ 0 < cmp b a
  trans : ∀ {a b c}, cmp a b < 0 → cmp b c < 0 → cmp a c < 0
  congr : ∀ {a b c}, cmp a b = 0 → cmp b c < 0 → cmp a c < 0

theorem StrictTotal.weak {cmp : K → K → Int} (hc : StrictTotal cmp) : WeakOrder cmp where
  self := hc.self
  swap := hc.swap
  trans := hc.trans
  congr hab hbc := hc.eq_of_zero hab ▸ hbc

namespace WeakOrder

variable {cmp : K → K → Int} (hc : WeakOrder cmp) {a b c : K}

include hc

theorem symm (h : cmp a b = 0) : cmp b a = 0 := by
  have h₁ := hc.swap (a := a) (b := b)
  have h₂ := hc.swap (a := b) (b := a)
  omega

/-- Every key cuts a list that is sorted by its keys. -/
theorem at_or_gap {f : A → K} {L : List A} (hs : L.Pairwise fun a b => cmp (f a) (f b) < 0)
    (key : K) :
    (∃ xs e ys, At (fun a => cmp key (f a)) L xs e ys) ∨
    ∃ xs ys, Gap (fun a => cmp key (f a)) L xs ys := by
  refine Lib.at_or_gap (hs.imp fun {x y} hxy hx => ?_)
  by_cases heq : cmp key (f x) = 0
  · exact hc.congr heq hxy
  · exact hc.trans (by omega) hxy

/-- In a sorted list the key of an element cuts it there. -/
theorem at_of_split {f : A → K} {L xs ys : List A} {e : A}
    (hs : L.Pairwise fun a b => cmp (f a) (f b) < 0) (h : L = xs ++ e :: ys) :
    At (fun a => cmp (f e) (f a)) L xs e ys := by
  rw [h] at hs
  obtain ⟨-, hrest, hx⟩ := List.pairwise_append.1 hs
  exact ⟨h, fun a ha => hc.swap.1 (hx a ha e (by simp)), hc.self _, (List.pairwise_cons.1 hrest).1⟩

end WeakOrder

/-! ## Storing and removing at a cut -/

section Assoc

variable {V : Type*} {cmp : K → K → Int} {L xs ys : List (K × V)} {e : K × V} {key : K}

theorem put_of_gap (hc : WeakOrder cmp) (h : Gap (fun e => cmp key e.1) L xs ys) (v : V) :
    put cmp key v L = xs ++ (key, v) :: ys := by
  have hx : ∀ e ∈ xs, cmp e.1 key < 0 := fun e he => hc.swap.2 (h.before e he)
  have hy : ∀ e ∈ ys, 0 < cmp e.1 key := fun e he => hc.swap.1 (h.after e he)
  rw [h.split, put, List.filter_append, List.filter_append, filter_lt_of_forall_lt hx,
    filter_lt_of_forall_gt hy, filter_gt_of_forall_lt hx, filter_gt_of_forall_gt hy,
    List.append_nil, List.nil_append]

theorem put_of_at (hc : WeakOrder cmp) (h : At (fun e => cmp key e.1) L xs e ys) (v : V) :
    put cmp key v L = xs ++ (key, v) :: ys := by
  have hx : ∀ e ∈ xs, cmp e.1 key < 0 := fun e he => hc.swap.2 (h.before e he)
  have hy : ∀ e ∈ ys, 0 < cmp e.1 key := fun e he => hc.swap.1 (h.after e he)
  have he : cmp e.1 key = 0 := hc.symm h.equal
  simp only [h.split, put, List.filter_append, filter_lt_of_forall_lt hx, filter_gt_of_forall_lt hx,
    List.filter_cons, filter_lt_of_forall_gt hy, filter_gt_of_forall_gt hy, he]
  simp

theorem del_of_at [DecidableEq K] (hc : StrictTotal cmp) (h : At (fun e => cmp key e.1) L xs e ys) :
    del key L = xs ++ ys := by
  have hx : del key xs = xs := del_of_not_mem fun e he => (hc.ne_of_gt (h.before e he)).symm
  have hy : del key ys = ys := del_of_not_mem fun e he => (hc.ne_of_lt (h.after e he)).symm
  have he : e.1 = key := (hc.eq_of_zero h.equal).symm
  rw [h.split, del, List.filter_append, List.filter_cons_of_neg (by simp [he])]
  exact congrArg₂ (· ++ ·) hx hy

end Assoc

end Resman.Lib
