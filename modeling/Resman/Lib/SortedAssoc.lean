import Mathlib.Data.List.Basic
import Mathlib.Data.List.Pairwise

/-!
# Sorted association lists

Finite maps as association lists whose keys increase strictly under a three-way comparison
`cmp : K → K → Int` (negative, zero, positive). `put` stores a value under a key and `del` removes a
key. What they do where a search for the key ends is in `Cut`.
-/

namespace Resman.Lib

variable {K V : Type*}

/-- A comparison that is a strict total order in which only equal keys compare equal. -/
structure StrictTotal (cmp : K → K → Int) : Prop where
  eq_of_zero : ∀ {a b}, cmp a b = 0 → a = b
  self : ∀ a, cmp a a = 0
  swap : ∀ {a b}, cmp a b < 0 ↔ 0 < cmp b a
  trans : ∀ {a b c}, cmp a b < 0 → cmp b c < 0 → cmp a c < 0

namespace StrictTotal

variable {cmp : K → K → Int} (hc : StrictTotal cmp)

include hc

theorem ne_of_lt {a b : K} (h : cmp a b < 0) : a ≠ b := by
  rintro rfl
  have := hc.self a
  omega

theorem ne_of_gt {a b : K} (h : 0 < cmp a b) : a ≠ b := by
  rintro rfl
  have := hc.self a
  omega

theorem trichotomy (a b : K) : cmp a b < 0 ∨ a = b ∨ 0 < cmp a b := by
  rcases Int.lt_trichotomy (cmp a b) 0 with h | h | h
  · exact Or.inl h
  · exact Or.inr (Or.inl (hc.eq_of_zero h))
  · exact Or.inr (Or.inr h)

end StrictTotal

/-- The keys increase strictly along the list. -/
def Sorted (cmp : K → K → Int) (xs : List (K × V)) : Prop :=
  xs.Pairwise fun a b => cmp a.1 b.1 < 0

/-- The list with `v` stored under `k`. -/
def put (cmp : K → K → Int) (k : K) (v : V) (xs : List (K × V)) : List (K × V) :=
  xs.filter (fun e => decide (cmp e.1 k < 0)) ++ (k, v) ::
    xs.filter (fun e => decide (0 < cmp e.1 k))

/-- The list without the key `k`. -/
def del [DecidableEq K] (k : K) (xs : List (K × V)) : List (K × V) :=
  xs.filter fun e => decide (e.1 ≠ k)

section Sorted

variable {cmp : K → K → Int} {xs ys : List (K × V)} {k : K} {v : V}

/-- A list cut at one entry is sorted when both parts are and lie on the two sides of the entry. -/
theorem sorted_mid (hc : StrictTotal cmp) :
    Sorted cmp (xs ++ (k, v) :: ys) ↔ Sorted cmp xs ∧ Sorted cmp ys ∧
      (∀ e ∈ xs, cmp e.1 k < 0) ∧ (∀ e ∈ ys, cmp k e.1 < 0) := by
  unfold Sorted
  rw [List.pairwise_append, List.pairwise_cons]
  constructor
  · rintro ⟨hx, ⟨hk, hy⟩, hxy⟩
    exact ⟨hx, hy, fun e he => hxy e he (k, v) List.mem_cons_self, fun e he => hk e he⟩
  · rintro ⟨hx, hy, hxk, hky⟩
    refine ⟨hx, ⟨hky, hy⟩, fun a ha b hb => ?_⟩
    rcases List.mem_cons.1 hb with rfl | hb
    · exact hxk a ha
    · exact hc.trans (hxk a ha) (hky b hb)

theorem Sorted.nodup_keys (hc : StrictTotal cmp) (h : Sorted cmp xs) : (xs.map Prod.fst).Nodup := by
  unfold List.Nodup
  rw [List.pairwise_map]
  exact h.imp fun hab => hc.ne_of_lt hab

end Sorted

/-! ## Storing a value -/

section Put

variable {cmp : K → K → Int} {xs ys : List (K × V)} {k : K} {v : V}

theorem mem_put (hc : StrictTotal cmp) {e : K × V} :
    e ∈ put cmp k v xs ↔ e = (k, v) ∨ (e ∈ xs ∧ e.1 ≠ k) := by
  simp only [put, List.mem_append, List.mem_cons, List.mem_filter, decide_eq_true_eq]
  constructor
  · rintro (⟨he, hlt⟩ | rfl | ⟨he, hgt⟩)
    · exact Or.inr ⟨he, hc.ne_of_lt hlt⟩
    · exact Or.inl rfl
    · exact Or.inr ⟨he, hc.ne_of_gt hgt⟩
  · rintro (rfl | ⟨he, hne⟩)
    · exact Or.inr (Or.inl rfl)
    · rcases hc.trichotomy e.1 k with h | h | h
      · exact Or.inl ⟨he, h⟩
      · exact absurd h hne
      · exact Or.inr (Or.inr ⟨he, h⟩)

/-- Storing under a new key adds an entry. -/
theorem put_perm (hc : StrictTotal cmp) (h : ∀ e ∈ xs, e.1 ≠ k) :
    (put cmp k v xs).Perm ((k, v) :: xs) := by
  have hgt : xs.filter (fun e => decide (0 < cmp e.1 k)) =
      xs.filter fun e => !decide (cmp e.1 k < 0) := by
    refine List.filter_congr fun e he => ?_
    have hne : cmp e.1 k ≠ 0 := fun hz => h e he (hc.eq_of_zero hz)
    simp only [decide_not.symm, decide_eq_decide]
    omega
  rw [put, hgt]
  exact List.perm_middle.trans ((List.filter_append_perm _ xs).cons _)

theorem filter_lt_of_forall_gt (h : ∀ e ∈ ys, 0 < cmp e.1 k) :
    ys.filter (fun e => decide (cmp e.1 k < 0)) = [] :=
  List.filter_eq_nil_iff.2 fun e he => by have := h e he; simp; omega

theorem filter_gt_of_forall_lt (h : ∀ e ∈ xs, cmp e.1 k < 0) :
    xs.filter (fun e => decide (0 < cmp e.1 k)) = [] :=
  List.filter_eq_nil_iff.2 fun e he => by have := h e he; simp; omega

theorem filter_gt_of_forall_gt (h : ∀ e ∈ ys, 0 < cmp e.1 k) :
    ys.filter (fun e => decide (0 < cmp e.1 k)) = ys :=
  List.filter_eq_self.2 fun e he => by simpa using h e he

theorem filter_lt_of_forall_lt (h : ∀ e ∈ xs, cmp e.1 k < 0) :
    xs.filter (fun e => decide (cmp e.1 k < 0)) = xs :=
  List.filter_eq_self.2 fun e he => by simpa using h e he

end Put

/-! ## Removing a key -/

section Del

variable [DecidableEq K] {cmp : K → K → Int} {xs ys : List (K × V)} {k : K} {v : V}

theorem mem_del {e : K × V} : e ∈ del k xs ↔ e ∈ xs ∧ e.1 ≠ k := by simp [del]

theorem del_of_not_mem (h : ∀ e ∈ xs, e.1 ≠ k) : del k xs = xs :=
  List.filter_eq_self.2 fun e he => by simpa using h e he

end Del

end Resman.Lib
