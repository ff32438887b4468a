import Resman.Lib.Cut
import Resman.RbTree.Shape

/-!
# Where a search ends

`rb_find` and `insert` go down a tree by the same comparisons, and these end at a node (`SearchAt`)
or at a null pointer between two runs of nodes (`SearchGap`), whatever the comparison is: nothing
here asks for an order. In a tree that is in order, the search ends where the key cuts the nodes
(`searchAt_of_at`, `searchGap_of_gap`).
-/

namespace Resman.Rb

open RbNode
open Lib (At Gap)

variable {K V : Type}

/-- The search ends at a null pointer, `xs` being the nodes to the left of it. -/
inductive SearchGap (cmp : K → K → Int) (key : K) :
    RbNode K V → List (Addr × K × Option V) → List (Addr × K × Option V) → Prop
  | null : SearchGap cmp key null [] []
  | left {a c k d l r xs ys} : cmp key k < 0 → SearchGap cmp key l xs ys →
      SearchGap cmp key (node a c k d l r) xs (ys ++ (a, k, d) :: nodes r)
  | right {a c k d l r xs ys} : 0 < cmp key k → SearchGap cmp key r xs ys →
      SearchGap cmp key (node a c k d l r) (nodes l ++ (a, k, d) :: xs) ys

/-- The search ends at the node `e`. -/
inductive SearchAt (cmp : K → K → Int) (key : K) : RbNode K V → List (Addr × K × Option V) →
    Addr × K × Option V → List (Addr × K × Option V) → Prop
  | here {a c k d l r} : cmp key k = 0 →
      SearchAt cmp key (node a c k d l r) (nodes l) (a, k, d) (nodes r)
  | left {a c k d l r xs e ys} : cmp key k < 0 → SearchAt cmp key l xs e ys →
      SearchAt cmp key (node a c k d l r) xs e (ys ++ (a, k, d) :: nodes r)
  | right {a c k d l r xs e ys} : 0 < cmp key k → SearchAt cmp key r xs e ys →
      SearchAt cmp key (node a c k d l r) (nodes l ++ (a, k, d) :: xs) e ys

variable {cmp : K → K → Int} {t : RbNode K V} {key : K} {xs ys : List (Addr × K × Option V)}
  {e : Addr × K × Option V}

theorem search_cases (cmp : K → K → Int) (key : K) (t : RbNode K V) :
    (∃ xs e ys, SearchAt cmp key t xs e ys) ∨ ∃ xs ys, SearchGap cmp key t xs ys := by
  induction t with
  | null => exact .inr ⟨_, _, .null⟩
  | node a c k d l r ihl ihr =>
    rcases Int.lt_trichotomy (cmp key k) 0 with hlt | hz | hgt
    · rcases ihl with ⟨xs, e, ys, h⟩ | ⟨xs, ys, h⟩
      · exact .inl ⟨_, _, _, .left hlt h⟩
      · exact .inr ⟨_, _, .left hlt h⟩
    · exact .inl ⟨_, _, _, .here hz⟩
    · rcases ihr with ⟨xs, e, ys, h⟩ | ⟨xs, ys, h⟩
      · exact .inl ⟨_, _, _, .right hgt h⟩
      · exact .inr ⟨_, _, .right hgt h⟩

theorem SearchGap.split (h : SearchGap cmp key t xs ys) : nodes t = xs ++ ys := by
  induction h with
  | null => rfl
  | left _ _ ih => rw [nodes_node, ih, List.append_assoc]
  | right _ _ ih => rw [nodes_node, ih, List.append_assoc, List.cons_append]

theorem SearchAt.split (h : SearchAt cmp key t xs e ys) : nodes t = xs ++ e :: ys := by
  induction h with
  | here => rfl
  | left _ _ ih => rw [nodes_node, ih, List.append_assoc, List.cons_append]
  | right _ _ ih => rw [nodes_node, ih, List.append_assoc, List.cons_append]

theorem SearchAt.equal (h : SearchAt cmp key t xs e ys) : cmp key e.2.1 = 0 := by
  induction h with
  | here hz => exact hz
  | left _ _ ih => exact ih
  | right _ _ ih => exact ih

theorem SearchAt.mem (h : SearchAt cmp key t xs e ys) : e ∈ nodes t := by simp [h.split]

/-! ## `rb_find` -/

theorem SearchAt.find (h : SearchAt cmp key t xs e ys) : Rb.find cmp t key = e.2.2 := by
  induction h with
  | here hz => rw [Rb.find, if_pos hz]
  | left hlt _ ih => rw [Rb.find, if_neg (by omega), if_pos hlt, ih]
  | right hgt _ ih => rw [Rb.find, if_neg (by omega), if_neg (by omega), ih]

theorem SearchGap.find (h : SearchGap cmp key t xs ys) : Rb.find cmp t key = none := by
  induction h with
  | null => rfl
  | left hlt _ ih => rw [Rb.find, if_neg (by omega), if_pos hlt, ih]
  | right hgt _ ih => rw [Rb.find, if_neg (by omega), if_neg (by omega), ih]

/-- A search that meets no equal key returns null. -/
theorem find_none (h : ∀ e ∈ nodes t, cmp key e.2.1 ≠ 0) : find cmp t key = none := by
  rcases search_cases cmp key t with ⟨xs, e, ys, hat⟩ | ⟨xs, ys, hgap⟩
  · exact absurd hat.equal (h e hat.mem)
  · exact hgap.find

/-! ## The keys that a search meets -/

/-- All keys that the search compares with have the property. -/
def OnPath (cmp : K → K → Int) (key : K) (P : K → Prop) : RbNode K V → Prop
  | null => True
  | node _ _ k _ l r =>
    P k ∧ if cmp key k < 0 then OnPath cmp key P l else if 0 < cmp key k then OnPath cmp key P r
      else True

instance OnPath.decidable (P : K → Prop) [DecidablePred P] : ∀ t :
    RbNode K V, Decidable (OnPath cmp key P t)
  | null => isTrue trivial
  | node _ _ k _ l r =>
    haveI := OnPath.decidable P l
    haveI := OnPath.decidable P r
    inferInstanceAs (Decidable (P k ∧
      if cmp key k < 0 then OnPath cmp key P l else if 0 < cmp key k then OnPath cmp key P r
        else True))

theorem onPath_true : OnPath cmp key (fun _ => True) t := by
  induction t with
  | null => trivial
  | node a c k d l r ihl ihr =>
    refine ⟨trivial, ?_⟩
    split
    · exact ihl
    · split
      · exact ihr
      · trivial

theorem OnPath.imp {P Q : K → Prop} (h : OnPath cmp key P t)
    (hPQ : ∀ e ∈ nodes t, P e.2.1 → Q e.2.1) :
    OnPath cmp key Q t := by
  induction t with
  | null => trivial
  | node a c k d l r ihl ihr =>
    obtain ⟨hk, hrest⟩ := h
    refine ⟨hPQ (a, k, d) (by simp [nodes]) hk, ?_⟩
    split
    · next hlt =>
      rw [if_pos hlt] at hrest
      exact ihl hrest fun e he => hPQ e (by simp [nodes, he])
    · next hlt =>
      rw [if_neg hlt] at hrest
      split
      · next hgt =>
        rw [if_pos hgt] at hrest
        exact ihr hrest fun e he => hPQ e (by simp [nodes, he])
      · trivial

theorem onPath_of_forall {P : K → Prop} (h : ∀ e ∈ nodes t, P e.2.1) : OnPath cmp key P t :=
  onPath_true.imp fun e he _ => h e he

/-- Two comparisons that agree along the path find the same. -/
theorem find_congr {cmp' : K → K → Int} (h : OnPath cmp key (fun k => cmp key k = cmp' key k) t) :
    find cmp t key = find cmp' t key := by
  induction t with
  | null => rfl
  | node a c k d l r ihl ihr =>
    obtain ⟨hk, hrest⟩ := h
    rw [find, find, ← hk]
    rcases Int.lt_trichotomy (cmp key k) 0 with hlt | hz | hgt
    · rw [if_pos hlt] at hrest
      rw [if_neg (by omega), if_pos hlt, if_neg (by omega), if_pos hlt, ihl hrest]
    · rw [if_pos hz, if_pos hz]
    · rw [if_neg (by omega), if_pos hgt] at hrest
      rw [if_neg (by omega), if_neg (by omega), if_neg (by omega), if_neg (by omega), ihr hrest]

/-! ## Trees in order -/

theorem searchGap_of_gap (h : Gap (fun e => cmp key e.2.1) (nodes t) xs ys) :
    SearchGap cmp key t xs ys := by
  induction t generalizing xs ys with
  | null =>
    obtain ⟨rfl, rfl⟩ := List.append_eq_nil_iff.1 h.split.symm
    exact .null
  | node a c k d l r ihl ihr =>
    have hne : cmp key k ≠ 0 := h.ne_zero (a := (a, k, d)) (by simp [nodes])
    rcases Int.lt_or_gt_of_ne hne with hlt | hgt
    · obtain ⟨zs, rfl, hl⟩ := h.of_neg (m := (a, k, d)) hlt
      exact .left hlt (ihl hl)
    · obtain ⟨zs, rfl, hr⟩ := h.of_pos (m := (a, k, d)) hgt
      exact .right hgt (ihr hr)

theorem searchAt_of_at (h : At (fun e => cmp key e.2.1) (nodes t) xs e ys) :
    SearchAt cmp key t xs e ys := by
  induction t generalizing xs ys with
  | null => exact absurd h.mem (by simp [nodes])
  | node a c k d l r ihl ihr =>
    rcases Int.lt_trichotomy (cmp key k) 0 with hlt | hz | hgt
    · obtain ⟨zs, rfl, hl⟩ := h.of_neg (m := (a, k, d)) hlt
      exact .left hlt (ihl hl)
    · obtain ⟨rfl, rfl, rfl⟩ := h.of_zero (m := (a, k, d)) hz
      exact .here hz
    · obtain ⟨zs, rfl, hr⟩ := h.of_pos (m := (a, k, d)) hgt
      exact .right hgt (ihr hr)

end Resman.Rb
