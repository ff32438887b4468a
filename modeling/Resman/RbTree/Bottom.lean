import Mathlib.Logic.Relation
import Resman.RbTree.RedBlack

/-!
# Where the recursion of `delete` ends

`delete` and `del_min` call themselves once at most, so the calls of a deletion are a chain
(`Visits`), and it ends at a node where null is returned (`AtBottom`). In a left-leaning red-black
tree each call but the first is on a ready tree. This is what certifies that the left child at the
bottom is null: a ready tree without a left child, or without a right child after the rotation, is
one red node.
-/

namespace Resman.Rb

open RbNode
open Lib (StrictTotal)
open Relation (ReflTransGen)

variable {K V : Type}

/-! ## The chain of calls -/

/-- A call of `delete` or of `del_min`, by the subtree that it is on. -/
inductive Visit (K V : Type) where
  | delete (tree : RbNode K V)
  | delMin (tree : RbNode K V)

def Visit.tree : Visit K V → RbNode K V
  | .delete t => t
  | .delMin t => t

def Visit.result [DecidableEq K] (cmp : K → K → Int) (del : Bool) (key : K) :
    Visit K V → Option (RbNode K V × List (Call K V))
  | .delete t => Rb.delete cmp del t key
  | .delMin t => Rb.delMin del t

/-- The call that a call makes on its way down. -/
inductive Visits (cmp : K → K → Int) (key : K) : Visit K V → Visit K V → Prop
  | left {a c k d l r a' c' k' d' l' r'} :
      cmp key k < 0 → pushLeft (node a c k d l r) = some (node a' c' k' d' l' r') →
      Visits cmp key (.delete (node a c k d l r)) (.delete l')
  | right {a c k d l r t a' c' k' d' l' r'} :
      ¬ cmp key k < 0 → leanRight (node a c k d l r) = some t →
      ¬ (cmp key k = 0 ∧ t.right.all isNull) →
      pushRight t = some (node a' c' k' d' l' r') → key ≠ k' →
      Visits cmp key (.delete (node a c k d l r)) (.delete r')
  | successor {a c k d l r t a' c' k' d' l' r'} :
      ¬ cmp key k < 0 → leanRight (node a c k d l r) = some t →
      ¬ (cmp key k = 0 ∧ t.right.all isNull) →
      pushRight t = some (node a' c' k' d' l' r') → key = k' → (findMin r').isNull = false →
      Visits cmp key (.delete (node a c k d l r)) (.delMin r')
  | min {a c k d l r a' c' k' d' l' r'} :
      l.isNull = false → pushLeft (node a c k d l r) = some (node a' c' k' d' l' r') →
      Visits cmp key (.delMin (node a c k d l r)) (.delMin l')

/-- A call that returns null for the node that it has come to: in `delete`, with an equal comparison
and no right child, the node after the rotation; in `del_min`, a node without a left child. -/
inductive AtBottom (cmp : K → K → Int) (key : K) : Visit K V → RbNode K V → Prop
  | delete {a c k d l r t} : ¬ cmp key k < 0 → leanRight (node a c k d l r) = some t →
      cmp key k = 0 ∧ t.right.all isNull → AtBottom cmp key (.delete (node a c k d l r)) t
  | delMin {a c k d l r} : l.isNull = true →
      AtBottom cmp key (.delMin (node a c k d l r)) (node a c k d l r)

section Chain

variable [DecidableEq K] {cmp : K → K → Int} {del : Bool} {key : K}
  {v w : Visit K V} {u : RbNode K V}

theorem result_of_atBottom (del : Bool) (h : AtBottom cmp key v u) :
    ∃ calls, v.result cmp del key = some (null, calls) := by
  cases h with
  | @delete a c k d l r t hge hlean hz =>
    refine ⟨release del u, ?_⟩
    simp only [Visit.result]
    rw [delete_node, if_neg hge, hlean, Option.bind_some, if_pos hz]
  | @delMin a c k d l r hl =>
    refine ⟨release del l, ?_⟩
    simp only [Visit.result]
    rw [delMin_node, if_pos hl]

/-- The result of a call is that of the next, put back and fixed up. -/
theorem result_of_visits (del : Bool) (h : Visits cmp key v w) :
    ∃ put, v.result cmp del key = (w.result cmp del key).bind (fixUpWith put) := by
  cases h with
  | left hlt hpush =>
    simp only [Visit.result]
    rw [delete_node, if_pos hlt, hpush]
    exact ⟨_, rfl⟩
  | right hge hlean hz hpush hkey =>
    simp only [Visit.result]
    rw [delete_node, if_neg hge, hlean, Option.bind_some, if_neg hz, hpush]
    simp only [if_neg hkey]
    exact ⟨_, rfl⟩
  | @successor _ _ _ _ _ _ _ a' c' k' d' l' r' hge hlean hz hpush hkey hmin =>
    simp only [Visit.result]
    rw [delete_node, if_neg hge, hlean, Option.bind_some, if_neg hz, hpush]
    simp only [if_pos hkey]
    cases hm : findMin r' with
    | null =>
      rw [hm] at hmin
      cases hmin
    | node => exact ⟨_, rfl⟩
  | min hl hpush =>
    simp only [Visit.result]
    rw [delMin_node, if_neg (by rw [hl]; decide), hpush]
    exact ⟨_, rfl⟩

/-- A call that returns is on null, at the bottom, or makes another. -/
theorem visits_or_bottom {p : RbNode K V × List (Call K V)} (h : v.result cmp del key = some p) :
    v.tree = null ∨ (∃ u, AtBottom cmp key v u) ∨ ∃ w, Visits cmp key v w := by
  match v with
  | .delete null => exact .inl rfl
  | .delMin null => exact .inl rfl
  | .delMin (node a c k d l r) =>
    right
    cases hl : l.isNull with
    | true => exact .inl ⟨_, .delMin hl⟩
    | false =>
      simp only [Visit.result] at h
      rw [delMin_node, if_neg (by rw [hl]; decide)] at h
      split at h
      · next hpush => exact .inr ⟨_, .min hl hpush⟩
      · cases h
  | .delete (node a c k d l r) =>
    right
    simp only [Visit.result] at h
    rw [delete_node] at h
    by_cases hlt : cmp key k < 0
    · rw [if_pos hlt] at h
      split at h
      · next hpush => exact .inr ⟨_, .left hlt hpush⟩
      · cases h
    · rw [if_neg hlt] at h
      obtain ⟨t, hlean, h⟩ := Option.bind_eq_some_iff.1 h
      by_cases hz : cmp key k = 0 ∧ t.right.all isNull
      · exact .inl ⟨t, .delete hlt hlean hz⟩
      · right
        rw [if_neg hz] at h
        split at h
        · next a' c' k' d' l' r' hpush =>
          by_cases hkey : key = k'
          · rw [if_pos hkey] at h
            split at h
            · cases h
            · next hmin => exact ⟨_, .successor hlt hlean hz hpush hkey (by rw [hmin]; rfl)⟩
          · exact ⟨_, .right hlt hlean hz hpush hkey⟩
        · cases h

end Chain

/-! ## Ready trees -/

section Ready

variable {cmp : K → K → Int} {key : K} {v w : Visit K V} {u : RbNode K V}

def Visit.IsReady (v : Visit K V) : Prop := ∃ c n, Ready v.tree c n

/-- From a ready tree the next call is on a ready tree. -/
theorem Visit.IsReady.visits (h : v.IsReady) (hnext : Visits cmp key v w) : w.IsReady := by
  obtain ⟨c₀, n, h⟩ := h
  have hleft : ∀ {a c k d l r a' c' k' d' l' r'}, Ready (node a c k d l r) c₀ n → l.isNull = false →
      pushLeft (node a c k d l r) = some (node a' c' k' d' l' r' : RbNode K V) →
      ∃ c n, Ready l' c n := by
    intro a c k d l r a' c' k' d' l' r' hready hl hpush
    obtain ⟨_, _, _, _, _, _, cs, m, hpush', hready', -⟩ := pushLeft_ready hready hl
    rw [hpush] at hpush'
    cases hpush'
    exact ⟨cs, m, hready'⟩
  have hright : ∀ {a c k d l r t a' c' k' d' l' r'}, Ready (node a c k d l r) c₀ n →
      leanRight (node a c k d l r) = some t →
      pushRight t = some (node a' c' k' d' l' r' : RbNode K V) →
      ∃ c n, Ready r' c n := by
    intro a c k d l r t a' c' k' d' l' r' hready hlean hpush
    rcases lean_ready hready with ⟨hlean', -, -, rfl, rfl⟩ |
      ⟨t₁, _, _, _, _, _, _, cs, m, hlean', -, hpush', hready', -⟩
    · -- without a right child its left child cannot be read
      rw [hlean] at hlean'
      cases hlean'
      cases hpush
    · rw [hlean] at hlean'
      cases hlean'
      rw [hpush] at hpush'
      cases hpush'
      exact ⟨cs, m, hready'⟩
  cases hnext with
  | @left a c k d l r _ _ _ _ _ _ hlt hpush =>
    apply hleft h ?_ hpush
    cases l with
    | null => cases hpush
    | node => rfl
  | right hge hlean hz hpush hkey => exact hright h hlean hpush
  | successor hge hlean hz hpush hkey hmin => exact hright h hlean hpush
  | min hl hpush => exact hleft h hl hpush

/-- At the bottom of a ready tree is one node. -/
theorem Visit.IsReady.atBottom (h : v.IsReady) (hbottom : AtBottom cmp key v u) :
    ∃ a c k d, u = node a c k d null null ∧ nodes v.tree = [(a, k, d)] := by
  obtain ⟨c₀, n, h⟩ := h
  cases hbottom with
  | @delete a c k d l r t hge hlean hz =>
    rcases lean_ready h with ⟨hlean', -, -, rfl, rfl⟩ | ⟨t₁, _, _, _, _, _, _, _, _, hlean', hnn, -⟩
    · rw [hlean] at hlean'
      cases hlean'
      exact ⟨a, c, k, d, rfl, rfl⟩
    · rw [hlean] at hlean'
      cases hlean'
      rw [hz.2] at hnn
      cases hnn
  | @delMin a c k d l r hl =>
    cases l with
    | null =>
      obtain ⟨rfl, -, -⟩ := Ready.of_left_null h
      exact ⟨a, c, k, d, rfl, rfl⟩
    | node => cases hl

/-- Flipping the colour of the root changes neither the calls below it nor where it ends. -/
theorem Visits.flipRoot {t : RbNode K V} (h : Visits cmp key (.delete t) w) :
    Visits cmp key (.delete (Rb.flipRoot t)) w := by
  cases h with
  | @left a c k d l r a' c' k' d' l' r' hlt hpush =>
    have hflip := pushLeft_flipRoot (node a c k d l r)
    rw [hpush] at hflip
    exact .left hlt hflip
  | @right a c k d l r t a' c' k' d' l' r' hge hlean hz hpush hkey =>
    have hflip := leanRight_flipRoot (node a c k d l r)
    rw [hlean] at hflip
    have hflip' := pushRight_flipRoot t
    rw [hpush] at hflip'
    rw [← right_flipRoot t] at hz
    exact .right hge hflip hz hflip' hkey
  | @successor a c k d l r t a' c' k' d' l' r' hge hlean hz hpush hkey hmin =>
    have hflip := leanRight_flipRoot (node a c k d l r)
    rw [hlean] at hflip
    have hflip' := pushRight_flipRoot t
    rw [hpush] at hflip'
    rw [← right_flipRoot t] at hz
    exact .successor hge hflip hz hflip' hkey hmin

theorem AtBottom.flipRoot {t : RbNode K V} (h : AtBottom cmp key (.delete t) u) :
    AtBottom cmp key (.delete (Rb.flipRoot t)) (Rb.flipRoot u) := by
  cases h with
  | @delete a c k d l r t hge hlean hz =>
    have hflip := leanRight_flipRoot (node a c k d l r)
    rw [hlean] at hflip
    rw [← right_flipRoot u] at hz
    exact .delete hge hflip hz

/-- A tree with a black root is ready, as it is or with a red root. -/
theorem LL.ready_or_flip {t : RbNode K V} {n : Nat} (h : LL t false n) (ht : t.isNull = false) :
    (Visit.delete t).IsReady ∨ (Visit.delete (Rb.flipRoot t)).IsReady := by
  cases h with
  | leaf => cases ht
  | @black a k d l r c m hl hr =>
    cases c with
    | true => exact .inl ⟨false, m + 1, .three hl hr⟩
    | false => exact .inr ⟨true, m, .red hl hr⟩

/-- The first call of a deletion may be on a tree that is not ready; the later ones are. -/
theorem LL.visits {t : RbNode K V} {n : Nat} (h : LL t false n)
    (hreach : ReflTransGen (Visits cmp key) (.delete t) v) : v = .delete t ∨ v.IsReady := by
  induction hreach with
  | refl => exact .inl rfl
  | @tail v w _ hnext ih =>
    right
    rcases ih with rfl | hready
    · cases ht : t.isNull with
      | true =>
        cases t with
        | null => cases hnext
        | node => cases ht
      | false =>
        rcases h.ready_or_flip ht with hready | hready
        · exact hready.visits hnext
        · exact hready.visits hnext.flipRoot
    · exact hready.visits hnext

theorem LL.atBottom {t : RbNode K V} {n : Nat} (h : LL t false n)
    (hbottom : AtBottom cmp key (.delete t) u) :
    ∃ a c k d, u = node a c k d null null ∧ nodes t = [(a, k, d)] := by
  have ht : t.isNull = false := by
    cases hbottom with
    | delete => rfl
  rcases h.ready_or_flip ht with hready | hready
  · exact hready.atBottom hbottom
  · obtain ⟨a, c, k, d, hu, hnodes⟩ := hready.atBottom hbottom.flipRoot
    have hsame : nodes t = [(a, k, d)] := (nodes_flipRoot t).symm.trans hnodes
    cases u with
    | null => cases hu
    | node a' c' k' d' l' r' =>
      obtain ⟨rfl, -, rfl, rfl, rfl, rfl⟩ := RbNode.node.inj hu
      exact ⟨a', c', k', d', rfl, hsame⟩

/-- **What certifies that left is null.** Wherever the recursion of `delete` and `del_min`
from the root returns null for a node, that node has no children, and is the only one of
the subtree that is dropped. -/
theorem bottom_childless {t : RbNode K V} (h : LeftLeaning cmp t)
    (hreach : ReflTransGen (Visits cmp key) (.delete t) v) (hbottom : AtBottom cmp key v u) :
    ∃ a c k d, u = node a c k d null null ∧ nodes v.tree = [(a, k, d)] := by
  obtain ⟨n, hn⟩ := h.shape
  rcases hn.visits hreach with rfl | hready
  · exact hn.atBottom hbottom
  · exact hready.atBottom hbottom

/-- Of a red node under a black one: the red node is rotated up, and the deletion
of the other ends below it. -/
theorem bottom_childless_rotated :
    ∃ a c k d, (node 1 true 20 none null null : RbNode Int Nat) = node a c k d null null ∧
      nodes (Visit.delete (node 1 true 20 none null null : RbNode Int Nat)).tree = [(a, k, d)] := by
  have htree : LeftLeaning (fun x y : Int => x - y)
      (node 1 false 20 none (node 2 true 10 none null null) null : RbNode Int Nat) :=
    ⟨by simp [SearchTree, keys, traverse], rfl, by simp [NoRedRight], by simp [NoRedRedLeft], 1,
      by simp [blackCounts]⟩
  have hvisit : Visits (fun x y : Int => x - y) 20
      (.delete (node 1 false 20 none (node 2 true 10 none null null) null : RbNode Int Nat))
      (.delete (node 1 true 20 none null null)) :=
    .right (by decide) rfl (by decide) rfl (by decide)
  exact bottom_childless htree (.single hvisit) (.delete (by decide) rfl (by decide))

end Ready

/-! ## The bottom is reached -/

section Reached

variable {cmp : K → K → Int} {del : Bool} {key : K} {v w : Visit K V}

theorem Visits.isNull (h : Visits cmp key v w) : w.tree.isNull = false := by
  cases h with
  | left _ hpush => exact pushLeft_child hpush
  | right _ _ _ hpush _ => exact pushRight_child hpush
  | successor _ _ _ hpush _ _ => exact pushRight_child hpush
  | min _ hpush => exact pushLeft_child hpush

theorem Visits.countNodes_lt (h : Visits cmp key v w) : countNodes w.tree < countNodes v.tree := by
  cases h with
  | left _ hpush =>
    have hcount := countNodes_pushLeft hpush
    simp only [Visit.tree, countNodes] at hcount ⊢
    omega
  | right _ hlean _ hpush _ =>
    have hcount := (countNodes_pushRight hpush).trans (countNodes_leanRight hlean)
    simp only [Visit.tree, countNodes] at hcount ⊢
    omega
  | successor _ hlean _ hpush _ _ =>
    have hcount := (countNodes_pushRight hpush).trans (countNodes_leanRight hlean)
    simp only [Visit.tree, countNodes] at hcount ⊢
    omega
  | min _ hpush =>
    have hcount := countNodes_pushLeft hpush
    simp only [Visit.tree, countNodes] at hcount ⊢
    omega

/-- A deletion that returns has come to the bottom. -/
theorem bottom_of_result [DecidableEq K] (hv : v.tree.isNull = false)
    {p : RbNode K V × List (Call K V)} (h : v.result cmp del key = some p) :
    ∃ w u, ReflTransGen (Visits cmp key) v w ∧ AtBottom cmp key w u := by
  induction hN : countNodes v.tree using Nat.strong_induction_on generalizing v p with
  | _ N ih =>
    rcases visits_or_bottom h with hnull | ⟨u, hbottom⟩ | ⟨w, hnext⟩
    · rw [hnull] at hv
      cases hv
    · exact ⟨v, u, .refl, hbottom⟩
    · obtain ⟨put, hput⟩ := result_of_visits del hnext
      rw [hput] at h
      obtain ⟨q, hq, -⟩ := Option.bind_eq_some_iff.1 h
      obtain ⟨w', u, hreach, hbottom⟩ := ih _ (hN ▸ hnext.countNodes_lt) hnext.isNull hq rfl
      exact ⟨w', u, .head hnext hreach, hbottom⟩

theorem Deletes.ne_none {L : List (Addr × K × Option V)} {b : Ending}
    {o : Option (List (Addr × K × Option V) × List (Call K V))} (h : Deletes cmp del key L b o)
    (hb : b ≠ .lost) :
    o ≠ none := by
  cases h with
  | bottom => exact Option.some_ne_none _
  | inner => exact Option.some_ne_none _
  | lost => exact absurd rfl hb

/-- The deletion of a stored key comes to the bottom. -/
theorem bottom_reached [DecidableEq K] {rb : RbTree K V} (hc : StrictTotal rb.cmp)
    (hll : LeftLeaning rb.cmp rb.root) (hk : key ∈ keys rb.root) :
    ∃ v u, ReflTransGen (Visits rb.cmp key) (.delete rb.root) v ∧ AtBottom rb.cmp key v u := by
  have h : WF rb := hll.wf hc
  obtain ⟨xs, e, ys, rfl, hat⟩ := h.at_of_mem hk
  obtain ⟨n, hn⟩ := h.shape
  have hroot : rb.root.isNull = false := isNull_of_nodes (List.ne_nil_of_mem hat.mem)
  have hends := (delete_root_ends rb.cmp rb.del e.2.1 hn hroot).1
  have hlost : ending rb.cmp rb.root e.2.1 ≠ .lost := by
    rw [ending_of_at (h.total.self e.2.1) hat]
    split
    · decide
    · rw [if_pos rfl]
      decide
  cases hdel : delete rb.cmp rb.del rb.root e.2.1 with
  | none =>
    rw [hdel] at hends
    exact absurd rfl (hends.ne_none hlost)
  | some p => exact bottom_of_result (v := .delete rb.root) hroot hdel

end Reached

end Resman.Rb
