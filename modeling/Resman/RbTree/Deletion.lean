import Resman.Lib.Cut
import Resman.RbTree.Order

/-!
# What `del_min` and `delete` return

`delete` decides twice that it has found the key: by the comparison when there is no right child,
and by the key pointer otherwise. `ending` says which of the two comes first, and `Deletes` what
comes of it, under any comparison (`delete_ends`):
* at the bottom the node is released and gone;
* above it, the entry of the successor takes the place of the entry, the successor's node is
  dropped, and what is released is null;
* otherwise the search goes on to a null pointer and reads it.

In a tree in order, a key that compares equal to a node is found at the bottom when that node has no
right child (`foundAtBottom`), and above it when it is the node's own key pointer
(`delete_removes`). A key that compares equal to no node ends at a null pointer in every tree
(`delete_absent`).
-/

namespace Resman.Rb

open RbNode
open Lib (At)

variable {K V : Type} {cmp : K → K → Int} {t : RbNode K V} {c : Bool} {n : Nat} {key : K}
  {xs ys : List (Addr × K × Option V)} {e : Addr × K × Option V}

/-! ## The shape that the recursion works on -/

theorem Ready.node (h : Ready t c n) : ∃ a x k d l r, t = node a x k d l r := by
  cases h with
  | red => exact ⟨_, _, _, _, _, _, rfl⟩
  | three => exact ⟨_, _, _, _, _, _, rfl⟩

/-- A ready tree without a left child is a single red node. -/
theorem Ready.of_left_null {a : Addr} {x : Bool} {k : K} {d : Option V} {r : RbNode K V}
    (h : Ready (.node a x k d null r) c n) : r = null ∧ n = 0 ∧ c = true := by
  cases h with
  | red hl hr =>
    cases hl
    exact ⟨hr.zero, rfl, rfl⟩
  | three hl _ => cases hl

/-- The recursion's result put back, as the callers of `fixUpWith` see it. -/
theorem Refills.fixUpWith {cs : Bool} {m : Nat} {put : RbNode K V → RbNode K V}
    (h : Refills c n cs m put) {sub : RbNode K V} (calls : List (Call K V)) {cs' : Bool}
    (hsub : LL sub cs' m) (hcs : cs = false → cs' = false) :
    ∃ t' c', Rb.fixUpWith put (sub, calls) = some (t', calls) ∧ nodes t' = nodes (put sub) ∧
      LL t' c' n ∧ (c = false → c' = false) := by
  obtain ⟨t', c', hf, ht, hc⟩ := h sub cs' hsub hcs
  exact ⟨t', c', by simp [Rb.fixUpWith, hf], nodes_fixUp hf, ht, hc⟩

/-- The calls for a node, or for null. -/
def released (del : Bool) (e : Option (Addr × K × Option V)) : List (Call K V) :=
  (if del then [.del e] else []) ++ [.free (e.map Prod.fst)]

theorem release_node (del : Bool) (a : Addr) (x : Bool) (k : K) (d : Option V) (l r : RbNode K V) :
    release del (.node a x k d l r) = released del (some (a, k, d)) := rfl

/-! ## The minimum -/

/-- `del_min` drops the first node, and releases null. -/
theorem delMin_spec (del : Bool) (h : Ready t c n) :
    ∃ t' c', delMin del t = some (t', released del none) ∧ nodes t' = (nodes t).tail ∧
      LL t' c' n ∧ (c = false → c' = false) := by
  induction hN : countNodes t using Nat.strong_induction_on generalizing t c n with
  | _ N ih =>
    obtain ⟨a, x, k, d, l, r, rfl⟩ := h.node
    rw [delMin_node]
    cases l with
    | null =>
      obtain ⟨rfl, rfl, rfl⟩ := h.of_left_null
      exact ⟨null, false, rfl, rfl, .leaf, fun _ => rfl⟩
    | node al xl kl dl ll rl =>
      obtain ⟨a', x', k', d', l', r', cs, m, hpush, hready, hrefill, -⟩ := pushLeft_ready h rfl
      have hcount := countNodes_pushLeft hpush
      obtain ⟨l'', cs', hrec, htail, hll, hcs⟩ := ih (countNodes l')
        (by simp only [countNodes] at hcount hN ⊢; omega) hready rfl
      obtain ⟨t', c', hfix, ht', hLL, hc'⟩ := hrefill.fixUpWith (released del none) hll hcs
      obtain ⟨al', xl', kl', dl', ll', rl', rfl⟩ := hready.node
      refine ⟨t', c', ?_, ?_, hLL, hc'⟩
      · simp only [isNull_node, Bool.false_eq_true, ↓reduceIte, hpush, hrec, Option.bind_some, hfix]
      · rw [ht', ← nodes_pushLeft hpush, nodes_node, nodes_node, htail, List.tail_append_of_ne_nil]
        simp [nodes_node]

/-! ## A key that is not stored -/

/-- A node that comes out of `move_red_left` has both children. -/
theorem moveRedLeft_children {t : RbNode K V} {a : Addr} {c : Bool} {k : K} {d : Option V}
    {l r : RbNode K V} (h : moveRedLeft t = some (.node a c k d l r)) :
    l.isNull = false ∧ r.isNull = false := by
  have hflip : ∀ {t u : RbNode K V}, colorFlip t = some u → ∃ a c k d l r,
      u = .node a c k d l r ∧ l.isNull = false ∧ r.isNull = false := by
    intro t u hu
    unfold colorFlip at hu
    split at hu
    · obtain rfl := Option.some.inj hu
      exact ⟨_, _, _, _, _, _, rfl, rfl, rfl⟩
    · cases hu
  have hchildren : ∀ {u : RbNode K V}, (∃ a c k d l r,
      u = .node a c k d l r ∧ l.isNull = false ∧ r.isNull = false) → u = .node a c k d l r →
      l.isNull = false ∧ r.isNull = false := by
    rintro u ⟨a', c', k', d', l', r', rfl, hl, hr⟩ heq
    obtain ⟨-, -, -, -, rfl, rfl⟩ := RbNode.node.inj heq
    exact ⟨hl, hr⟩
  obtain ⟨u, hu, h⟩ := Option.bind_eq_some_iff.1 h
  obtain ⟨a', c', k', d', l', r', rfl, hl, hr⟩ := hflip hu
  obtain ⟨rl, -, h⟩ := Option.bind_eq_some_iff.1 h
  split at h
  · obtain ⟨v, -, hv⟩ := Option.bind_eq_some_iff.1 h
    exact hchildren (hflip hv) rfl
  · exact hchildren ⟨_, _, _, _, _, _, rfl, hl, hr⟩ (Option.some.inj h)

/-- `pushLeft` reads the left child, so the child that is descended into is there. -/
theorem pushLeft_child {t : RbNode K V} {a : Addr} {c : Bool} {k : K} {d : Option V}
    {l r : RbNode K V} (h : pushLeft t = some (.node a c k d l r)) : l.isNull = false := by
  rcases pushLeft_cases h with rfl | hmove
  · cases l with
    | null => cases h
    | node => rfl
  · exact (moveRedLeft_children hmove).1

theorem pushRight_child {t : RbNode K V} {a : Addr} {c : Bool} {k : K} {d : Option V}
    {l r : RbNode K V} (h : pushRight t = some (.node a c k d l r)) : r.isNull = false := by
  rcases pushRight_cases h with rfl | hmove
  · cases r with
    | null => cases h
    | node => rfl
  · exact (moveRedLeft_children hmove).2

/-- Below a root, the search for a key that is not stored ends at a null pointer that is read. -/
theorem delete_absent [DecidableEq K] (del : Bool) (ht : t.isNull = false)
    (h : ∀ e ∈ nodes t, cmp key e.2.1 ≠ 0 ∧ key ≠ e.2.1) : delete cmp del t key = none := by
  induction hN : countNodes t using Nat.strong_induction_on generalizing t with
  | _ N ih =>
    cases t with
    | null => cases ht
    | node a c k d l r =>
      have hne : cmp key k ≠ 0 := (h (a, k, d) (by simp [nodes])).1
      rw [delete_node]
      split
      · split
        · next a' c' k' d' l' r' hpush =>
          rw [← nodes_pushLeft hpush] at h
          have hcount := countNodes_pushLeft hpush
          simp only [countNodes] at hcount hN
          rw [ih _ (by omega) (pushLeft_child hpush) (fun e he => h e (by simp [nodes, he])) rfl]
          rfl
        · rfl
      · cases hlean : leanRight (.node a c k d l r) with
        | none => rfl
        | some u =>
          simp only [Option.bind_some, hne, false_and, if_false]
          split
          · next a' c' k' d' l' r' hpush =>
            rw [← nodes_leanRight hlean, ← nodes_pushRight hpush] at h
            have hcount := (countNodes_pushRight hpush).trans (countNodes_leanRight hlean)
            simp only [countNodes] at hcount hN
            rw [if_neg (h (a', k', d') (by simp [nodes])).2,
              ih _ (by omega) (pushRight_child hpush) (fun e he => h e (by simp [nodes, he])) rfl]
            rfl
          · rfl

/-! ## Any key -/

/-- What comes of deleting a key from a tree with these nodes: the nodes that are left and the
calls, or nothing when a null pointer is read. -/
inductive Deletes (cmp : K → K → Int) (del : Bool) (key : K) (L : List (Addr × K × Option V)) :
    Ending → Option (List (Addr × K × Option V) × List (Call K V)) → Prop
  | bottom {L₁ n L₂} : L = L₁ ++ n :: L₂ → cmp key n.2.1 = 0 →
      Deletes cmp del key L .bottom (some (L₁ ++ L₂, released del (some n)))
  | inner {L₁ n m L₂} : L = L₁ ++ n :: m :: L₂ → key = n.2.1 →
      Deletes cmp del key L .inner (some (L₁ ++ (n.1, m.2) :: L₂, released del none))
  | lost : Deletes cmp del key L .lost none

/-- The outcome in a subtree, seen from a tree with more nodes on both sides. -/
theorem Deletes.wrap {del : Bool} {M : List (Addr × K × Option V)} {b : Ending}
    {o : Option (List (Addr × K × Option V) × List (Call K V))} (h : Deletes cmp del key M b o)
    (L R : List (Addr × K × Option V)) :
    Deletes cmp del key (L ++ M ++ R) b (o.map fun p => (L ++ p.1 ++ R, p.2)) := by
  cases h with
  | @bottom L₁ n L₂ hM hz =>
    have hsplit : L ++ M ++ R = (L ++ L₁) ++ n :: (L₂ ++ R) := by simp [hM]
    have hwhole : Deletes cmp del key (L ++ M ++ R) .bottom _ := .bottom hsplit hz
    simpa using hwhole
  | @inner L₁ n m L₂ hM hk =>
    have hsplit : L ++ M ++ R = (L ++ L₁) ++ n :: m :: (L₂ ++ R) := by simp [hM]
    have hwhole : Deletes cmp del key (L ++ M ++ R) .inner _ := .inner hsplit hk
    simpa using hwhole
  | lost => exact .lost

/-- The nodes and the calls of a result. -/
abbrev outcome (p : RbNode K V × List (Call K V)) : List (Addr × K × Option V) × List (Call K V) :=
  (nodes p.1, p.2)

/-- What a deletion returns from a subtree of black height `n` with the nodes `L`: what comes of the
key, in a left-leaning tree of that height, with a black root if `c` is. -/
def Returns (cmp : K → K → Int) (del : Bool) (key : K) (c : Bool) (n : Nat)
    (L : List (Addr × K × Option V)) (b : Ending) (o : Option (RbNode K V × List (Call K V))) :
    Prop :=
  Deletes cmp del key L b (o.map outcome) ∧ ∀ p, o = some p → ∃ c', LL p.1 c' n ∧
    (c = false → c' = false)

theorem Returns.lost (cmp : K → K → Int) (del : Bool) (key : K) (c : Bool) (n : Nat)
    (L : List (Addr × K × Option V)) : Returns cmp del key c n L .lost none :=
  ⟨.lost, fun _ h => nomatch h⟩

/-- The recursion's result put back. -/
theorem Returns.putBack {del : Bool} {cs : Bool} {m : Nat} {b : Ending}
    {L M R : List (Addr × K × Option V)} {o : Option (RbNode K V × List (Call K V))}
    {put : RbNode K V → RbNode K V} (hrefill : Refills c n cs m put)
    (hput : ∀ s, nodes (put s) = L ++ nodes s ++ R) (h : Returns cmp del key cs m M b o) :
    Returns cmp del key c n (L ++ M ++ R) b (o.bind (Rb.fixUpWith put)) := by
  obtain ⟨hrem, hshape⟩ := h
  cases o with
  | none => exact ⟨hrem.wrap L R, fun _ h => nomatch h⟩
  | some p =>
    obtain ⟨cs', hll, hcs⟩ := hshape p rfl
    obtain ⟨t', c', hfix, ht', hLL, hc'⟩ := hrefill.fixUpWith p.2 hll hcs
    rw [Option.bind_some, hfix]
    refine ⟨?_, fun q hq => ?_⟩
    · simpa only [Option.map_some, outcome, ht', hput] using hrem.wrap L R
    · obtain rfl := Option.some.inj hq
      exact ⟨c', hLL, hc'⟩

/-- At a node without children, where the search does not go to the left. -/
theorem delete_single [DecidableEq K] (del : Bool) {a : Addr} {x : Bool} {k : K} {d : Option V}
    (hlt : ¬ cmp key k < 0) :
    Returns cmp del key true 0 (nodes (.node a x k d null null))
      (ending cmp (.node a x k d null null : RbNode K V) key)
      (delete cmp del (.node a x k d null null) key) := by
  have hlean : leanRight (.node a x k d null null : RbNode K V) = some (.node a x k d null null) :=
    rfl
  rw [delete_node, if_neg hlt, hlean, Option.bind_some]
  by_cases hz : cmp key k = 0
  · have hbottom : ending cmp (.node a x k d null null : RbNode K V) key = .bottom := by
      simp [ending, hz, redWithKey]
    rw [hbottom, if_pos ⟨hz, rfl⟩, release_node]
    refine ⟨.bottom (show _ = [] ++ (a, k, d) :: [] from rfl) hz, fun p hp => ?_⟩
    obtain rfl := Option.some.inj hp
    exact ⟨false, .leaf, fun _ => rfl⟩
  · have hlost : ending cmp (.node a x k d null null : RbNode K V) key = .lost := by
      simp [ending, hlt, hz, redWithKey]
    rw [hlost, if_neg (fun hand => hz hand.1)]
    have hpush : pushRight (.node a x k d null null : RbNode K V) = none := by
      simp [pushRight, RbNode.left]
    simp only [hpush]
    exact .lost cmp del key true 0 _

/-- At the node of the key, the successor takes the place of the entry. -/
theorem delMin_successor (cmp : K → K → Int) (del : Bool) {a : Addr} {x : Bool} {d : Option V}
    {l r : RbNode K V} {cs : Bool} {m : Nat} (hready : Ready r cs m)
    (hrefill : ∀ k d, Refills c n cs m (fun r' => .node a x k d l r')) :
    Returns cmp del key c n (nodes l ++ (a, key, d) :: nodes r) .inner
      (match findMin r with
        | null => none
        | .node _ _ km dm _ _ => (delMin del r).bind
            (Rb.fixUpWith fun r' => .node a x km dm l r')) := by
  have hnull : r.isNull = false := by
    obtain ⟨_, _, _, _, _, _, rfl⟩ := hready.node
    rfl
  obtain ⟨am, cm, km, dm, lm, rm, hmin, hhead⟩ := findMin_head r hnull
  obtain ⟨r', cs', hdel, htail, hrr, hcs⟩ := delMin_spec del hready
  obtain ⟨t', c', hfix, ht', hLL, hc'⟩ := (hrefill km dm).fixUpWith (released del none) hrr hcs
  obtain ⟨ys', hys⟩ : ∃ ys', nodes r = (am, km, dm) :: ys' := by
    cases hn : nodes r with
    | nil => rw [hn] at hhead; cases hhead
    | cons e ys' =>
      rw [hn] at hhead
      exact ⟨ys', by rw [Option.some.inj hhead]⟩
  rw [hys, List.tail_cons] at htail
  simp only [hmin, hdel, Option.bind_some, hfix, hys]
  refine ⟨?_, fun p hp => ?_⟩
  · rw [Option.map_some, outcome, ht', nodes_node, htail]
    exact .inner (n := (a, key, d)) rfl rfl
  · obtain rfl := Option.some.inj hp
    exact ⟨c', hLL, hc'⟩

/-- **Deletion** in a ready tree, under any comparison: the outcome, and the
shape of what comes back. -/
theorem delete_ends [DecidableEq K] (cmp : K → K → Int) (del : Bool) (key : K) (h : Ready t c n) :
    Deletes cmp del key (nodes t) (ending cmp t key) ((delete cmp del t key).map outcome) ∧
      ∀ p, delete cmp del t key = some p → ∃ c', LL p.1 c' n ∧ (c = false → c' = false) := by
  show Returns cmp del key c n (nodes t) (ending cmp t key) (delete cmp del t key)
  induction hN : countNodes t using Nat.strong_induction_on generalizing t c n with
  | _ N ih =>
    obtain ⟨a, x, k, d, l, r, rfl⟩ := h.node
    by_cases hlt : cmp key k < 0
    · rw [delete_node, if_pos hlt]
      cases hnull : l.isNull with
      | true =>
        obtain rfl : l = null := by
          cases l with
          | null => rfl
          | node => cases hnull
        have hlost : ending cmp (.node a x k d null r) key = .lost := by
          rw [ending, if_pos hlt, ending]
        have hpush : pushLeft (.node a x k d null r) = none := by simp [pushLeft, RbNode.left]
        rw [hlost, hpush]
        exact .lost cmp del key c n _
      | false =>
        obtain ⟨a', x', k', d', l', r', cs, m, hpush, hready, hrefill, hend⟩ :=
          pushLeft_ready h hnull
        have hcount := countNodes_pushLeft hpush
        have hrec := ih (countNodes l') (by simp only [countNodes] at hcount hN ⊢; omega) hready rfl
        have hending : ending cmp (.node a x k d l r) key = ending cmp l' key := by
          rw [ending, if_pos hlt, hend cmp key hlt]
        have hnodes : [] ++ nodes l' ++ (a', k', d') :: nodes r' = nodes (.node a x k d l r) :=
          nodes_pushLeft hpush
        rw [hpush, hending, ← hnodes]
        exact hrec.putBack hrefill fun s => by simp [nodes]
    · rcases lean_ready h with ⟨-, rfl, rfl, rfl, rfl⟩ |
        ⟨t₁, a', x', k', d', l', r', cs, m, hlean, hnn, hpush, hready, hrefill, hend⟩
      · exact delete_single del hlt
      · have hcount : countNodes (.node a' x' k' d' l' r') = countNodes (.node a x k d l r) := by
          rw [countNodes_pushRight hpush, countNodes_leanRight hlean]
        have hnodes : nodes l' ++ (a', k', d') :: nodes r' = nodes (.node a x k d l r) := by
          rw [← nodes_leanRight hlean, ← nodes_pushRight hpush, nodes_node]
        rw [delete_node, if_neg hlt, hend cmp key hlt, ← hnodes]
        simp only [hlean, Option.bind_some, hnn, Bool.false_eq_true, and_false, ↓reduceIte, hpush]
        by_cases hkey : key = k'
        · subst hkey
          rw [if_pos rfl, if_pos rfl]
          exact delMin_successor cmp del hready hrefill
        · rw [if_neg hkey, if_neg hkey]
          have hrec := ih (countNodes r')
            (by simp only [countNodes] at hcount hN ⊢; omega) hready rfl
          have hwhole := hrec.putBack (L := nodes l' ++ [(a', k', d')]) (R := []) (hrefill k' d')
            fun s => by simp [nodes]
          simpa only [List.append_assoc, List.singleton_append, List.append_nil] using hwhole

/-! ## The colour of the root -/

/-- A result with the colour of its root inverted. -/
def flipResult (p : RbNode K V × List (Call K V)) : RbNode K V × List (Call K V) :=
  (flipRoot p.1, p.2)

theorem fixUpWith_flipRoot (put : RbNode K V → RbNode K V)
    (o : Option (RbNode K V × List (Call K V))) :
    o.bind (fixUpWith fun s => flipRoot (put s)) = (o.bind (fixUpWith put)).map flipResult := by
  cases o with
  | none => rfl
  | some p =>
    simp only [Option.bind_some, fixUpWith, fixUp_flipRoot]
    cases fixUp (put p.1) <;> rfl

theorem release_flipRoot (del : Bool) (t : RbNode K V) :
    release del (flipRoot t) = release del t := by
  cases t <;> rfl

/-- `delete` does not read the colour of the root it is given. -/
theorem delete_flipRoot [DecidableEq K] (cmp : K → K → Int) (del : Bool)
    (t : RbNode K V) (key : K) :
    delete cmp del (flipRoot t) key = (delete cmp del t key).map flipResult := by
  cases t with
  | null =>
    rw [flipRoot, delete]
    rfl
  | node a x k d l r =>
    have hroot : flipRoot (node a x k d l r) = node a (!x) k d l r := rfl
    rw [hroot, delete_node, ← hroot, pushLeft_flipRoot, leanRight_flipRoot, delete_node]
    split
    · cases pushLeft (node a x k d l r) with
      | none => rfl
      | some u =>
        cases u with
        | null => rfl
        | node a' x' k' d' l' r' => exact fixUpWith_flipRoot (fun l'' => node a' x' k' d' l'' r') _
    · cases leanRight (node a x k d l r) with
      | none => rfl
      | some u =>
        simp only [Option.map_some, Option.bind_some, right_flipRoot, pushRight_flipRoot,
          release_flipRoot]
        split
        · rfl
        · cases pushRight u with
          | none => rfl
          | some v =>
            cases v with
            | null => rfl
            | node a' x' k' d' l' r' =>
              simp only [Option.map_some, flipRoot]
              split
              · cases findMin r' with
                | null => rfl
                | node _ _ km dm _ _ =>
                  exact fixUpWith_flipRoot (fun r'' => node a' x' km dm l' r'') _
              · exact fixUpWith_flipRoot (fun r'' => node a' x' k' d' l' r'') _

theorem nodes_flipRoot (t : RbNode K V) : nodes (flipRoot t) = nodes t := by cases t <;> rfl

/-- **Deletion at a black root**: a root without a red child is deleted from as if it were red, so
that the result may have a root of either colour. -/
theorem delete_root_ends [DecidableEq K] (cmp : K → K → Int) (del : Bool)
    (key : K) (h : LL t false n) (ht : t.isNull = false) :
    Deletes cmp del key (nodes t) (ending cmp t key) ((delete cmp del t key).map outcome) ∧
      ∀ p, delete cmp del t key = some p → ∃ u c' n', (p.1 = u ∨ p.1 = flipRoot u) ∧
        LL u c' n' := by
  cases h with
  | leaf => cases ht
  | @black a k d l r cl m hl hr =>
    cases cl with
    | true =>
      obtain ⟨hends, hshape⟩ := delete_ends cmp del key (.three hl hr)
      refine ⟨hends, fun p hp => ?_⟩
      obtain ⟨c', hp', -⟩ := hshape p hp
      exact ⟨p.1, c', _, .inl rfl, hp'⟩
    | false =>
      obtain ⟨hends, hshape⟩ := delete_ends (t := node a true k d l r) cmp del key (.red hl hr)
      have hflip := delete_flipRoot cmp del (node a true k d l r) key
      rw [show flipRoot (node a true k d l r) = node a false k d l r from rfl] at hflip
      rw [hflip]
      refine ⟨?_, fun p hp => ?_⟩
      · rw [Option.map_map, show outcome ∘ flipResult =
            (outcome : RbNode K V × List (Call K V) → _) from
          funext fun p => by simp [flipResult, nodes_flipRoot]]
        exact hends
      · obtain ⟨q, hq, rfl⟩ := Option.map_eq_some_iff.1 hp
        obtain ⟨c', hq', -⟩ := hshape q hq
        exact ⟨q.1, c', m, .inr rfl, hq'⟩

/-! ## A key that compares equal to a node -/

/-- Whether the search for a key ends at a node without a right child. -/
def foundAtBottom (cmp : K → K → Int) : RbNode K V → K → Bool
  | null, _ => false
  | node _ _ k _ l r, key =>
    if cmp key k = 0 then r.isNull
    else if cmp key k < 0 then foundAtBottom cmp l key else foundAtBottom cmp r key

/-- What comes of deleting a key that compares equal to the node `e`, found at the bottom or not. -/
inductive Removes (del : Bool) (key : K) (xs : List (Addr × K × Option V)) (e : Addr × K × Option V)
    (ys : List (Addr × K × Option V)) :
    Bool → Option (List (Addr × K × Option V) × List (Call K V)) → Prop
  | bottom : Removes del key xs e ys true (some (xs ++ ys, released del (some e)))
  | inner {m ys'} : key = e.2.1 → ys = m :: ys' →
      Removes del key xs e ys false (some (xs ++ (e.1, m.2) :: ys', released del none))
  | other : key ≠ e.2.1 → Removes del key xs e ys false none

section Order

variable [DecidableEq K]

theorem ending_absent (h : ∀ e ∈ nodes t, cmp key e.2.1 ≠ 0 ∧ key ≠ e.2.1) :
    ending cmp t key = .lost := by
  induction t with
  | null => rfl
  | node a c k d l r ihl ihr =>
    have hk := h (a, k, d) (by simp [nodes])
    have hl := ihl fun e he => h e (by simp [nodes, he])
    have hr := ihr fun e he => h e (by simp [nodes, he])
    have hred : redWithKey key l = false := by
      cases l with
      | null => rfl
      | node al cl kl dl ll rl =>
        cases cl with
        | false => rfl
        | true => exact decide_eq_false (h (al, kl, dl) (by simp [nodes])).2
    simp [ending, hl, hr, hred, hk.1, hk.2]

/-- In a tree in order no other node is taken for the one that the search ends at. -/
theorem ending_of_at (hself : cmp key key = 0)
    (hat : At (fun e => cmp key e.2.1) (nodes t) xs e ys) :
    ending cmp t key =
      if foundAtBottom cmp t key then .bottom else if key = e.2.1 then .inner else .lost := by
  induction t generalizing xs ys with
  | null => exact absurd hat.mem (by simp [nodes])
  | node a c k d l r ihl ihr =>
    by_cases hlt : cmp key k < 0
    · obtain ⟨zs, -, hl⟩ := hat.of_neg (m := (a, k, d)) hlt
      have hne : cmp key k ≠ 0 := by omega
      rw [ending, if_pos hlt, ihl hl, foundAtBottom, if_neg hne, if_pos hlt]
    · have hred : redWithKey key l = false := by
        cases l with
        | null => rfl
        | node al cl kl dl ll rl =>
          cases cl with
          | false => rfl
          | true =>
            refine decide_eq_false fun heq => ?_
            have hgt : 0 < cmp key kl :=
              hat.pos_of_mem (m := (a, k, d)) hlt (a := (al, kl, dl)) (by simp [nodes])
            rw [← heq, hself] at hgt
            omega
      by_cases hz : cmp key k = 0
      · obtain ⟨rfl, rfl, rfl⟩ := hat.of_zero (m := (a, k, d)) hz
        have hlost : ending cmp r key = .lost := ending_absent fun e he =>
          have hlt' : cmp key e.2.1 < 0 := hat.after e he
          ⟨hlt'.ne, fun heq => by rw [← heq, hself] at hlt'; exact absurd hlt' (by decide)⟩
        simp [ending, foundAtBottom, hz, hred, hlost]
      · have hgt : 0 < cmp key k := by omega
        obtain ⟨zs, -, hr⟩ := hat.of_pos (m := (a, k, d)) hgt
        have hnull : r.isNull = false := by
          cases r with
          | null => exact absurd hr.mem (by simp [nodes])
          | node => rfl
        have hkey : key ≠ k := fun heq => hz (heq ▸ hself)
        simp [ending, foundAtBottom, hlt, hz, hred, hnull, hkey, ihr hr]

/-- **Deletion of a key that compares equal to a node** of a tree in order. -/
theorem Deletes.removes {del : Bool} {o : Option (List (Addr × K × Option V) × List (Call K V))}
    (hself : cmp key key = 0) (hat : At (fun e => cmp key e.2.1) (nodes t) xs e ys)
    (h : Deletes cmp del key (nodes t) (ending cmp t key) o) :
    Removes del key xs e ys (foundAtBottom cmp t key) o := by
  have hsame : ∀ {zs e' zs'}, nodes t = zs ++ e' :: zs' → cmp key e'.2.1 = 0 → xs = zs ∧
      e = e' ∧ ys = zs' :=
    fun hsplit hz => (hsplit ▸ hat).of_zero hz
  have hend := ending_of_at hself hat
  generalize hb : ending cmp t key = b at h hend
  cases h with
  | bottom hsplit hz =>
    obtain ⟨rfl, rfl, rfl⟩ := hsame hsplit hz
    cases hf : foundAtBottom cmp t key with
    | true => exact .bottom
    | false =>
      rw [hf, if_neg (by decide)] at hend
      by_cases hk : key = e.2.1
      · rw [if_pos hk] at hend
        cases hend
      · rw [if_neg hk] at hend
        cases hend
  | inner hsplit hk =>
    obtain ⟨rfl, rfl, rfl⟩ := hsame hsplit (hk ▸ hself)
    cases hf : foundAtBottom cmp t key with
    | true => rw [hf] at hend; cases hend
    | false => exact .inner hk rfl
  | lost =>
    cases hf : foundAtBottom cmp t key with
    | true => rw [hf] at hend; cases hend
    | false =>
      refine .other fun hk => ?_
      rw [hf, if_neg (by simp), if_pos hk] at hend
      cases hend

end Order

end Resman.Rb
