import Resman.RbTree.Shape

/-!
# The in-order sequence and the colour of the root

Two facts about every helper of `rbtree.c`, whatever tree it is given: it keeps the in-order
sequence of keys and data (`traverse_fixUp`, `traverse_pushLeft`, ...), and it does not look at the
colour of its root, so it commutes with flipping it (`fixUp_flipRoot`, ...). The second carries over
to `delete` (`delete_flipRoot`).
-/

namespace Resman.Rb

open RbNode

variable {K V : Type}

/-! ## The in-order sequence -/

section Traverse

variable {t t' : RbNode K V}

theorem traverse_eq (t : RbNode K V) : traverse t = (nodes t).map Prod.snd := by
  induction t with
  | null => rfl
  | node a c k d l r ihl ihr =>
    simp only [traverse, nodes, List.map_append, List.map_cons, ihl, ihr]

theorem traverse_congr (h : nodes t' = nodes t) : traverse t' = traverse t := by
  rw [traverse_eq, traverse_eq, h]

theorem nodes_fixUp (h : fixUp t = some t') : nodes t' = nodes t := by
  obtain ⟨t₂, h₁₂, h₃⟩ := Option.bind_eq_some_iff.1 h
  obtain ⟨t₁, h₁, h₂⟩ := Option.bind_eq_some_iff.1 h₁₂
  have e₁ : nodes t₁ = nodes t := by
    obtain ⟨r, -, h₁⟩ := Option.bind_eq_some_iff.1 h₁
    split at h₁
    · exact nodes_rotLeft h₁
    · cases h₁; rfl
  have e₂ : nodes t₂ = nodes t₁ := by
    obtain ⟨b, -, h₂⟩ := Option.bind_eq_some_iff.1 h₂
    split at h₂
    · exact nodes_rotRight h₂
    · cases h₂; rfl
  have e₃ : nodes t' = nodes t₂ := by
    obtain ⟨b, -, h₃⟩ := Option.bind_eq_some_iff.1 h₃
    split at h₃
    · exact nodes_colorFlip h₃
    · cases h₃; rfl
  rw [e₃, e₂, e₁]

theorem traverse_fixUp (h : fixUp t = some t') : traverse t' = traverse t :=
  traverse_congr (nodes_fixUp h)

theorem traverse_pushLeft (h : pushLeft t = some t') : traverse t' = traverse t :=
  traverse_congr (nodes_pushLeft h)

theorem traverse_pushRight (h : pushRight t = some t') : traverse t' = traverse t :=
  traverse_congr (nodes_pushRight h)

theorem traverse_leanRight (h : leanRight t = some t') : traverse t' = traverse t :=
  traverse_congr (nodes_leanRight h)

theorem traverse_node (a : Addr) (c : Bool) (k : K) (d : Option V) (l r : RbNode K V) :
    traverse (node a c k d l r) = traverse l ++ (k, d) :: traverse r := rfl

theorem length_traverse (t : RbNode K V) : (traverse t).length = countNodes t := by
  induction t with
  | null => rfl
  | node a c k d l r ihl ihr =>
    simp only [traverse, countNodes, List.length_append, List.length_cons, ihl, ihr]
    omega

/-- The minimum is the first node. -/
theorem findMin_head : ∀ (t : RbNode K V), t.isNull = false →
    ∃ a c k d l r, findMin t = node a c k d l r ∧ (nodes t).head? = some (a, k, d)
  | null, h => by cases h
  | node a c k d null r, _ => ⟨a, c, k, d, null, r, rfl, rfl⟩
  | node a c k d (node al cl kl dl ll rl) r, _ => by
    obtain ⟨a', c', k', d', l', r', hm, hh⟩ := findMin_head (node al cl kl dl ll rl) rfl
    refine ⟨a', c', k', d', l', r', hm, ?_⟩
    rw [nodes, List.head?_append, hh]
    rfl

end Traverse

/-! ## The colour of the root -/

/-- The tree with the colour of its root inverted. -/
def flipRoot : RbNode K V → RbNode K V
  | null => null
  | node a c k d l r => node a (!c) k d l r

section FlipRoot

theorem left_flipRoot (t : RbNode K V) : (flipRoot t).left = t.left := by cases t <;> rfl

theorem right_flipRoot (t : RbNode K V) : (flipRoot t).right = t.right := by cases t <;> rfl

theorem colorFlip_flipRoot (t : RbNode K V) :
    colorFlip (flipRoot t) = (colorFlip t).map flipRoot := by
  match t with
  | null => rfl
  | node _ _ _ _ null _ => rfl
  | node _ _ _ _ (node ..) null => rfl
  | node _ _ _ _ (node ..) (node ..) => rfl

theorem rotLeft_flipRoot (t : RbNode K V) : rotLeft (flipRoot t) = (rotLeft t).map flipRoot := by
  match t with
  | null => rfl
  | node _ _ _ _ _ null => rfl
  | node _ _ _ _ _ (node ..) => rfl

theorem rotRight_flipRoot (t : RbNode K V) :
    rotRight (flipRoot t) = (rotRight t).map flipRoot := by
  match t with
  | null => rfl
  | node _ _ _ _ null _ => rfl
  | node _ _ _ _ (node ..) _ => rfl

/-- A choice between a helper and leaving the tree alone commutes with the flip when the helper
does. -/
theorem ite_flipRoot {f : RbNode K V → Option (RbNode K V)} (b : Bool)
    (hf : ∀ t, f (flipRoot t) = (f t).map flipRoot) (t : RbNode K V) :
    (if b then f (flipRoot t) else some (flipRoot t)) =
      (if b then f t else some t).map flipRoot := by
  cases b
  · rfl
  · exact hf t

theorem fixRightLeft_flipRoot (t : RbNode K V) :
    fixRightLeft (flipRoot t) = (fixRightLeft t).map flipRoot := by
  match t with
  | null => rfl
  | node a c k d l r =>
    simp only [flipRoot, fixRightLeft]
    cases r.left with
    | none => rfl
    | some rl =>
      simp only [Option.bind_some]
      split
      · cases hr : rotRight r with
        | none => rfl
        | some r' =>
          have hrot := rotLeft_flipRoot (node a c k d l r')
          simp only [flipRoot] at hrot
          simp only [Option.bind_some, hrot]
          cases rotLeft (node a c k d l r') with
          | none => rfl
          | some u => exact colorFlip_flipRoot u
      · rfl

theorem moveRedLeft_flipRoot (t : RbNode K V) :
    moveRedLeft (flipRoot t) = (moveRedLeft t).map flipRoot := by
  rw [moveRedLeft, colorFlip_flipRoot, moveRedLeft]
  cases colorFlip t with
  | none => rfl
  | some u => exact fixRightLeft_flipRoot u

theorem redLeftLeft_flipRoot (t : RbNode K V) : redLeftLeft (flipRoot t) = redLeftLeft t := by
  simp only [redLeftLeft, left_flipRoot]

theorem redBoth_flipRoot (t : RbNode K V) : redBoth (flipRoot t) = redBoth t := by
  simp only [redBoth, left_flipRoot, right_flipRoot]

theorem fixUp_flipRoot (t : RbNode K V) : fixUp (flipRoot t) = (fixUp t).map flipRoot := by
  have h₁ : fixRightRed (flipRoot t) = (fixRightRed t).map flipRoot := by
    simp only [fixRightRed, right_flipRoot]
    cases t.right with
    | none => rfl
    | some r => exact ite_flipRoot (isRed r) rotLeft_flipRoot t
  have h₂ (u : RbNode K V) : fixRedRed (flipRoot u) = (fixRedRed u).map flipRoot := by
    simp only [fixRedRed, redLeftLeft_flipRoot]
    cases redLeftLeft u with
    | none => rfl
    | some b => exact ite_flipRoot b rotRight_flipRoot u
  have h₃ (u : RbNode K V) : splitFour (flipRoot u) = (splitFour u).map flipRoot := by
    simp only [splitFour, redBoth_flipRoot]
    cases redBoth u with
    | none => rfl
    | some b => exact ite_flipRoot b colorFlip_flipRoot u
  rw [fixUp, h₁, fixUp]
  cases fixRightRed t with
  | none => rfl
  | some t₁ =>
    simp only [Option.map_some, Option.bind_some, h₂]
    cases fixRedRed t₁ with
    | none => rfl
    | some t₂ => exact h₃ t₂

theorem pushLeft_flipRoot (t : RbNode K V) :
    pushLeft (flipRoot t) = (pushLeft t).map flipRoot := by
  simp only [pushLeft, left_flipRoot, bind]
  cases t.left with
  | none => rfl
  | some l =>
    simp only [Option.bind_some]
    split
    · rfl
    · cases l.left with
      | none => rfl
      | some ll =>
        simp only [Option.bind_some]
        split
        · rfl
        · exact moveRedLeft_flipRoot t

theorem pushRight_flipRoot (t : RbNode K V) :
    pushRight (flipRoot t) = (pushRight t).map flipRoot := by
  simp only [pushRight, right_flipRoot, bind]
  cases t.right with
  | none => rfl
  | some r =>
    simp only [Option.bind_some]
    split
    · rfl
    · cases r.left with
      | none => rfl
      | some rl =>
        simp only [Option.bind_some]
        split
        · rfl
        · exact moveRedLeft_flipRoot t

theorem leanRight_flipRoot (t : RbNode K V) :
    leanRight (flipRoot t) = (leanRight t).map flipRoot := by
  simp only [leanRight, left_flipRoot, bind]
  cases t.left with
  | none => rfl
  | some l => exact ite_flipRoot (isRed l) rotRight_flipRoot t

end FlipRoot

end Resman.Rb
