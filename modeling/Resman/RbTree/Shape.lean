import Resman.RbTree.Basic

/-!
# Left-leaning shape of the helpers

`LL t c n`: `t` is a left-leaning 2-3 subtree whose root has colour `c` (`true` for red) and with
`n` black nodes on every path from the root to null. `delete` and `del_min` walk down under the
stronger `Ready t c n`: the root is red, or it is black with a red left child, so that a node can be
taken from the subtree without its black height going down.

* `pushLeft_ready`, `lean_ready`: after the recolouring and rotations on the way down, the subtree
  that the recursion goes into is `Ready` again, and whatever left-leaning subtree of the same
  black height comes back, `fix_up` makes the whole left-leaning. On the right-hand way
  `move_red_left` stands where a rotation to the right would be expected; it leaves a red-red pair
  on the left, which `fix_up` repairs (`fixUp_redRed`).
* No helper changes the in-order sequence (`traverse_fixUp`, ...).
* No helper reads the colour of the root it is given (`delete_flipRoot`), so a black root without
  red children goes through `delete` as a red one does.
-/

namespace Resman.Rb

open RbNode

variable {K V : Type}

/-- A left-leaning 2-3 subtree with the colour of its root and its black height. -/
inductive LL : RbNode K V → Bool → Nat → Prop
  | leaf : LL null false 0
  | red {a k d l r n} : LL l false n → LL r false n → LL (node a true k d l r) true n
  | black {a k d l r c n} : LL l c n → LL r false n → LL (node a false k d l r) false (n + 1)

/-- A red node over a red left child: what an insertion below a red node can leave. -/
inductive RedRed : RbNode K V → Nat → Prop
  | mk {a k d l r n} : LL l true n → LL r false n → RedRed (node a true k d l r) n

/-- A subtree that can give up a node without losing black height. -/
inductive Ready : RbNode K V → Bool → Nat → Prop
  | red {a k d l r n} : LL l false n → LL r false n → Ready (node a true k d l r) true n
  | three {a k d l r n} : LL l true n → LL r false n → Ready (node a false k d l r) false (n + 1)

theorem LL.isRed_eq {t : RbNode K V} {c : Bool} {n : Nat} (h : LL t c n) : isRed t = c := by
  cases h <;> rfl

theorem LL.zero {t : RbNode K V} (h : LL t false 0) : t = null := by cases h; rfl

theorem LL.succ {t : RbNode K V} {n : Nat} (h : LL t false (n + 1)) :
    ∃ a k d l r c, t = node a false k d l r ∧ LL l c n ∧ LL r false n := by
  cases h with
  | black hl hr => exact ⟨_, _, _, _, _, _, rfl, hl, hr⟩

theorem LL.of_red {t : RbNode K V} {n : Nat} (h : LL t true n) :
    ∃ a k d l r, t = node a true k d l r ∧ LL l false n ∧ LL r false n := by
  cases h with
  | red hl hr => exact ⟨_, _, _, _, _, rfl, hl, hr⟩

/-! ## `fix_up` by the colours it meets -/

section FixUp

variable {a : Addr} {c : Bool} {k : K} {d : Option V} {l r : RbNode K V} {n : Nat}

/-- `fix_up` from its three tests. -/
theorem fixUp_eq {t s u t' : RbNode K V} (h₁ : fixRightRed t = some s)
    (h₂ : fixRedRed s = some u) (h₃ : splitFour u = some t') : fixUp t = some t' := by
  rw [fixUp, h₁, Option.bind_some, h₂, Option.bind_some, h₃]

theorem fixUp_id (hr : isRed r = false) (hl : redLeftLeft (node a c k d l r) = some false) :
    fixUp (node a c k d l r) = some (node a c k d l r) := by
  refine fixUp_eq (s := node a c k d l r) ?_ (u := node a c k d l r) ?_ ?_
  · simp [fixRightRed, hr]
  · simp [fixRedRed, hl]
  · simp [splitFour, redBoth, hr]

theorem LL.redLeftLeft {cl : Bool} (h : LL l cl n) :
    Rb.redLeftLeft (node a c k d l r) = some false := by
  cases h with
  | leaf => simp [Rb.redLeftLeft]
  | red hl hr => simp [Rb.redLeftLeft, hl.isRed_eq]
  | black hl hr => simp [Rb.redLeftLeft]

/-- A red right child below a black left sibling is rotated to the left. -/
theorem fixUp_rotate (hl : LL l false n) (hr : LL r true n) :
    ∃ b kb db lb rb, r = node b true kb db lb rb ∧ LL lb false n ∧ LL rb false n ∧
      fixUp (node a c k d l r) = some (node b c kb db (node a true k d l lb) rb) := by
  obtain ⟨b, kb, db, lb, rb, rfl, hlb, hrb⟩ := hr.of_red
  refine ⟨b, kb, db, lb, rb, rfl, hlb, hrb,
    fixUp_eq rfl (u := node b c kb db (node a true k d l lb) rb) ?_ ?_⟩
  · simp [fixRedRed, Rb.redLeftLeft, hl.isRed_eq]
  · simp [splitFour, redBoth, hrb.isRed_eq]

/-- Two red children are split by the colour flip, after two rotations that cancel. -/
theorem fixUp_split (hl : LL l true n) (hr : LL r true n) :
    ∃ t', fixUp (node a c k d l r) = some t' ∧ (c = false → LL t' true (n + 1)) := by
  obtain ⟨al, kl, dl, ll, rl, rfl, hll, hrl⟩ := hl.of_red
  obtain ⟨b, kb, db, lb, rb, rfl, hlb, hrb⟩ := hr.of_red
  refine ⟨node a (!c) k d (node al false kl dl ll rl) (node b false kb db lb rb), ?_, ?_⟩
  · exact fixUp_eq rfl rfl rfl
  · rintro rfl
    exact .red (.black hll hrl) (.black hlb hrb)

/-- A red left child with a red left child of its own is turned into a split 4-node, whatever the
colour of the right child. -/
theorem fixUp_redRed {cr : Bool} (hl : RedRed l n) (hr : LL r cr n) :
    ∃ t', fixUp (node a false k d l r) = some t' ∧ LL t' true (n + 1) := by
  obtain @⟨al, kl, dl, ll, rl, _, hll, hrl⟩ := hl
  obtain ⟨b, kb, db, lb, rb, rfl, hlb, hrb⟩ := hll.of_red
  cases cr with
  | false =>
    refine ⟨node al true kl dl (node b false kb db lb rb) (node a false k d rl r), ?_, ?_⟩
    · exact fixUp_eq (s := node a false k d (node al true kl dl (node b true kb db lb rb) rl) r)
        (by simp [fixRightRed, hr.isRed_eq]) rfl rfl
    · exact .red (.black hlb hrb) (.black hrl hr)
  | true =>
    obtain ⟨e, ke, de, le, re, rfl, hle, hre⟩ := hr.of_red
    refine ⟨node a true k d (node al false kl dl (node b true kb db lb rb) rl)
      (node e false ke de le re), ?_, ?_⟩
    · exact fixUp_eq rfl rfl rfl
    · exact .red (.black (.red hlb hrb) hrl) (.black hle hre)

/-- Below a black node `fix_up` makes any two left-leaning subtrees of one black height
left-leaning; the result is red only if both were. -/
theorem fixUp_black {cl cr : Bool} (hl : LL l cl n) (hr : LL r cr n) :
    ∃ t' c', fixUp (node a false k d l r) = some t' ∧ LL t' c' (n + 1) ∧
      (cl = false ∨ cr = false → c' = false) := by
  cases cr with
  | false => exact ⟨_, false, fixUp_id hr.isRed_eq hl.redLeftLeft, .black hl hr, fun _ => rfl⟩
  | true =>
    cases cl with
    | false =>
      obtain ⟨b, kb, db, lb, rb, -, hlb, hrb, hf⟩ := fixUp_rotate (a := a) (c := false) (k := k)
        (d := d) hl hr
      exact ⟨_, false, hf, .black (.red hl hlb) hrb, fun _ => rfl⟩
    | true =>
      obtain ⟨t', hf, ht⟩ := fixUp_split (a := a) (c := false) (k := k) (d := d) hl hr
      exact ⟨t', true, hf, ht rfl, by simp⟩

/-- Below a red node with black children there is nothing to fix. -/
theorem fixUp_red (hl : LL l false n) (hr : LL r false n) :
    fixUp (node a true k d l r) = some (node a true k d l r) :=
  fixUp_id hr.isRed_eq hl.redLeftLeft

end FixUp

/-! ## The way down -/

/-- How the descent of `delete` ends: at a node that is released, at one that takes over the entry
of its successor, or at a null pointer that is read. -/
inductive Ending where
  | bottom
  | inner
  | lost
  deriving DecidableEq

/-- The root is red and has the very key pointer. -/
def redWithKey [DecidableEq K] (key : K) : RbNode K V → Bool
  | node _ true k _ _ _ => decide (key = k)
  | _ => false

/-- The tests of `delete` on its way down. A red left child is rotated up before the key pointer is
looked at, and then to the right the comparison is made once more. -/
def ending [DecidableEq K] (cmp : K → K → Int) : RbNode K V → K → Ending
  | null, _ => .lost
  | node _ _ k _ l r, key =>
    if cmp key k < 0 then ending cmp l key
    else if redWithKey key l then .inner
    else if r.isNull then if cmp key k = 0 then .bottom else .lost
    else if key = k then .inner
    else ending cmp r key

theorem redWithKey_red [DecidableEq K] (key : K) (a : Addr) (k : K) (d : Option V)
    (l r : RbNode K V) :
    redWithKey key (node a true k d l r) = decide (key = k) := rfl

theorem redWithKey_of_black [DecidableEq K] {t : RbNode K V} (h : isRed t = false) (key : K) :
    redWithKey key t = false := by
  cases t with
  | null => rfl
  | node a c =>
    obtain rfl : c = false := h
    rfl

section Down

variable {a al ar : Addr} {c : Bool} {k kl kr : K} {d dl dr : Option V}
  {l r ll rl lr rr : RbNode K V}

theorem pushLeft_red (h : isRed l = true) :
    pushLeft (node a c k d l r) = some (node a c k d l r) := by
  simp [pushLeft, h]

theorem pushLeft_black (h : isRed l = false) (hl : l.left = some ll) :
    pushLeft (node a c k d l r) =
      if isRed ll then some (node a c k d l r) else moveRedLeft (node a c k d l r) := by
  simp [pushLeft, h, hl]

theorem pushRight_red (h : isRed r = true) :
    pushRight (node a c k d l r) = some (node a c k d l r) := by
  simp [pushRight, h]

theorem pushRight_black (h : isRed r = false) (hr : r.left = some lr) :
    pushRight (node a c k d l r) =
      if isRed lr then some (node a c k d l r) else moveRedLeft (node a c k d l r) := by
  simp [pushRight, h, hr]

/-- `move_red_left` without a red grandchild on the right only flips the colours. -/
theorem moveRedLeft_flat (h : isRed lr = false) :
    moveRedLeft (node a c k d (node al false kl dl ll rl) (node ar false kr dr lr rr)) =
      some (node a (!c) k d (node al true kl dl ll rl) (node ar true kr dr lr rr)) := by
  simp only [moveRedLeft, colorFlip, Bool.not_false, Option.bind_some, fixRightLeft, left_node, h,
    Bool.false_eq_true, ↓reduceIte]

/-- With one, the grandchild becomes the root and the colours are flipped back. -/
theorem moveRedLeft_rotate {b : Addr} {kb : K} {db : Option V} {lb rb : RbNode K V} :
    moveRedLeft (node a c k d (node al false kl dl ll rl)
        (node ar false kr dr (node b true kb db lb rb) rr)) =
      some (node b (!!c) kb db (node a false k d (node al true kl dl ll rl) lb)
        (node ar false kr dr rb rr)) := rfl

end Down

/-- `put` is a tree with a hole for a subtree of black height `m`, red only if `cs` allows it, and
`fix_up` makes it left-leaning of black height `n` once the hole is filled, black if `c` is. -/
def Refills (c : Bool) (n : Nat) (cs : Bool) (m : Nat) (put : RbNode K V → RbNode K V) : Prop :=
  ∀ sub cs', LL sub cs' m → (cs = false → cs' = false) →
    ∃ t' c', fixUp (put sub) = some t' ∧ LL t' c' n ∧ (c = false → c' = false)

/-- **Going left**: the new left subtree is ready for the recursion, which ends
in it as in the old one. -/
theorem pushLeft_ready {c₀ x₀ : Bool} {n : Nat} {a₀ : Addr} {k₀ : K} {d₀ : Option V}
    {l₀ r₀ : RbNode K V} (h : Ready (node a₀ x₀ k₀ d₀ l₀ r₀) c₀ n) (hl : l₀.isNull = false) :
    ∃ a x k d l r cs m, pushLeft (node a₀ x₀ k₀ d₀ l₀ r₀) = some (node a x k d l r) ∧
      Ready l cs m ∧ Refills c₀ n cs m (fun l' => node a x k d l' r) ∧
      ∀ [DecidableEq K] (cmp : K → K → Int) key, cmp key k₀ < 0 →
        ending cmp l key = ending cmp l₀ key := by
  cases h with
  | three hl₀ hr₀ =>
    obtain ⟨al, kl, dl, ll, rl, rfl, hll, hrl⟩ := hl₀.of_red
    refine ⟨_, _, _, _, _, _, true, _, pushLeft_red rfl, .red hll hrl, ?_, fun _ _ _ => rfl⟩
    intro l' cs' hl' _
    obtain ⟨t', c', hf, ht, hc⟩ := fixUp_black hl' hr₀
    exact ⟨t', c', hf, ht, fun _ => hc (Or.inr rfl)⟩
  | @red _ _ _ _ _ n hl₀ hr₀ =>
    cases n with
    | zero => rw [hl₀.zero] at hl; cases hl
    | succ m =>
      obtain ⟨al, kl, dl, ll, rl, cl, rfl, hll, hrl⟩ := hl₀.succ
      obtain ⟨ar, kr, dr, lr, rr, cr, rfl, hlr, hrr⟩ := hr₀.succ
      cases cl with
      | true =>
        refine ⟨_, _, _, _, _, _, false, _,
          (pushLeft_black rfl rfl).trans (if_pos hll.isRed_eq), .three hll hrl,
            ?_, fun _ _ _ => rfl⟩
        intro l' cs' hl' hcs
        rw [hcs rfl] at hl'
        exact ⟨_, true, fixUp_red hl' hr₀, .red hl' hr₀, by simp⟩
      | false =>
        have hpush : pushLeft (node a₀ true k₀ d₀ (node al false kl dl ll rl)
            (node ar false kr dr lr rr)) = moveRedLeft (node a₀ true k₀ d₀
              (node al false kl dl ll rl) (node ar false kr dr lr rr)) := by
          rw [pushLeft_black rfl (left_node ..), hll.isRed_eq]
          rfl
        rw [hpush]
        cases cr with
        | false =>
          refine ⟨_, _, _, _, _, _, true, m, moveRedLeft_flat hlr.isRed_eq, .red hll hrl, ?_,
            fun _ _ _ => rfl⟩
          intro l' cs' hl' _
          obtain ⟨t', c', hf, ht, -⟩ := fixUp_black hl' (.red hlr hrr : LL _ true m)
          exact ⟨t', c', hf, ht, by simp⟩
        | true =>
          obtain ⟨b, kb, db, lb, rb, rfl, hlb, hrb⟩ := hlr.of_red
          refine ⟨_, _, _, _, _, _, false, m + 1, moveRedLeft_rotate, .three (.red hll hrl) hlb, ?_,
            fun cmp key hlt => ?_⟩
          · intro l' cs' hl' hcs
            rw [hcs rfl] at hl'
            exact ⟨_, true, fixUp_red hl' (.black hrb hrr), .red hl' (.black hrb hrr), by simp⟩
          · rw [ending, if_pos hlt]
            rfl

/-- **Going right**: either the tree is a single red node, or the right subtree becomes ready for
the recursion, unless the key pointer is found at the root. A red left child is rotated up first;
the old root is then in the right subtree. -/
theorem lean_ready {c₀ x₀ : Bool} {n : Nat} {a₀ : Addr} {k₀ : K} {d₀ : Option V}
    {l₀ r₀ : RbNode K V} (h : Ready (node a₀ x₀ k₀ d₀ l₀ r₀) c₀ n) :
    (leanRight (node a₀ x₀ k₀ d₀ l₀ r₀) = some (node a₀ x₀ k₀ d₀ l₀ r₀) ∧ c₀ = true ∧ n = 0 ∧
      l₀ = null ∧ r₀ = null) ∨
    ∃ t₁ a x k d l r cs m, leanRight (node a₀ x₀ k₀ d₀ l₀ r₀) = some t₁ ∧
      t₁.right.all RbNode.isNull = false ∧ pushRight t₁ = some (node a x k d l r) ∧
      Ready r cs m ∧ (∀ k d, Refills c₀ n cs m (fun r' => node a x k d l r')) ∧
      ∀ [DecidableEq K] (cmp : K → K → Int) key, ¬ cmp key k₀ < 0 →
        ending cmp (node a₀ x₀ k₀ d₀ l₀ r₀) key = if key = k then .inner else ending cmp r key := by
  cases h with
  | three hl₀ hr₀ =>
    right
    obtain ⟨al, kl, dl, ll, rl, rfl, hll, hrl⟩ := hl₀.of_red
    refine ⟨node al false kl dl ll (node a₀ true k₀ d₀ rl r₀), al, false, kl, dl, ll,
      node a₀ true k₀ d₀ rl r₀, true, _, by simp [leanRight, rotRight], rfl, pushRight_red rfl,
      .red hrl hr₀, ?_, fun cmp key hge => ?_⟩
    · intro k d r' cs' hr' _
      obtain ⟨t', c', hf, ht, hc⟩ := fixUp_black hll hr'
      exact ⟨t', c', hf, ht, fun _ => hc (Or.inl rfl)⟩
    · simp only [ending, hge, redWithKey_red, redWithKey_of_black hrl.isRed_eq, decide_eq_true_eq,
        Bool.false_eq_true, ↓reduceIte]
  | @red _ _ _ _ _ n hl₀ hr₀ =>
    have hlean : leanRight (node a₀ true k₀ d₀ l₀ r₀) = some (node a₀ true k₀ d₀ l₀ r₀) := by
      simp [leanRight, hl₀.isRed_eq]
    cases n with
    | zero => exact Or.inl ⟨hlean, rfl, rfl, hl₀.zero, hr₀.zero⟩
    | succ m =>
      right
      obtain ⟨al, kl, dl, ll, rl, cl, rfl, hll, hrl⟩ := hl₀.succ
      obtain ⟨ar, kr, dr, lr, rr, cr, rfl, hlr, hrr⟩ := hr₀.succ
      cases cr with
      | true =>
        refine ⟨_, _, _, _, _, _, _, false, m + 1, hlean, rfl,
          (pushRight_black rfl rfl).trans (if_pos hlr.isRed_eq), .three hlr hrr, ?_,
          fun cmp key hge => ?_⟩
        · intro k d r' cs' hr' hcs
          rw [hcs rfl] at hr'
          exact ⟨_, true, fixUp_red hl₀ hr', .red hl₀ hr', by simp⟩
        · rw [ending, if_neg hge]
          rfl
      | false =>
        have hpush : pushRight (node a₀ true k₀ d₀ (node al false kl dl ll rl)
            (node ar false kr dr lr rr)) = some (node a₀ false k₀ d₀
              (node al true kl dl ll rl) (node ar true kr dr lr rr)) := by
          rw [pushRight_black rfl (left_node ..), hlr.isRed_eq]
          exact moveRedLeft_flat hlr.isRed_eq
        refine ⟨_, _, _, _, _, _, _, true, m, hlean, rfl, hpush, .red hlr hrr, ?_,
          fun cmp key hge => ?_⟩
        swap
        · rw [ending, if_neg hge]
          rfl
        intro k d r' cs' hr' _
        -- a red grandchild on the left is now below a red child
        cases cl with
        | true =>
          obtain ⟨t', hf, ht⟩ := fixUp_redRed (.mk hll hrl) hr'
          exact ⟨t', true, hf, ht, by simp⟩
        | false =>
          obtain ⟨t', c', hf, ht, -⟩ := fixUp_black (.red hll hrl : LL _ true m) hr'
          exact ⟨t', c', hf, ht, by simp⟩

end Resman.Rb
