import Mathlib.Data.BitVec
import Resman.Lib.SortedAssoc

/-!
# The red-black tree of `rbtree.c`

The nodes of a tree are owned by it (no node is reached twice), so a tree is an inductive value and
an in-place update is the updated value. `none` as a result stands for undefined behaviour: a field
read or written through a null pointer. A `void *` of data is an `Option V`, null being `none`; keys
are compared by `rb->cmp`, and `key == tree->key` is equality of the key pointers.

* `insert`, `delete`, `delMin` and their helpers are the static functions of the left-leaning 2-3
  implementation; the three tests at the end of `insert` are the body of `fix_up`.
* `delete` and `delMin` also return the calls they make to `rb->del` and `rb->free`, in order.
* `int2ptr`, `ptr2int`, `cmpint`, `cmpaddr` are the two built-in comparisons.
-/

namespace Resman.Rb

/-- The address of an allocated node. -/
abbrev Addr := Nat

/-- `struct rbnode`, or the null pointer. -/
inductive RbNode (K V : Type) where
  | null
  | node (addr : Addr) (red : Bool) (key : K) (data : Option V) (left right : RbNode K V)
  deriving DecidableEq, Repr

/-- A call of the tree's delete function (on a node, or on null) or of its free function. -/
inductive Call (K V : Type) where
  | del (node : Option (Addr × K × Option V))
  | free (ptr : Option Addr)
  deriving DecidableEq, Repr

open RbNode

variable {K V : Type}

/-! ## Fields and helpers -/

/-- `tree->left` -/
def RbNode.left : RbNode K V → Option (RbNode K V)
  | null => none
  | node _ _ _ _ l _ => some l

/-- `tree->right` -/
def RbNode.right : RbNode K V → Option (RbNode K V)
  | null => none
  | node _ _ _ _ _ r => some r

def RbNode.isNull : RbNode K V → Bool
  | null => true
  | node .. => false

def isRed : RbNode K V → Bool
  | null => false
  | node _ c _ _ _ _ => c

section Fields

variable (a : Addr) (c : Bool) (k : K) (d : Option V) (l r : RbNode K V)

@[simp] theorem left_node : (node a c k d l r).left = some l := rfl

@[simp] theorem right_node : (node a c k d l r).right = some r := rfl

@[simp] theorem isNull_null : (null : RbNode K V).isNull = true := rfl

@[simp] theorem isNull_node : (node a c k d l r).isNull = false := rfl

@[simp] theorem isRed_null : isRed (null : RbNode K V) = false := rfl

@[simp] theorem isRed_node : isRed (node a c k d l r) = c := rfl

end Fields

def countNodes : RbNode K V → Nat
  | null => 0
  | node _ _ _ _ l r => 1 + countNodes l + countNodes r

def colorFlip : RbNode K V → Option (RbNode K V)
  | node a c k d (node al cl kl dl ll rl) (node ar cr kr dr lr rr) =>
    some (node a (!c) k d (node al (!cl) kl dl ll rl) (node ar (!cr) kr dr lr rr))
  | _ => none

def rotLeft : RbNode K V → Option (RbNode K V)
  | node a c k d l (node b _ kb db lb rb) => some (node b c kb db (node a true k d l lb) rb)
  | _ => none

def rotRight : RbNode K V → Option (RbNode K V)
  | node a c k d (node b _ kb db lb rb) r => some (node b c kb db lb (node a true k d rb r))
  | _ => none

/-- `find_min`, null on null. -/
def findMin : RbNode K V → RbNode K V
  | null => null
  | node a c k d null r => node a c k d null r
  | node _ _ _ _ l _ => findMin l

/-- `is_red(tree->left) && is_red(tree->left->left)` -/
def redLeftLeft (t : RbNode K V) : Option Bool := do
  let l ← t.left
  if isRed l then return isRed (← l.left) else return false

/-- `is_red(tree->left) && is_red(tree->right)` -/
def redBoth (t : RbNode K V) : Option Bool := do
  let l ← t.left
  let r ← t.right
  return isRed l && isRed r

/-- `if(is_red(tree->right->left)) { tree->right = rot_right(tree->right); tree = rot_left(tree);
color_flip(tree); }` -/
def fixRightLeft : RbNode K V → Option (RbNode K V)
  | null => none
  | node a c k d l r =>
    r.left.bind fun rl =>
      if isRed rl then
        ((rotRight r).bind fun r' => rotLeft (node a c k d l r')).bind colorFlip
      else some (node a c k d l r)

def moveRedLeft (t : RbNode K V) : Option (RbNode K V) :=
  (colorFlip t).bind fixRightLeft

/-- `if(is_red(tree->right)) tree = rot_left(tree);` -/
def fixRightRed (t : RbNode K V) : Option (RbNode K V) :=
  t.right.bind fun r => if isRed r then rotLeft t else some t

/-- `if(is_red(tree->left) && is_red(tree->left->left)) tree = rot_right(tree);` -/
def fixRedRed (t : RbNode K V) : Option (RbNode K V) :=
  (redLeftLeft t).bind fun b => if b then rotRight t else some t

/-- `if(is_red(tree->left) && is_red(tree->right)) color_flip(tree);` -/
def splitFour (t : RbNode K V) : Option (RbNode K V) :=
  (redBoth t).bind fun b => if b then colorFlip t else some t

def fixUp (t : RbNode K V) : Option (RbNode K V) :=
  ((fixRightRed t).bind fixRedRed).bind splitFour

/-- `if(!is_red(tree->left) && !is_red(tree->left->left)) tree = move_red_left(tree);` -/
def pushLeft (t : RbNode K V) : Option (RbNode K V) := do
  let l ← t.left
  if isRed l then some t else
    if isRed (← l.left) then some t else moveRedLeft t

/-- `if(!is_red(tree->right) && !is_red(tree->right->left)) tree = move_red_left(tree);` -/
def pushRight (t : RbNode K V) : Option (RbNode K V) := do
  let r ← t.right
  if isRed r then some t else
    if isRed (← r.left) then some t else moveRedLeft t

/-- `if(is_red(tree->left)) tree = rot_right(tree);` -/
def leanRight (t : RbNode K V) : Option (RbNode K V) := do
  if isRed (← t.left) then rotRight t else some t

/-! ## The helpers keep the nodes in their order -/

/-- The nodes from left to right, by address, key and data. -/
def nodes : RbNode K V → List (Addr × K × Option V)
  | null => []
  | node a _ k d l r => nodes l ++ (a, k, d) :: nodes r

theorem nodes_node (a : Addr) (c : Bool) (k : K) (d : Option V) (l r : RbNode K V) :
    nodes (node a c k d l r) = nodes l ++ (a, k, d) :: nodes r := rfl

theorem length_nodes (t : RbNode K V) : (nodes t).length = countNodes t := by
  induction t with
  | null => rfl
  | node a c k d l r ihl ihr =>
    simp only [nodes, countNodes, List.length_append, List.length_cons, ihl, ihr]
    omega

section Nodes

variable {t t' : RbNode K V}

theorem nodes_colorFlip (h : colorFlip t = some t') : nodes t' = nodes t := by
  unfold colorFlip at h
  split at h
  · cases h; rfl
  · cases h

theorem nodes_rotLeft (h : rotLeft t = some t') : nodes t' = nodes t := by
  unfold rotLeft at h
  split at h
  · cases h; simp [nodes]
  · cases h

theorem nodes_rotRight (h : rotRight t = some t') : nodes t' = nodes t := by
  unfold rotRight at h
  split at h
  · cases h; simp [nodes]
  · cases h

theorem nodes_moveRedLeft (h : moveRedLeft t = some t') : nodes t' = nodes t := by
  obtain ⟨u, hu, h⟩ := Option.bind_eq_some_iff.1 h
  rw [← nodes_colorFlip hu]
  match u, h with
  | node a c k d l r, h =>
    obtain ⟨rl, -, h⟩ := Option.bind_eq_some_iff.1 h
    split at h
    · obtain ⟨u', hu', h⟩ := Option.bind_eq_some_iff.1 h
      obtain ⟨r', hr', hu'⟩ := Option.bind_eq_some_iff.1 hu'
      rw [nodes_colorFlip h, nodes_rotLeft hu']
      simp only [nodes, nodes_rotRight hr']
    · cases h; rfl

/-- The two tests on the way down either leave the tree alone or push a red link. -/
theorem pushLeft_cases (h : pushLeft t = some t') : t' = t ∨ moveRedLeft t = some t' := by
  simp only [pushLeft, bind, Option.bind_eq_some_iff] at h
  obtain ⟨l, -, h⟩ := h
  split at h
  · cases h; exact .inl rfl
  · obtain ⟨ll, -, h⟩ := Option.bind_eq_some_iff.1 h
    split at h
    · cases h; exact .inl rfl
    · exact .inr h

theorem pushRight_cases (h : pushRight t = some t') : t' = t ∨ moveRedLeft t = some t' := by
  simp only [pushRight, bind, Option.bind_eq_some_iff] at h
  obtain ⟨r, -, h⟩ := h
  split at h
  · cases h; exact .inl rfl
  · obtain ⟨rl, -, h⟩ := Option.bind_eq_some_iff.1 h
    split at h
    · cases h; exact .inl rfl
    · exact .inr h

theorem nodes_pushLeft (h : pushLeft t = some t') : nodes t' = nodes t := by
  rcases pushLeft_cases h with rfl | h
  · rfl
  · exact nodes_moveRedLeft h

theorem nodes_pushRight (h : pushRight t = some t') : nodes t' = nodes t := by
  rcases pushRight_cases h with rfl | h
  · rfl
  · exact nodes_moveRedLeft h

theorem nodes_leanRight (h : leanRight t = some t') : nodes t' = nodes t := by
  simp only [leanRight, bind, Option.bind_eq_some_iff] at h
  obtain ⟨l, -, h⟩ := h
  split at h
  · exact nodes_rotRight h
  · cases h; rfl

theorem countNodes_eq (h : nodes t' = nodes t) : countNodes t' = countNodes t := by
  rw [← length_nodes, ← length_nodes, h]

theorem countNodes_pushLeft (h : pushLeft t = some t') : countNodes t' = countNodes t :=
  countNodes_eq (nodes_pushLeft h)

theorem countNodes_pushRight (h : pushRight t = some t') : countNodes t' = countNodes t :=
  countNodes_eq (nodes_pushRight h)

theorem countNodes_leanRight (h : leanRight t = some t') : countNodes t' = countNodes t :=
  countNodes_eq (nodes_leanRight h)

end Nodes

/-! ## Insertion and deletion -/

/-- `insert`: `alloc` is what `rb->alloc` returns if it is called. -/
def insert (cmp : K → K → Int) (alloc : Option Addr) :
    RbNode K V → K → Option V → Option (RbNode K V)
  | null, key, data =>
    match alloc with
    | none => none
    | some a => some (node a true key data null null)
  | node a c k d l r, key, data =>
    if cmp key k < 0 then
      (insert cmp alloc l key data).bind fun l' => fixUp (node a c k d l' r)
    else if 0 < cmp key k then
      (insert cmp alloc r key data).bind fun r' => fixUp (node a c k d l r')
    else fixUp (node a c k data l r)

/-- The calls made when a node (or null) is released. -/
def release (del : Bool) : RbNode K V → List (Call K V)
  | null => (if del then [.del none] else []) ++ [.free none]
  | node a _ k d _ _ => (if del then [.del (some (a, k, d))] else []) ++ [.free (some a)]

/-- `tree->left = ...; return fix_up(tree);` (or `tree->right`): the subtree that the recursion
returns is put back and the tree is fixed up. -/
def fixUpWith (put : RbNode K V → RbNode K V) (p : RbNode K V × List (Call K V)) :
    Option (RbNode K V × List (Call K V)) :=
  (fixUp (put p.1)).map (·, p.2)

/-- `del_min`. At the bottom the node itself is dropped, while `rb->del` and `rb->free` are called
on its left child, which is null. -/
def delMin (del : Bool) (tree : RbNode K V) : Option (RbNode K V × List (Call K V)) :=
  match tree with
  | null => none
  | node a c k d l r =>
    if l.isNull then some (null, release del l)
    else
      match _h : pushLeft (node a c k d l r) with
      | some (node a' c' k' d' l' r') =>
        (delMin del l').bind (fixUpWith fun l'' => node a' c' k' d' l'' r')
      | _ => none
termination_by countNodes tree
decreasing_by
  have := countNodes_pushLeft _h
  simp only [countNodes] at *
  omega

/-- `delete`. The comparison is made once, with the key of the node as it is on entry; the key that
decides between copying the successor and going on to the right is the one at the node after the
rotation. -/
def delete [DecidableEq K] (cmp : K → K → Int) (del : Bool) (tree : RbNode K V) (key : K) :
    Option (RbNode K V × List (Call K V)) :=
  match tree with
  | null => some (null, [])
  | node a c k d l r =>
    if cmp key k < 0 then
      match _h : pushLeft (node a c k d l r) with
      | some (node a' c' k' d' l' r') =>
        (delete cmp del l' key).bind (fixUpWith fun l'' => node a' c' k' d' l'' r')
      | _ => none
    else
      match _h : leanRight (node a c k d l r) with
      | none => none
      | some t =>
        if cmp key k = 0 ∧ (t.right.all RbNode.isNull) then some (null, release del t)
        else
          match _h' : pushRight t with
          | some (node a' c' k' d' l' r') =>
            if key = k' then
              match findMin r' with
              | null => none
              | node _ _ km dm _ _ =>
                (delMin del r').bind (fixUpWith fun r'' => node a' c' km dm l' r'')
            else
              (delete cmp del r' key).bind (fixUpWith fun r'' => node a' c' k' d' l' r'')
          | _ => none
termination_by countNodes tree
decreasing_by
  · have := countNodes_pushLeft _h
    simp only [countNodes] at *
    omega
  · have := countNodes_leanRight _h
    have := countNodes_pushRight _h'
    simp only [countNodes] at *
    omega

/-- The equation of `delMin` at a node. -/
theorem delMin_node (del : Bool) (a : Addr) (c : Bool) (k : K) (d : Option V)
    (l r : RbNode K V) :
    delMin del (node a c k d l r) =
      if l.isNull then some (null, release del l)
      else
        match pushLeft (node a c k d l r) with
        | some (node a' c' k' d' l' r') =>
          (delMin del l').bind (fixUpWith fun l'' => node a' c' k' d' l'' r')
        | _ => none := by
  rw [delMin]
  split
  · rfl
  · split
    · next h => simp only [h]
    · next h =>
      split
      · next h' => exact absurd h' (h _ _ _ _ _ _)
      · rfl

/-- The equation of `delete` at a node. -/
theorem delete_node [DecidableEq K] (cmp : K → K → Int) (del : Bool) (a : Addr) (c : Bool) (k : K)
    (d : Option V) (l r : RbNode K V) (key : K) :
    delete cmp del (node a c k d l r) key =
      if cmp key k < 0 then
        match pushLeft (node a c k d l r) with
        | some (node a' c' k' d' l' r') =>
          (delete cmp del l' key).bind (fixUpWith fun l'' => node a' c' k' d' l'' r')
        | _ => none
      else
        (leanRight (node a c k d l r)).bind fun t =>
          if cmp key k = 0 ∧ (t.right.all RbNode.isNull) then some (null, release del t)
          else
            match pushRight t with
            | some (node a' c' k' d' l' r') =>
              if key = k' then
                match findMin r' with
                | null => none
                | node _ _ km dm _ _ =>
                  (delMin del r').bind (fixUpWith fun r'' => node a' c' km dm l' r'')
              else
                (delete cmp del r' key).bind (fixUpWith fun r'' => node a' c' k' d' l' r'')
            | _ => none := by
  rw [delete]
  split
  · split
    · next h => simp only [h]
    · next h =>
      split
      · next h' => exact absurd h' (h _ _ _ _ _ _)
      · rfl
  · split
    · next h => simp only [h, Option.bind_none]
    · next t h =>
      simp only [h, Option.bind_some]
      split
      · rfl
      · split
        · next h' => simp only [h']
        · next h' =>
          split
          · next h'' => exact absurd h'' (h' _ _ _ _ _ _)
          · rfl

/-- `traverse` with the visited nodes listed by key and data. -/
def traverse : RbNode K V → List (K × Option V)
  | null => []
  | node _ _ k d l r => traverse l ++ (k, d) :: traverse r

/-- The search loop of `rb_find`. -/
def find (cmp : K → K → Int) : RbNode K V → K → Option V
  | null, _ => none
  | node _ _ k d l r, key =>
    if cmp key k = 0 then d
    else if cmp key k < 0 then find cmp l key else find cmp r key

/-! ## The exported functions -/

/-- The fields of `struct rbtree` that these functions read: the root, the comparison, and whether a
delete function is set. -/
structure RbTree (K V : Type) where
  root : RbNode K V
  cmp : K → K → Int
  del : Bool

/-- `rb_create` with the comparison that `rb_init` selects. -/
def rbCreate (cmp : K → K → Int) : RbTree K V := ⟨null, cmp, false⟩

/-- `rb->root->red = 0` -/
def blacken : RbNode K V → Option (RbNode K V)
  | null => none
  | node a _ k d l r => some (node a false k d l r)

def rbInsert (rb : RbTree K V) (alloc : Option Addr) (key : K) (data : Option V) :
    Option (RbTree K V) := do
  let root ← insert rb.cmp alloc rb.root key data
  return { rb with root := ← blacken root }

def rbDelete [DecidableEq K] (rb : RbTree K V) (key : K) :
    Option (RbTree K V × List (Call K V)) := do
  let (root, calls) ← delete rb.cmp rb.del rb.root key
  return ({ rb with root := ← blacken root }, calls)

def rbFind (rb : RbTree K V) (key : K) : Option V := find rb.cmp rb.root key

def rbSize (rb : RbTree K V) : Nat := countNodes rb.root

/-- `rb_foreach`: the nodes its callback is called on, in order. -/
def rbForeach (rb : RbTree K V) : List (K × Option V) := traverse rb.root

/-! ## The built-in comparisons -/

/-- `INT2PTR` -/
def int2ptr (x : BitVec 32) : BitVec 64 := x.signExtend 64

/-- `PTR2INT` -/
def ptr2int (p : BitVec 64) : BitVec 32 := p.setWidth 32

def cmpaddr (ap bp : BitVec 64) : Int := if ap < bp then -1 else if bp < ap then 1 else 0

/-- `cmpint`, with the `int` subtraction modulo `2 ^ 32`. -/
def cmpint (ap bp : BitVec 64) : Int := (ptr2int ap - ptr2int bp).toInt

/-! ## Integer keys -/

def rbInserti (rb : RbTree (BitVec 64) V) (alloc : Option Addr) (key : BitVec 32)
    (data : Option V) : Option (RbTree (BitVec 64) V) :=
  rbInsert rb alloc (int2ptr key) data

def rbDeletei (rb : RbTree (BitVec 64) V) (key : BitVec 32) :
    Option (RbTree (BitVec 64) V × List (Call (BitVec 64) V)) :=
  rbDelete rb (int2ptr key)

def rbFindi (rb : RbTree (BitVec 64) V) (key : BitVec 32) : Option V := rbFind rb (int2ptr key)

/-- `rb_clear`, without the calls that free the nodes. -/
def rbClear (rb : RbTree K V) : RbTree K V := { rb with root := null }

end Resman.Rb
