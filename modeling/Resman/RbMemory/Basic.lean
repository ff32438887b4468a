import Resman.Lib.Store
import Resman.RbTree.Allocator

/-!
# The tree of `rbtree.c` in memory

The functions of `rbtree.c` as they read and write nodes through pointers. A node is a record in a
store, a tree is a pointer to its root, and every assignment of the source is a `modify`. `none`
stands for undefined behaviour: a null pointer, or a node that has been freed or never allocated, is
dereferenced.

The allocator is the one that `rb_init` sets, `malloc` and `free` of the C library. Recursions and
loops run on fuel, one unit for each call or round, and have no result without it.

* `colorFlip`, `rotLeft`, `rotRight`, `moveRedLeft`, `fixUp`, `insert`, `findMin`, `delMin`,
  `delete`, `delTree`, `countNodes`, `traverse`, `rbFind`, `rbNext` are the functions of these
  names.
* `delMin`, `delete` and `delTree` return the calls of the delete function and of `free` as well, in
  their order.
-/

namespace Resman.RbMem

open Lib
open Rb (Addr Call)

/-- `struct rbnode` -/
structure RbNode (K V : Type) where
  red : Bool
  key : K
  data : Option V
  left : Option Addr
  right : Option Addr
  next : Option Addr
  deriving DecidableEq, Repr

abbrev Heap (K V : Type) := Store Addr (RbNode K V)

/-- What `malloc` returns for a new node: an address, with what the field `next`
happens to hold there. -/
structure NewNode where
  addr : Addr
  next : Option Addr
  deriving DecidableEq, Repr

variable {K V : Type}

/-! ## Helpers -/

def isRed (h : Heap K V) : Option Addr → Option Bool
  | none => some false
  | some a => (h a).map RbNode.red

/-- `tree->red = !tree->red` -/
def flipRed (h : Heap K V) (tree : Option Addr) : Option (Heap K V) :=
  h.modify tree fun n => { n with red := !n.red }

def colorFlip (h : Heap K V) (tree : Option Addr) : Option (Heap K V) := do
  let h ← flipRed h tree
  let h ← flipRed h (← h.load tree).left
  flipRed h (← h.load tree).right

def rotLeft (h : Heap K V) (a : Option Addr) : Option (Heap K V × Option Addr) := do
  let b := (← h.load a).right
  let nb ← h.load b
  let h ← h.modify a fun n => { n with right := nb.left }
  let h ← h.modify b fun n => { n with left := a }
  let na ← h.load a
  let h ← h.modify b fun n => { n with red := na.red }
  let h ← h.modify a fun n => { n with red := true }
  return (h, b)

def rotRight (h : Heap K V) (a : Option Addr) : Option (Heap K V × Option Addr) := do
  let b := (← h.load a).left
  let nb ← h.load b
  let h ← h.modify a fun n => { n with left := nb.right }
  let h ← h.modify b fun n => { n with right := a }
  let na ← h.load a
  let h ← h.modify b fun n => { n with red := na.red }
  let h ← h.modify a fun n => { n with red := true }
  return (h, b)

/-- `is_red(tree->left) && is_red(tree->left->left)` -/
def redLeftLeft (h : Heap K V) (tree : Option Addr) : Option Bool := do
  let n ← h.load tree
  if ← isRed h n.left then isRed h (← h.load n.left).left else return false

/-- `is_red(tree->left) && is_red(tree->right)` -/
def redBoth (h : Heap K V) (tree : Option Addr) : Option Bool := do
  let n ← h.load tree
  if ← isRed h n.left then isRed h n.right else return false

/-- `if(is_red(tree->right)) tree = rot_left(tree);` -/
def fixRightRed (h : Heap K V) (tree : Option Addr) : Option (Heap K V × Option Addr) := do
  if ← isRed h (← h.load tree).right then rotLeft h tree else return (h, tree)

/-- `if(is_red(tree->left) && is_red(tree->left->left)) tree = rot_right(tree);` -/
def fixRedRed (h : Heap K V) (tree : Option Addr) : Option (Heap K V × Option Addr) := do
  if ← redLeftLeft h tree then rotRight h tree else return (h, tree)

/-- `if(is_red(tree->left) && is_red(tree->right)) color_flip(tree);` -/
def splitFour (h : Heap K V) (tree : Option Addr) : Option (Heap K V × Option Addr) := do
  if ← redBoth h tree then return (← colorFlip h tree, tree) else return (h, tree)

def fixUp (h : Heap K V) (tree : Option Addr) : Option (Heap K V × Option Addr) := do
  let (h, tree) ← fixRightRed h tree
  let (h, tree) ← fixRedRed h tree
  splitFour h tree

/-- `if(is_red(tree->right->left)) { tree->right = rot_right(tree->right); tree = rot_left(tree);
color_flip(tree); }` -/
def fixRightLeft (h : Heap K V) (tree : Option Addr) : Option (Heap K V × Option Addr) := do
  let n ← h.load tree
  if ← isRed h (← h.load n.right).left then
    let (h, r) ← rotRight h n.right
    let h ← h.modify tree fun n => { n with right := r }
    let (h, tree) ← rotLeft h tree
    return (← colorFlip h tree, tree)
  else return (h, tree)

def moveRedLeft (h : Heap K V) (tree : Option Addr) : Option (Heap K V × Option Addr) := do
  fixRightLeft (← colorFlip h tree) tree

/-- `if(!is_red(tree->left) && !is_red(tree->left->left)) tree = move_red_left(tree);` -/
def pushLeft (h : Heap K V) (tree : Option Addr) : Option (Heap K V × Option Addr) := do
  let n ← h.load tree
  if ← isRed h n.left then return (h, tree)
  if ← isRed h (← h.load n.left).left then return (h, tree) else moveRedLeft h tree

/-- `if(!is_red(tree->right) && !is_red(tree->right->left)) tree = move_red_left(tree);` -/
def pushRight (h : Heap K V) (tree : Option Addr) : Option (Heap K V × Option Addr) := do
  let n ← h.load tree
  if ← isRed h n.right then return (h, tree)
  if ← isRed h (← h.load n.right).left then return (h, tree) else moveRedLeft h tree

/-- `if(is_red(tree->left)) tree = rot_right(tree);` -/
def leanRight (h : Heap K V) (tree : Option Addr) : Option (Heap K V × Option Addr) := do
  if ← isRed h (← h.load tree).left then rotRight h tree else return (h, tree)

/-! ## Insertion and deletion -/

/-- `insert`; `new` is what `malloc` returns if it is called. The three tests at
its end are those of `fix_up`. -/
def insert (cmp : K → K → Int) (new : Option NewNode) :
    Nat → Heap K V → Option Addr → K → Option V → Option (Heap K V × Option Addr)
  | 0, _, _, _, _ => none
  | _ + 1, h, none, key, data => do
    let node ← new
    let h ← h.alloc node.addr ⟨true, key, data, none, none, node.next⟩
    return (h, some node.addr)
  | fuel + 1, h, some a, key, data => do
    let n ← h a
    if cmp key n.key < 0 then
      let (h, l) ← insert cmp new fuel h n.left key data
      fixUp (← h.modify (some a) fun n => { n with left := l }) (some a)
    else if 0 < cmp key n.key then
      let (h, r) ← insert cmp new fuel h n.right key data
      fixUp (← h.modify (some a) fun n => { n with right := r }) (some a)
    else fixUp (← h.modify (some a) fun n => { n with data }) (some a)

/-- The loop of `find_min`. -/
def findMinLoop : Nat → Heap K V → Addr → Option Addr
  | 0, _, _ => none
  | fuel + 1, h, a => do
    match (← h a).left with
    | none => return a
    | some l => findMinLoop fuel h l

def findMin (fuel : Nat) (h : Heap K V) : Option Addr → Option (Option Addr)
  | none => some none
  | some a => (findMinLoop fuel h a).map some

/-- What the delete function is given. -/
def entry (h : Heap K V) : Option Addr → Option (Option (Addr × K × Option V))
  | none => some none
  | some a => (h a).map fun n => some (a, n.key, n.data)

/-- `if(rb->del) rb->del(tree, rb->del_cls); rb->free(tree);` -/
def release (del : Bool) (h : Heap K V) (tree : Option Addr) :
    Option (Heap K V × List (Call K V)) := do
  let e ← entry h tree
  return (← h.free tree, (if del then [.del e] else []) ++ [.free tree])

/-- `tree->left = ...; return fix_up(tree);` (or `tree->right`). -/
def fixUpWith (put : Option Addr → RbNode K V → RbNode K V) (tree : Option Addr)
    (r : Heap K V × Option Addr × List (Call K V)) :
    Option (Heap K V × Option Addr × List (Call K V)) := do
  let h ← r.1.modify tree (put r.2.1)
  let (h, tree) ← fixUp h tree
  return (h, tree, r.2.2)

def delMin (del : Bool) :
    Nat → Heap K V → Option Addr → Option (Heap K V × Option Addr × List (Call K V))
  | 0, _, _ => none
  | fuel + 1, h, tree => do
    let n ← h.load tree
    if n.left.isNone then
      let (h, calls) ← release del h n.left
      return (h, none, calls)
    let (h, tree) ← pushLeft h tree
    fixUpWith (fun l n => { n with left := l }) tree (← delMin del fuel h (← h.load tree).left)

def delete [DecidableEq K] (cmp : K → K → Int) (del : Bool) :
    Nat → Heap K V → Option Addr → K → Option (Heap K V × Option Addr × List (Call K V))
  | 0, _, _, _ => none
  | _ + 1, h, none, _ => some (h, none, [])
  | fuel + 1, h, some a, key => do
    let n ← h a
    if cmp key n.key < 0 then
      let (h, tree) ← pushLeft h (some a)
      fixUpWith (fun l n => { n with left := l }) tree
        (← delete cmp del fuel h (← h.load tree).left key)
    else
      let (h, tree) ← leanRight h (some a)
      if cmp key n.key = 0 ∧ (← h.load tree).right.isNone then
        let (h, calls) ← release del h tree
        return (h, none, calls)
      let (h, tree) ← pushRight h tree
      let n ← h.load tree
      if key = n.key then
        let m ← h.load (← findMin fuel h n.right)
        let h ← h.modify tree fun n => { n with key := m.key, data := m.data }
        fixUpWith (fun r n => { n with right := r }) tree (← delMin del fuel h n.right)
      else
        fixUpWith (fun r n => { n with right := r }) tree (← delete cmp del fuel h n.right key)

def delTree (del : Bool) : Nat → Heap K V → Option Addr → Option (Heap K V × List (Call K V))
  | 0, _, _ => none
  | _ + 1, h, none => some (h, [])
  | fuel + 1, h, some a => do
    let (h, left) ← delTree del fuel h (← h a).left
    let (h, right) ← delTree del fuel h (← h a).right
    let (h, calls) ← release del h (some a)
    return (h, left ++ right ++ calls)

/-! ## Reading -/

def countNodes : Nat → Heap K V → Option Addr → Option Nat
  | 0, _, _ => none
  | _ + 1, _, none => some 0
  | fuel + 1, h, some a => do
    let n ← h a
    return 1 + (← countNodes fuel h n.left) + (← countNodes fuel h n.right)

/-- `traverse` with the visited nodes listed by key and data. -/
def traverse : Nat → Heap K V → Option Addr → Option (List (K × Option V))
  | 0, _, _ => none
  | _ + 1, _, none => some []
  | fuel + 1, h, some a => do
    let n ← h a
    return (← traverse fuel h n.left) ++ (n.key, n.data) :: (← traverse fuel h n.right)

/-- The loop of `rb_find`. -/
def findLoop (cmp : K → K → Int) : Nat → Heap K V → Option Addr → K → Option (Option V)
  | 0, _, _, _ => none
  | _ + 1, _, none, _ => some none
  | fuel + 1, h, some a, key => do
    let n ← h a
    if cmp key n.key = 0 then return n.data
    findLoop cmp fuel h (if cmp key n.key < 0 then n.left else n.right) key

/-! ## The exported functions -/

/-- `struct rbtree`, with the allocator of the C library; `del` says whether a
delete function is set. -/
structure RbTree (K V : Type) where
  root : Option Addr
  cmp : K → K → Int
  del : Bool
  rstack : Option Addr
  iter : Option Addr

/-- `rb_create` with the comparison that `rb_init` selects. -/
def rbCreate (cmp : K → K → Int) : RbTree K V := ⟨none, cmp, false, none, none⟩

/-- `rb_set_delete_func`; `del` says whether the function is not null. -/
def rbSetDeleteFunc (rb : RbTree K V) (del : Bool) : RbTree K V := { rb with del }

section Exported

variable (fuel : Nat) (h : Heap K V) (rb : RbTree K V)

/-- `rb->root->red = 0` -/
def blacken (root : Option Addr) : Option (Heap K V) :=
  h.modify root fun n => { n with red := false }

def rbInsert (new : Option NewNode) (key : K) (data : Option V) :
    Option (Heap K V × RbTree K V) := do
  let (h, root) ← insert rb.cmp new fuel h rb.root key data
  return (← blacken h root, { rb with root })

def rbDelete [DecidableEq K] (key : K) : Option (Heap K V × RbTree K V × List (Call K V)) := do
  let (h, root, calls) ← delete rb.cmp rb.del fuel h rb.root key
  return (← blacken h root, { rb with root }, calls)

def rbClear : Option (Heap K V × RbTree K V × List (Call K V)) := do
  let (h, calls) ← delTree rb.del fuel h rb.root
  return (h, { rb with root := none }, calls)

/-- `rb_destroy` -/
def rbDestroy : Option (Heap K V × List (Call K V)) := delTree rb.del fuel h rb.root

def rbFind (key : K) : Option (Option V) := findLoop rb.cmp fuel h rb.root key

def rbSize : Option Nat := countNodes fuel h rb.root

/-- `rb_foreach`: the nodes its callback is called on, in order. -/
def rbForeach : Option (List (K × Option V)) := traverse fuel h rb.root

def rbBegin : RbTree K V := { rb with rstack := none, iter := rb.root }

end Exported

/-- The loop of `rb_next`. -/
def rbNext : Nat → Heap K V → RbTree K V → Option (Heap K V × RbTree K V × Option Addr)
  | 0, _, _ => none
  | fuel + 1, h, rb =>
    match rb.iter, rb.rstack with
    | none, none => some (h, rb, none)
    | some a, _ => do
      -- `push(rb->rstack, rb->iter); rb->iter = rb->iter->left;`
      let h ← h.modify (some a) fun n => { n with next := rb.rstack }
      rbNext fuel h { rb with rstack := some a, iter := (← h a).left }
    | none, some a => do
      -- `rb->iter = top(rb->rstack); pop(rb->rstack); res = rb->iter; rb->iter = rb->iter->right;`
      let n ← h a
      return (h, { rb with rstack := n.next, iter := n.right }, some a)

end Resman.RbMem
