import Mathlib.Data.BitVec

/-!
# The dynamic array of `dynarr.c`

A block of memory holds the descriptor of an array and, after it, its buffer of bytes. Sums and
products of `int` are taken modulo `2 ^ 32`, and a request of memory is a `size_t`. `none` as a
result stands for undefined behaviour, an access outside the block, or for more memory than there
can be.

* `DynArr` is such a block. A byte that has not been written is `none`.
* `dynarrAlloc`, `dynarrResize`, `dynarrPush`, `dynarrPop` are the functions of these names; whether
  `malloc` or `realloc` finds memory is an argument, and a null pointer that they return is a `none`
  inside.
-/

namespace Resman.Dynarr

/-- An `int` that is the result of arithmetic. -/
def wrapInt (x : Int) : Int := x.bmod (2 ^ 32)

abbrev Byte := BitVec 8

/-- `struct arrdesc` and the buffer after it. -/
structure DynArr where
  nelem : Int
  szelem : Int
  maxElem : Int
  bufsz : Int
  buf : List (Option Byte)
  deriving DecidableEq, Repr

/-- `sizeof(struct arrdesc)` -/
def descSize : Nat := 16

/-- `n + sizeof(struct arrdesc)`, with `n` converted to `size_t`. -/
def request (n : Int) : Nat := ((n + descSize) % 2 ^ 64).toNat

/-- The bytes after the descriptor in the block that is allocated for `n` of them, the old bytes
being kept as far as they fit. No object has `2 ^ 63` bytes. -/
def newBuf (old : List (Option Byte)) (n : Int) (mem : Bool) :
    Option (Option (List (Option Byte))) :=
  if mem then
    -- the descriptor is written into the block
    if descSize ≤ request n ∧ request n < 2 ^ 63 then
      let size := request n - descSize
      some (some (old.take size ++ List.replicate (size - old.length) none))
    else none
  else some none

def dynarrAlloc (elem szelem : Int) (mem : Bool) : Option (Option DynArr) := do
  match ← newBuf [] (wrapInt (elem * szelem)) mem with
  | none => return none
  | some buf => return some ⟨elem, szelem, elem, wrapInt (elem * szelem), buf⟩

def dynarrResize (da : DynArr) (elem : Int) (mem : Bool) : Option (Option DynArr) := do
  let newsz := wrapInt (da.szelem * elem)
  match ← newBuf da.buf newsz mem with
  | none => return none
  | some buf => return some { da with nelem := elem, maxElem := elem, bufsz := newsz, buf }

/-- `memcpy` to an offset in the buffer. -/
def copyTo (buf : List (Option Byte)) (off : Int) (bytes : List Byte) :
    Option (List (Option Byte)) :=
  if 0 ≤ off ∧ off + bytes.length ≤ buf.length then
    some (buf.take off.toNat ++ bytes.map some ++ buf.drop (off.toNat + bytes.length))
  else none

/-- What `dynarr_push` does before it looks at the item: none when there is no
room and no memory. -/
def dynarrReserve (da : DynArr) (mem : Bool) : Option (Option DynArr) := do
  if da.maxElem ≤ da.nelem then
    let newsz := if da.maxElem ≠ 0 then wrapInt (da.maxElem * 2) else 1
    return (← dynarrResize da newsz mem).map fun tmp => { tmp with nelem := da.nelem }
  else return some da

/-- `dynarr_push`. The item is null or points to the bytes of one element. -/
def dynarrPush (da : DynArr) (item : Option (List Byte)) (mem : Bool) : Option DynArr := do
  match ← dynarrReserve da mem with
  | none => return da
  | some da =>
    match item with
    | none => return da
    | some bytes =>
      if (bytes.length : Int) = da.szelem then
        let buf ← copyTo da.buf (wrapInt (da.nelem * da.szelem)) bytes
        return { da with nelem := wrapInt (da.nelem + 1), buf }
      else none

/-- `dynarr_pop`, and whether it has resized the array. -/
def dynarrPop (da : DynArr) (mem : Bool) : Option (DynArr × Bool) := do
  if da.nelem = 0 then return (da, false)
  else if da.nelem ≤ da.maxElem.tdiv 3 then
    match ← dynarrResize da (da.maxElem.tdiv 2) mem with
    | none => return (da, false)
    | some tmp => return ({ tmp with nelem := wrapInt (da.nelem - 1) }, true)
  else return ({ da with nelem := wrapInt (da.nelem - 1) }, false)

end Resman.Dynarr
