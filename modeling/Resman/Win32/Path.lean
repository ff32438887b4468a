import Resman.Lib.Lexicographic

/-!
# Paths on Windows

`abs_path`, `clean_path` and the cut at the last backslash, by which `resman_start_watch` finds the
directory of a file. `clean_path` works in place: `ptr` and `dest` are positions in the characters
of the path, the terminator stands after the last of them, and an access outside has the result
`none`.
-/

namespace Resman.Win32

/-- The characters of a string, without the terminator. -/
abbrev Text := List Char

/-- `'\0'` -/
def nul : Char := Char.ofNat 0

/-- `strcmp` -/
def strcmp : Text → Text → Int := Lib.lexCompare fun a b => (a.toNat : Int) - b.toNat

theorem strcmp_strictTotal : Lib.StrictTotal strcmp :=
  Lib.lexCompare_strictTotal
    { eq_of_zero := fun h => Char.toNat_inj.1 (by omega)
      self := fun a => by omega
      swap := fun {a b} => by omega
      trans := fun {a b c} hab hbc => by omega }

/-- `abs_path`, with what `GetCurrentDirectory` writes. Of the empty name the character after the
terminator is read. -/
def absPath (cwd : Text) : Text → Option Text
  | [] => none
  | c :: fname =>
    if c ≠ '/' ∧ fname.head? ≠ some ':' then some (cwd ++ '\\' :: c :: fname) else some (c :: fname)

/-! ## Cleaning a path -/

/-- The character at a position of a string. -/
def readAt (buf : Text) (i : Int) : Option Char :=
  if i = buf.length then some nul else if 0 ≤ i then buf[i.toNat]? else none

def writeAt (buf : Text) (i : Int) (c : Char) : Option Text :=
  if 0 ≤ i ∧ i < buf.length then some (buf.set i.toNat c) else none

/-- Whether these characters stand at a position; they are compared up to the first that differs. -/
def startsAt (buf : Text) : Int → Text → Option Bool
  | _, [] => some true
  | i, c :: cs => do
    if (← readAt buf i) = c then startsAt buf (i + 1) cs else return false

/-- `while(dest > path && *dest != '\\') dest--;` -/
def backToSlash (buf : Text) : Nat → Option Nat
  | 0 => some 0
  | dest + 1 => do
    if (← readAt buf ((dest + 1 : Nat) : Int)) = '\\' then return dest + 1 else backToSlash buf dest

/-- The variables of the second loop of `clean_path`. -/
structure Cursor where
  buf : Text
  ptr : Int
  dest : Int
  deriving DecidableEq, Repr

/-- `ptr` is just after a slash, and these characters follow. -/
def Cursor.afterSlash (c : Cursor) (part : Text) : Option Bool := do
  if 0 < c.ptr then
    if (← readAt c.buf (c.ptr - 1)) = '\\' then startsAt c.buf c.ptr part else return false
  else return false

/-- The body of the loop. -/
def cleanStep (c : Cursor) : Option Cursor := do
  if ← c.afterSlash ['.', '\\'] then return { c with ptr := c.ptr + 2 }
  else if ← c.afterSlash ['.', '.', '\\'] then
    let back := c.dest - 2
    let dest ← if 0 < back then (backToSlash c.buf back.toNat).map Int.ofNat else some back
    -- at the beginning, the first character may be no slash
    let dest := if (← readAt c.buf dest) = '\\' then dest + 1 else dest
    return { c with ptr := c.ptr + 3, dest }
  else if c.dest ≠ c.ptr then
    return ⟨← writeAt c.buf c.dest (← readAt c.buf c.ptr), c.ptr + 1, c.dest + 1⟩
  else return { c with ptr := c.ptr + 1, dest := c.dest + 1 }

/-- The loop `while(*ptr)`, for as many rounds as there are characters. -/
def cleanLoop : Nat → Cursor → Option Cursor
  | 0, c => some c
  | n + 1, c => do
    if (← readAt c.buf c.ptr) = nul then return c else cleanLoop n (← cleanStep c)

/-- `clean_path`. Nothing ends the string at `dest`. -/
def cleanPath (path : Text) : Option Text :=
  let buf := path.map fun c => if c = '/' then '\\' else c
  (cleanLoop path.length ⟨buf, 0, 0⟩).map Cursor.buf

/-- What is before the last backslash: `strrchr`, and the cut there. -/
def cutLastSlash (path : Text) : Option Text :=
  match path.reverse.dropWhile (· ≠ '\\') with
  | [] => none
  | _ :: rest => some rest.reverse

/-- The directory of a file, or none when its path has no slash. -/
def dirPath (cwd fname : Text) : Option (Option Text) := do
  return cutLastSlash (← cleanPath (← absPath cwd fname))

end Resman.Win32
