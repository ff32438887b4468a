import Mathlib.Data.BitVec

/-!
# The event buffer of `resman_check_watch`

`read` fills the front of a buffer of 512 bytes with inotify records laid end to end, each a header
of 16 bytes followed by a name of `len` bytes. `checkWatchLoop` is the inner loop over the returned
bytes: it looks at the header under `ev`, and advances `ev` and `sz` by `evsize`. The cursor is a
`struct inotify_event *`, so `ev += evsize` moves it by `evsize` headers, not by `evsize` bytes.

`scansRecords_iff` says when the loop looks at exactly the records of the buffer: when there is one.
-/

namespace Resman.FileWatch

/-- `struct inotify_event`, without the name that follows it. -/
structure InotifyEvent where
  wd : BitVec 32
  mask : BitVec 32
  cookie : BitVec 32
  len : BitVec 32
  deriving DecidableEq, Repr

/-- `IN_MODIFY` -/
def inModify : BitVec 32 := 0x00000002

/-- `IN_CLOSE_WRITE` -/
def inCloseWrite : BitVec 32 := 0x00000008

/-- `IN_IGNORED` -/
def inIgnored : BitVec 32 := 0x00008000

/-- `ev->mask & flag` -/
def InotifyEvent.has (ev : InotifyEvent) (flag : BitVec 32) : Bool := ev.mask &&& flag != 0

abbrev Byte := BitVec 8

/-- `sizeof(struct inotify_event)` -/
def headerSize : Nat := 16

/-- `sizeof buf` -/
def bufSize : Nat := 512

/-! ## The loop -/

/-- A little-endian word at the front of some bytes. -/
def readWord : List Byte → BitVec 32
  | b₀ :: b₁ :: b₂ :: b₃ :: _ => b₃ ++ b₂ ++ b₁ ++ b₀
  | _ => 0

/-- The header at a byte offset, `none` when it is not inside the buffer. -/
def readHeader (buf : List Byte) (off : Int) : Option InotifyEvent :=
  if 0 ≤ off ∧ off + headerSize ≤ buf.length then
    let bytes := buf.drop off.toNat
    some ⟨readWord bytes, readWord (bytes.drop 4), readWord (bytes.drop 8),
      readWord (bytes.drop 12)⟩
  else none

/-- `evsize`: the sum of `size_t` and `uint32_t`, converted to `int`. -/
def evsize (ev : InotifyEvent) : Int := (BitVec.ofNat 32 headerSize + ev.len).toInt

/-- How the loop ends: its condition fails, a header outside the buffer is read, or it still runs
after the given number of iterations. -/
inductive Outcome where
  | finished
  | outOfBounds
  | running
  deriving DecidableEq, Repr

/-- The loop `while(sz > 0)` with the cursor at the byte offset `off`: the headers it looks at with
their offsets, and how it ends. -/
def checkWatchLoop (buf : List Byte) : Nat → Int → Int → List (Int × InotifyEvent) × Outcome
  | 0, _, _ => ([], .running)
  | n + 1, off, sz =>
    if 0 < sz then
      match readHeader buf off with
      | none => ([], .outOfBounds)
      | some ev =>
        -- `ev += evsize` counts in headers
        let (looked, outcome) :=
          checkWatchLoop buf n (off + headerSize * evsize ev) (sz - evsize ev)
        ((off, ev) :: looked, outcome)
    else ([], .finished)

/-! ## Records laid end to end -/

/-- An inotify record: the header fields and the name. -/
structure Record where
  wd : BitVec 32
  mask : BitVec 32
  cookie : BitVec 32
  name : List Byte

def Record.header (r : Record) : InotifyEvent :=
  ⟨r.wd, r.mask, r.cookie, BitVec.ofNat 32 r.name.length⟩

def Record.size (r : Record) : Nat := headerSize + r.name.length

def writeWord (w : BitVec 32) : List Byte :=
  [w.extractLsb' 0 8, w.extractLsb' 8 8, w.extractLsb' 16 8, w.extractLsb' 24 8]

def writeHeader (ev : InotifyEvent) : List Byte :=
  writeWord ev.wd ++ writeWord ev.mask ++ writeWord ev.cookie ++ writeWord ev.len

def Record.bytes (r : Record) : List Byte := writeHeader r.header ++ r.name

def recordBytes (rs : List Record) : List Byte := rs.flatMap Record.bytes

/-- The value that `read` returns. -/
def total (rs : List Record) : Nat := (rs.map Record.size).sum

/-- The true byte offset and the header of each record. -/
def layout : Nat → List Record → List (Int × InotifyEvent)
  | _, [] => []
  | off, r :: rs => ((off : Int), r.header) :: layout (off + r.size) rs

/-- The loop looks at exactly the records `rs`, each once, in order and at its true offset, it reads
inside the returned bytes only, and it stops after the last. -/
def ScansRecords (buf : List Byte) (rs : List Record) : Prop :=
  ∃ n looked, checkWatchLoop buf n 0 (total rs) = (looked, .finished) ∧ looked = layout 0 rs ∧
    ∀ e ∈ looked, 0 ≤ e.1 ∧ e.1 + headerSize ≤ total rs

/-! ## Reading what was written -/

@[simp] theorem readWord_writeWord (w : BitVec 32) (bs : List Byte) :
    readWord (writeWord w ++ bs) = w := by
  simp only [writeWord, readWord, List.cons_append, List.nil_append]
  ext i hi
  simp
  grind

@[simp] theorem length_writeWord (w : BitVec 32) : (writeWord w).length = 4 := rfl

@[simp] theorem length_writeHeader (ev : InotifyEvent) : (writeHeader ev).length = headerSize := rfl

theorem length_recordBytes (rs : List Record) : (recordBytes rs).length = total rs := by
  induction rs with
  | nil => rfl
  | cons r rs ih =>
    simp only [recordBytes, List.flatMap_cons, List.length_append, total, List.map_cons,
      List.sum_cons, Record.bytes, length_writeHeader, Record.size] at *
    omega

/-- The header of a record is read back from its true offset. -/
theorem readHeader_append (pre : List Byte) (ev : InotifyEvent) (post : List Byte) :
    readHeader (pre ++ (writeHeader ev ++ post)) pre.length = some ev := by
  have h₀ : writeHeader ev ++ post =
      writeWord ev.wd ++ (writeWord ev.mask ++ (writeWord ev.cookie ++
      (writeWord ev.len ++ post))) := by
    simp only [writeHeader, List.append_assoc]
  have h₁ : (writeHeader ev ++ post).drop 4 = writeWord ev.mask ++ (writeWord ev.cookie ++
      (writeWord ev.len ++ post)) := by
    rw [h₀, List.drop_left' (length_writeWord _)]
  have h₂ : (writeHeader ev ++ post).drop 8 =
      writeWord ev.cookie ++ (writeWord ev.len ++ post) := by
    rw [show 8 = 4 + 4 from rfl, ← List.drop_drop, h₁, List.drop_left' (length_writeWord _)]
  have h₃ : (writeHeader ev ++ post).drop 12 = writeWord ev.len ++ post := by
    rw [show 12 = 8 + 4 from rfl, ← List.drop_drop, h₂, List.drop_left' (length_writeWord _)]
  rw [readHeader, if_pos (by simp), Int.toNat_natCast, List.drop_left]
  simp only [h₁, h₂, h₃, readWord_writeWord]
  rw [h₀, readWord_writeWord]

/-- A record that fits in the buffer has its size as its `evsize`. -/
theorem evsize_header (r : Record) (h : r.size ≤ bufSize) : evsize r.header = r.size := by
  simp only [Record.size, headerSize, bufSize] at h ⊢
  rw [evsize, Record.header, headerSize, ← BitVec.ofNat_add, BitVec.toInt_eq_toNat_of_lt]
  · rw [BitVec.toNat_ofNat, Nat.mod_eq_of_lt (by omega)]
  · rw [BitVec.toNat_ofNat, Nat.mod_eq_of_lt (by omega)]
    omega

/-! ## When the loop looks at the records -/

variable {r : Record} {rs : List Record} {rest : List Byte}

/-- The first iteration looks at the first record and advances by sixteen times its size. -/
theorem checkWatchLoop_first (hlen : total (r :: rs) ≤ bufSize) (n : Nat) :
    checkWatchLoop (recordBytes (r :: rs) ++ rest) (n + 1) 0 (total (r :: rs)) =
      let next := checkWatchLoop (recordBytes (r :: rs) ++ rest) n (headerSize * r.size) (total rs)
      ((0, r.header) :: next.1, next.2) := by
  have htotal : total (r :: rs) = r.size + total rs := by simp [total]
  have hpos : (0 : Int) < total (r :: rs) := by
    rw [htotal, Record.size, headerSize]
    omega
  have hread : readHeader (recordBytes (r :: rs) ++ rest) 0 = some r.header := by
    have := readHeader_append [] r.header (r.name ++ (recordBytes rs ++ rest))
    simpa [recordBytes, Record.bytes] using this
  have hsize : evsize r.header = r.size := evsize_header r (by omega)
  have hsz : (total (r :: rs) : Int) - r.size = total rs := by omega
  rw [checkWatchLoop, if_pos hpos]
  simp only [hread, hsize, hsz, zero_add]

/-- What the loop looks at first, if anything, is what is at the cursor. -/
theorem checkWatchLoop_head {buf : List Byte} {n : Nat} {off sz : Int} {e : Int × InotifyEvent}
    (h : (checkWatchLoop buf n off sz).1.head? = some e) : e.1 = off := by
  cases n with
  | zero => simp [checkWatchLoop] at h
  | succ n =>
    unfold checkWatchLoop at h
    split at h
    · split at h
      · simp at h
      · obtain rfl : _ = e := by simpa using h
        rfl
    · simp at h

/-- Where there is a second record, the loop does not look at it at its offset: it lies `r.size`
bytes into the buffer, and the cursor stands at sixteen times that. -/
theorem not_scansRecords {r' : Record} (hlen : total (r :: r' :: rs) ≤ bufSize) :
    ¬ ScansRecords (recordBytes (r :: r' :: rs) ++ rest) (r :: r' :: rs) := by
  rintro ⟨n, looked, hrun, hlooked, -⟩
  cases n with
  | zero => simp [checkWatchLoop] at hrun
  | succ n =>
    rw [checkWatchLoop_first hlen] at hrun
    obtain ⟨hlist, -⟩ := Prod.mk.inj hrun
    rw [hlooked] at hlist
    have hoff := checkWatchLoop_head (e := ((r.size : Int), r'.header))
      (by rw [(List.cons.inj hlist).2]; simp [layout])
    simp only [Record.size, headerSize] at hoff
    omega

/-- A single record is looked at, and then nothing is left. -/
theorem scansRecords_single (hlen : r.size ≤ bufSize) :
    ScansRecords (recordBytes [r] ++ rest) [r] := by
  refine ⟨2, layout 0 [r], ?_, rfl, ?_⟩
  · rw [checkWatchLoop_first (by simpa [total] using hlen), checkWatchLoop,
      if_neg (by simp [total])]
    rfl
  · simp [layout, total, Record.size]

/-- **The inner loop parses a buffer if and only if it holds one record.** -/
theorem scansRecords_iff (hne : rs ≠ []) (hbuf : (recordBytes rs ++ rest).length = bufSize) :
    ScansRecords (recordBytes rs ++ rest) rs ↔ rs.length = 1 := by
  have hlen : total rs ≤ bufSize := by
    rw [← hbuf, List.length_append, length_recordBytes]
    exact Nat.le_add_right _ _
  match rs, hne with
  | [r], _ => exact ⟨fun _ => rfl, fun _ => scansRecords_single (by simpa [total] using hlen)⟩
  | r :: r' :: rs, _ => exact ⟨fun h => absurd h (not_scansRecords hlen), fun h => by simp at h⟩

/-- A modification event as it is reported for a watched file. -/
def modified (wd : BitVec 32) : Record := ⟨wd, inModify, 0, []⟩

theorem scansRecords_iff_modified :
    ScansRecords (recordBytes [modified 1] ++ List.replicate 496 0) [modified 1] ↔
      [modified 1].length = 1 :=
  scansRecords_iff (by decide)
    (by rw [List.length_append, length_recordBytes, List.length_replicate]; decide)

/-- Two files modified between two polls: the second event is missed. -/
theorem not_scansRecords_two_modified :
    ¬ ScansRecords (recordBytes [modified 1, modified 2] ++ List.replicate 480 0)
      [modified 1, modified 2] :=
  not_scansRecords (by decide)

end Resman.FileWatch
