import Mathlib.Data.List.Forall2
import Resman.FileWatch.Buffer
import Resman.Lib.Run
import Resman.Win32.System

/-!
# Change notifications on Windows

`handle_event` follows the chain of records in the buffer of a directory. For a modified file it
takes the first item whose resource has the name of the record anywhere in its own name, and when
there is none it takes the one of an earlier record again. `reloadsNamed_iff` says for which records
the resources that are reloaded are the modified ones.
-/

namespace Resman.Win32

open Rb Lib
open FileWatch (Byte readWord writeWord)

/-- `WCHAR` -/
abbrev WChar := BitVec 16

/-- `FILE_ACTION_MODIFIED` -/
def fileActionModified : BitVec 32 := 0x00000003

/-- A `FILE_NOTIFY_INFORMATION`, with the name that follows it. -/
structure Record where
  action : BitVec 32
  name : List WChar
  deriving DecidableEq, Repr

def Record.modified (entry : Record) : Bool := entry.action = fileActionModified

/-- A file was modified: the resource that is reloaded, or the name for which none was found. -/
inductive Notice where
  | reload (res : ResPtr)
  | notFound (name : Text)
  deriving DecidableEq, Repr

/-! ## Reading a record -/

/-- The `DWORD` at a byte offset, `none` when it is not inside the buffer. -/
def readDword (info : List Byte) (off : Nat) : Option (BitVec 32) :=
  if off + 4 ≤ info.length then some (readWord (info.drop off)) else none

/-- Little-endian pairs of bytes. -/
def toWide : List Byte → List WChar
  | lo :: hi :: bytes => (hi ++ lo) :: toWide bytes
  | _ => []

/-- `sizeof(FILE_NOTIFY_INFORMATION)` up to the name -/
def recordHeader : Nat := 12

/-- `wname`, copied from a name of so many bytes; of an odd number the last byte is
overwritten by the terminator. -/
def readName (info : List Byte) (size : Nat) : Option (List WChar) :=
  if recordHeader + size ≤ info.length then some (toWide ((info.drop recordHeader).take size))
    else none

/-! ## The loop -/

/-- `strstr`, whether it finds the second string in the first one. -/
def strstr (name part : Text) : Bool := decide (part <:+: name)

/-- The name of a record as a multibyte string; `wcstombs` is none for a name
that it cannot convert. -/
def Record.text (wcstombs : List WChar → Option Text) (entry : Record) : Option Text :=
  wcstombs (entry.name.takeWhile (· ≠ 0))

section Loop

variable (wcstombs : List WChar → Option Text) (resources : ResPtr → Option Resource)
  (items : List ResPtr)

/-- The loop over the items of the directory. -/
def findItem (name : Text) : List ResPtr → Option (Option ResPtr)
  | [] => some none
  | res :: next => do
    if strstr (← resources res).name name then return some res else findItem name next

/-- A modified file; `res` is what the records before it have left. -/
def handleModified (entry : Record) (res : Option ResPtr) : Option (Notice × Option ResPtr) := do
  -- a name that is not converted is not terminated either
  let name ← entry.text wcstombs
  let res := (← findItem resources name items).or res
  return (match res with
    | none => .notFound name
    | some res => .reload res, res)

/-- The loop `for(;;)` with `info` at the front of some bytes, for a number of records. -/
def eventLoop : Nat → List Byte → Option ResPtr → Option (List Notice)
  | 0, _, _ => none
  | n + 1, info, res => do
    let action ← readDword info 4
    let (notices, res) ←
      if action = fileActionModified then do
        let name ← readName info (← readDword info 8).toNat
        let (notice, res) ← handleModified wcstombs resources items ⟨action, name⟩ res
        pure ([notice], res)
      else pure ([], res)
    let next ← readDword info 0
    if next = 0 then return notices
    else return notices ++ (← eventLoop n (info.drop next.toNat) res)

end Loop

/-- `handle_event`, and whether `GetOverlappedResult` succeeds. Each record is at least one byte
after the one before it, so there are at most as many as bytes. -/
def handleEvent (wcstombs : List WChar → Option Text) (s : State) (d : DirPtr) (buf : List Byte)
    (completed : Bool) : Option (List Notice) := do
  let w ← s.wdirs d
  if completed then eventLoop wcstombs s.resources w.items buf.length buf none else return []

/-! ## The records of a buffer -/

/-- The chain of records, of so many at most. -/
def records : Nat → List Byte → Option (List Record)
  | 0, _ => none
  | n + 1, info => do
    let entry : Record := ⟨← readDword info 4, ← readName info (← readDword info 8).toNat⟩
    let next ← readDword info 0
    if next = 0 then return [entry] else return entry :: (← records n (info.drop next.toNat))

/-- The buffer is a chain of these records. -/
def Chained (buf : List Byte) (entries : List Record) : Prop := ∃ n, records n buf = some entries

def writeName (name : List WChar) : List Byte :=
  name.flatMap fun c => [c.extractLsb' 0 8, c.extractLsb' 8 8]

def writeRecord (next : BitVec 32) (entry : Record) : List Byte :=
  writeWord next ++ (writeWord entry.action ++
    (writeWord (BitVec.ofNat 32 (2 * entry.name.length)) ++ writeName entry.name))

/-- The size of a record with the bytes up to the next one, which starts at a `DWORD`. -/
def Record.size (entry : Record) : Nat := (recordHeader + 2 * entry.name.length + 3) / 4 * 4

def writeRecords : List Record → List Byte
  | [] => []
  | [entry] => writeRecord 0 entry
  | entry :: entries =>
    writeRecord (BitVec.ofNat 32 entry.size) entry ++
      (List.replicate (entry.size - (recordHeader + 2 * entry.name.length)) 0 ++
        writeRecords entries)

section Records

variable {info : List Byte} {entry : Record} {entries : List Record} {n : Nat}

/-- A round of the loop: the record at the front, and where the next one is. -/
theorem records_succ : records (n + 1) info = some entries ↔
    ∃ action size name next, readDword info 4 = some action ∧ readDword info 8 = some size ∧
      readName info size.toNat = some name ∧ readDword info 0 = some next ∧
      (next = 0 ∧ entries = [⟨action, name⟩] ∨
        next ≠ 0 ∧ ∃ later, records n (info.drop next.toNat) = some later ∧
          entries = ⟨action, name⟩ :: later) := by
  simp only [records, Option.bind_eq_bind, Option.bind_eq_some_iff, Option.pure_def]
  constructor
  · rintro ⟨action, haction, size, hsize, name, hname, next, hnext, h⟩
    refine ⟨action, size, name, next, haction, hsize, hname, hnext, ?_⟩
    split at h
    · next h0 => exact .inl ⟨h0, (Option.some.inj h).symm⟩
    · next h0 =>
      obtain ⟨later, hlater, h⟩ := Option.bind_eq_some_iff.1 h
      exact .inr ⟨h0, later, hlater, (Option.some.inj h).symm⟩
  · rintro ⟨action, size, name, next, haction, hsize, hname, hnext,
      ⟨h0, rfl⟩ | ⟨h0, later, hlater, rfl⟩⟩
    · exact ⟨action, haction, size, hsize, name, hname, next, hnext, by rw [if_pos h0]⟩
    · refine ⟨action, haction, size, hsize, name, hname, next, hnext, ?_⟩
      rw [if_neg h0, hlater, Option.bind_some]

theorem readDword_length {off : Nat} {x : BitVec 32} (h : readDword info off = some x) :
    off + 4 ≤ info.length := by
  unfold readDword at h
  split at h
  · next hle => exact hle
  · cases h

/-- The number of bytes is enough for the records. -/
theorem records_of_length_le : ∀ {n m : Nat} {info : List Byte} {entries : List Record},
    records n info = some entries → info.length ≤ m → records m info = some entries := by
  intro n
  induction n with
  | zero => exact fun h _ => nomatch h
  | succ n ih =>
    intro m info entries h hm
    obtain ⟨action, size, name, next, haction, hsize, hname, hnext, hrest⟩ := records_succ.1 h
    have hlen := readDword_length haction
    obtain ⟨m, rfl⟩ : ∃ k, m = k + 1 := ⟨m - 1, by omega⟩
    refine records_succ.2 ⟨action, size, name, next, haction, hsize, hname,
      hnext, hrest.imp_right ?_⟩
    rintro ⟨h0, later, hlater, hentries⟩
    have hpos : 0 < next.toNat := Nat.pos_of_ne_zero fun hz => h0 (BitVec.toNat_eq.2 hz)
    refine ⟨h0, later, ih hlater ?_, hentries⟩
    rw [List.length_drop]
    omega

theorem Chained.records (h : Chained info entries) :
    Win32.records info.length info = some entries := by
  obtain ⟨n, hn⟩ := h
  exact records_of_length_le hn (Nat.le_refl _)

/-! ### Reading what was written -/

theorem toWide_writeName (name : List WChar) : toWide (writeName name) = name := by
  induction name with
  | nil => rfl
  | cons c name ih =>
    have hcons : writeName (c :: name) = c.extractLsb' 0 8 :: c.extractLsb' 8 8 :: writeName name :=
      rfl
    rw [hcons, toWide, ih]
    congr 1
    ext i hi
    simp
    grind

theorem length_writeName (name : List WChar) : (writeName name).length = 2 * name.length := by
  induction name with
  | nil => rfl
  | cons c name ih =>
    have hcons : writeName (c :: name) = c.extractLsb' 0 8 :: c.extractLsb' 8 8 :: writeName name :=
      rfl
    rw [hcons, List.length_cons, List.length_cons, List.length_cons, ih]
    omega

theorem readDword_append (before : List Byte) (x : BitVec 32) (after : List Byte) :
    readDword (before ++ (writeWord x ++ after)) before.length = some x := by
  rw [readDword, if_pos (by simp), List.drop_left, FileWatch.readWord_writeWord]

/-- The parts of a record that has been written, whatever follows it. -/
theorem read_writeRecord (next : BitVec 32) (entry : Record) (after : List Byte)
    (hfits : entry.size < 2 ^ 32) :
    readDword (writeRecord next entry ++ after) 0 = some next ∧
      readDword (writeRecord next entry ++ after) 4 = some entry.action ∧
      ∃ size, readDword (writeRecord next entry ++ after) 8 = some size ∧
        readName (writeRecord next entry ++ after) size.toNat = some entry.name := by
  have hsize : (BitVec.ofNat 32 (2 * entry.name.length)).toNat = 2 * entry.name.length := by
    rw [BitVec.toNat_ofNat, Nat.mod_eq_of_lt]
    unfold Record.size recordHeader at hfits
    omega
  have hname := length_writeName entry.name
  generalize hlen : BitVec.ofNat 32 (2 * entry.name.length) = size at hsize
  simp only [writeRecord, hlen, List.append_assoc]
  refine ⟨readDword_append [] next _, readDword_append (writeWord next) entry.action _,
    size, ?_, ?_⟩
  · have h := readDword_append (writeWord next ++ writeWord entry.action) size
      (writeName entry.name ++ after)
    rwa [List.append_assoc] at h
  · have hdrop : (writeWord next ++ (writeWord entry.action ++ (writeWord size ++
        (writeName entry.name ++ after)))).drop recordHeader = writeName entry.name ++ after := by
      rw [← List.append_assoc, ← List.append_assoc]
      exact List.drop_left' rfl
    rw [readName, hdrop, hsize, if_pos, List.take_left' hname, toWide_writeName]
    simp [recordHeader, hname]
    omega

/-- **What was written is read back**, whatever follows in the buffer. -/
theorem chained_writeRecords (hne : entries ≠ []) (hfits : ∀ entry ∈ entries, entry.size < 2 ^ 32)
    (after : List Byte) : Chained (writeRecords entries ++ after) entries := by
  induction entries with
  | nil => exact absurd rfl hne
  | cons entry entries ih =>
    have hfit := hfits entry List.mem_cons_self
    cases entries with
    | nil =>
      obtain ⟨hnext, haction, size, hsize, hname⟩ := read_writeRecord 0 entry after hfit
      exact ⟨1, records_succ.2 ⟨_, size, _, 0, haction, hsize, hname, hnext, .inl ⟨rfl, rfl⟩⟩⟩
    | cons entry' entries =>
      obtain ⟨n, hn⟩ := ih nofun fun x hx => hfits x (List.mem_cons_of_mem _ hx)
      have hle : recordHeader + 2 * entry.name.length ≤ entry.size := by
        unfold Record.size recordHeader
        omega
      have hpos : 0 < entry.size := by
        unfold recordHeader at hle
        omega
      have hoff : (BitVec.ofNat 32 entry.size).toNat = entry.size := by
        rw [BitVec.toNat_ofNat, Nat.mod_eq_of_lt hfit]
      have hzero : BitVec.ofNat 32 entry.size ≠ 0 := fun h0 => by
        rw [h0] at hoff
        exact absurd hoff.symm hpos.ne'
      simp only [writeRecords, List.append_assoc]
      generalize hrest : List.replicate _ (0 : Byte) ++
        (writeRecords (entry' :: entries) ++ after) = rest
      obtain ⟨hnext, haction, size, hsize, hname⟩ :=
        read_writeRecord (BitVec.ofNat 32 entry.size) entry rest hfit
      refine ⟨n + 1, records_succ.2 ⟨_, size, _, _, haction, hsize, hname, hnext,
        .inr ⟨hzero, _, ?_, rfl⟩⟩⟩
      have hlen : (writeRecord (BitVec.ofNat 32 entry.size) entry ++
          List.replicate (entry.size - (recordHeader + 2 * entry.name.length)) (0 : Byte)).length =
        entry.size := by
        simp only [writeRecord, List.length_append, FileWatch.length_writeWord, length_writeName,
          List.length_replicate]
        unfold recordHeader at hle ⊢
        omega
      rw [hoff, ← hrest, ← List.append_assoc, List.drop_left' hlen]
      exact hn

end Records

/-! ## The notices for a chain of records -/

section Notices

variable {wcstombs : List WChar → Option Text} {resources : ResPtr → Option Resource}
  {items : List ResPtr} {res : Option ResPtr}

variable (wcstombs resources items) in
/-- The loop over the records. -/
def handleRecords : Option ResPtr → List Record → Option (List Notice)
  | _, [] => some []
  | res, entry :: entries =>
    if entry.modified then do
      let (notice, res) ← handleModified wcstombs resources items entry res
      return notice :: (← handleRecords res entries)
    else handleRecords res entries

/-- On a chain of records the loop does what the records say. -/
theorem eventLoop_of_records {n : Nat} :
    ∀ {info : List Byte} {entries : List Record} {res : Option ResPtr},
    records n info = some entries →
      eventLoop wcstombs resources items n info res =
        handleRecords wcstombs resources items res entries := by
  induction n with
  | zero => exact fun h => nomatch h
  | succ n ih =>
    intro info entries res h
    obtain ⟨action, size, name, next, haction, hsize, hname, hnext, hrest⟩ := records_succ.1 h
    rcases hrest with ⟨h0, rfl⟩ | ⟨h0, later, hlater, rfl⟩
    · simp only [eventLoop, haction, hsize, hname, hnext, h0, handleRecords, Record.modified,
        Option.bind_eq_bind, Option.bind_some, decide_eq_true_eq]
      split
      · cases handleModified wcstombs resources items ⟨action, name⟩ res with
        | none => rfl
        | some r => rfl
      · rfl
    · simp only [eventLoop, haction, hsize, hname, hnext, h0, handleRecords, Record.modified,
        Option.bind_eq_bind, Option.bind_some, decide_eq_true_eq]
      split
      · cases handleModified wcstombs resources items ⟨action, name⟩ res with
        | none => rfl
        | some r =>
          simp only [Option.bind_some, Option.pure_def, if_false, ih hlater]
          cases handleRecords wcstombs resources items r.2 later with
          | none => rfl
          | some notices => rfl
      · simp only [Option.bind_some, Option.pure_def, if_false, ih hlater, List.nil_append]
        cases handleRecords wcstombs resources items res later with
        | none => rfl
        | some notices => rfl

/-- The loop over the items ends at the first one whose resource has the name in its own name. -/
theorem findItem_eq (name : Text) (hlive : ∀ p ∈ items, (resources p).isSome) :
    findItem resources name items =
      some (items.find? fun p => (resources p).any (strstr ·.name name)) := by
  induction items with
  | nil => rfl
  | cons p items ih =>
    obtain ⟨r, hr⟩ := Option.isSome_iff_exists.1 (hlive p List.mem_cons_self)
    simp only [findItem, hr, Option.bind_eq_bind, Option.bind_some,
      List.find?_cons, Option.any_some]
    cases strstr r.name name with
    | true => rfl
    | false => exact ih fun q hq => hlive q (List.mem_cons_of_mem _ hq)

end Notices

/-! ## Whose modification is noticed -/

/-- What follows the last slash. -/
def fileName (name : Text) : Text := (name.reverse.takeWhile fun c => c ≠ '/' ∧ c ≠ '\\').reverse

theorem fileName_within (name : Text) : fileName name <:+: name := by
  have hprefix := List.takeWhile_prefix (l := name.reverse) fun c => decide (c ≠ '/' ∧ c ≠ '\\')
  have hsuffix := List.reverse_suffix.2 hprefix
  rw [List.reverse_reverse] at hsuffix
  exact hsuffix.isInfix

section Spec

variable (wcstombs : List WChar → Option Text) (resources : ResPtr → Option Resource)
  (items : List ResPtr)

/-- The resource is of a file of this name. -/
def Named (name : Text) (p : ResPtr) : Prop := ∃ r ∈ resources p, fileName r.name = name

/-- The name of the resource has this name somewhere in it. -/
def mentions (name : Text) (p : ResPtr) : Bool := (resources p).any (strstr ·.name name)

/-- A modified file is noticed for the resource of the directory that is of this file, if there is
one, and for no other. -/
def Handled (entry : Record) (notice : Notice) : Prop :=
  ∀ p, notice = .reload p ↔ p ∈ items ∧ ∃ name ∈ entry.text wcstombs, Named resources name p

/-- The name is converted; and either one resource of the directory is of the file, and no item
before it mentions the name, or no item mentions it, nor the name of an earlier record. -/
def Unmistakable (earlier : List Record) (entry : Record) : Prop :=
  ∃ name ∈ entry.text wcstombs,
    (∃ p, items.find? (mentions resources name) = some p ∧ Named resources name p ∧
      ∀ q ∈ items, Named resources name q → q = p) ∨
    (∀ q ∈ items, mentions resources name q = false) ∧
      ∀ e ∈ earlier, ∀ name' ∈ e.text wcstombs, ∀ q ∈ items, mentions resources name' q = false

end Spec

/-- Each modified record of the buffer gives one notice, for the resource of its file. -/
def ReloadsNamed (wcstombs : List WChar → Option Text) (s : State) (d : DirPtr)
    (items : List ResPtr) (buf : List Byte) (entries : List Record) : Prop :=
  ∃ notices, handleEvent wcstombs s d buf true = some notices ∧
    List.Forall₂ (Handled wcstombs s.resources items) (entries.filter Record.modified) notices

section Exact

variable {wcstombs : List WChar → Option Text} {resources : ResPtr → Option Resource}
  {items : List ResPtr} {entry : Record} {name : Text} {p : ResPtr}

theorem Named.mentions (h : Named resources name p) : mentions resources name p = true := by
  obtain ⟨r, hr, rfl⟩ := h
  rw [Win32.mentions, Option.mem_def.1 hr, Option.any_some]
  exact decide_eq_true (fileName_within r.name)

theorem find_eq_none : items.find? (mentions resources name) = none ↔
    ∀ q ∈ items, mentions resources name q = false := by
  simp only [List.find?_eq_none, Bool.not_eq_true]

/-- What is noticed for one record is right exactly if the record is unmistakable. `res` is what the
earlier records have left. -/
theorem handled_iff {earlier : List Record} {res : Option ResPtr}
    (htext : entry.text wcstombs = some name)
    (hres : res = none ↔ ∀ e ∈ earlier, ∀ name' ∈ e.text wcstombs, ∀ q ∈ items,
      mentions resources name' q = false) :
    Handled wcstombs resources items entry
        (match (items.find? (mentions resources name)).or res with
          | none => .notFound name
          | some p => .reload p) ↔
      Unmistakable wcstombs resources items earlier entry := by
  simp only [Handled, Unmistakable, htext, Option.mem_def, Option.some.injEq, exists_eq_left']
  cases hfind : items.find? (mentions resources name) with
  | none =>
    have hno := find_eq_none.1 hfind
    have hunnamed : ∀ q, ¬ (q ∈ items ∧ Named resources name q) := fun q hq =>
      absurd hq.2.mentions (by simp [hno q hq.1])
    simp only [Option.none_or, reduceCtorEq, false_and, exists_false, false_or]
    rw [and_iff_right hno]
    simp only [Option.mem_def] at hres
    rw [← hres]
    cases res with
    | none => simp [hunnamed]
    | some p =>
      refine iff_of_false (fun h => hunnamed p ((h p).1 rfl)) nofun
  | some p =>
    have hp := List.find?_some hfind
    have hmem := List.mem_of_find?_eq_some hfind
    have hsome : ¬ ∀ q ∈ items, mentions resources name q = false := fun hno => by
      rw [hno p hmem] at hp
      cases hp
    simp only [Option.some_or, Notice.reload.injEq, Option.some.injEq, exists_eq_left', hsome,
      false_and, or_false]
    constructor
    · intro h
      exact ⟨((h p).1 rfl).2, fun q hq hname => ((h q).2 ⟨hq, hname⟩).symm⟩
    · rintro ⟨hname, huniq⟩ q
      refine ⟨?_, fun h => (huniq q h.1 h.2).symm⟩
      rintro rfl
      exact ⟨hmem, hname⟩

/-- A condition on each element and those before it, for a list with a first element. -/
theorem forall_split_cons {α : Type} {C : List α → α → Prop} {x : α} {xs : List α} :
    (∀ before e after, x :: xs = before ++ e :: after → C before e) ↔
      C [] x ∧ ∀ before e after, xs = before ++ e :: after → C (x :: before) e := by
  constructor
  · intro h
    exact ⟨h [] x xs rfl, fun before e after hsplit => h (x :: before) e after (congrArg _ hsplit)⟩
  · rintro ⟨hfirst, hrest⟩ before e after hsplit
    cases before with
    | nil =>
      obtain ⟨rfl, -⟩ := List.cons.inj hsplit
      exact hfirst
    | cons e' before =>
      obtain ⟨rfl, htail⟩ := List.cons.inj hsplit
      exact hrest before e after htail

/-- The same for all the records that are left. -/
theorem handleRecords_iff (hlive : ∀ p ∈ items, (resources p).isSome) {entries : List Record} :
    ∀ {earlier : List Record} {res : Option ResPtr},
      (res = none ↔ ∀ e ∈ earlier, ∀ name' ∈ e.text wcstombs, ∀ q ∈ items,
        mentions resources name' q = false) →
      ((∃ notices, handleRecords wcstombs resources items res entries = some notices ∧
        List.Forall₂ (Handled wcstombs resources items) (entries.filter Record.modified) notices) ↔
      ∀ before e after, entries.filter Record.modified = before ++ e :: after →
        Unmistakable wcstombs resources items (earlier ++ before) e) := by
  induction entries with
  | nil =>
    intro earlier res _
    refine iff_of_true ⟨[], rfl, .nil⟩ fun before e after h => ?_
    cases before <;> cases h
  | cons entry entries ih =>
    intro earlier res hres
    cases hmod : entry.modified with
    | false =>
      rw [List.filter_cons_of_neg (by simp [hmod])]
      simp only [handleRecords, hmod, Bool.false_eq_true, if_false]
      exact ih hres
    | true =>
      rw [List.filter_cons_of_pos hmod]
      simp only [handleRecords, hmod, if_true, handleModified]
      cases htext : entry.text wcstombs with
      | none =>
        refine iff_of_false ?_ fun h => ?_
        · rintro ⟨notices, h, -⟩
          cases h
        · obtain ⟨name, hname, -⟩ := h [] entry _ rfl
          rw [htext] at hname
          cases hname
      | some name =>
        have hres' : (items.find? (mentions resources name)).or res = none ↔
            ∀ e ∈ earlier ++ [entry], ∀ name' ∈ e.text wcstombs, ∀ q ∈ items,
              mentions resources name' q = false := by
          simp only [Option.or_eq_none_iff, find_eq_none, hres, List.forall_mem_append,
            List.forall_mem_singleton, htext, Option.mem_def, Option.some.injEq,
              forall_eq', and_comm]
        have hone := handled_iff htext hres
        have hfound : findItem resources name items =
            some (items.find? (mentions resources name)) :=
          findItem_eq name hlive
        simp only [hfound, Option.bind_eq_bind, Option.bind_some, Option.pure_def]
        generalize (items.find? (mentions resources name)).or res = res' at hone hres' ⊢
        have hrest := ih hres'
        simp only [List.append_assoc, List.singleton_append] at hrest
        rw [forall_split_cons, List.append_nil, ← hone, ← hrest]
        constructor
        · rintro ⟨notices, h, hall⟩
          obtain ⟨later, hlater, h⟩ := Option.bind_eq_some_iff.1 h
          obtain rfl := Option.some.inj h
          obtain ⟨hnow, hall⟩ := List.forall₂_cons.1 hall
          exact ⟨hnow, later, hlater, hall⟩
        · rintro ⟨hnow, later, hlater, hall⟩
          exact ⟨_, by rw [hlater]; rfl, List.forall₂_cons.2 ⟨hnow, hall⟩⟩

variable {s : State} {d : DirPtr} {w : WatchDir} {buf : List Byte} {entries : List Record}

/-- **The reloads** of a buffer are those of the modified files exactly when each modified record is
unmistakable. -/
theorem reloadsNamed_iff (hw : s.wdirs d = some w) (hlive : ∀ p ∈ w.items, (s.resources p).isSome)
    (hbuf : Chained buf entries) :
    ReloadsNamed wcstombs s d w.items buf entries ↔
      ∀ earlier entry later, entries.filter Record.modified = earlier ++ entry :: later →
        Unmistakable wcstombs s.resources w.items earlier entry := by
  have hevent : handleEvent wcstombs s d buf true =
      handleRecords wcstombs s.resources w.items none entries := by
    simp only [handleEvent, hw, Option.bind_eq_bind, Option.bind_some, if_true]
    exact eventLoop_of_records hbuf.records
  have hnone : (none : Option ResPtr) = none ↔ ∀ e ∈ ([] : List Record), ∀ name' ∈ e.text wcstombs,
      ∀ q ∈ w.items, mentions s.resources name' q = false := by simp
  rw [ReloadsNamed, hevent, handleRecords_iff hlive hnone]
  rfl

/-- `wcstombs` in the locale of the start of the program. -/
def wcstombsC (name : List WChar) : Option Text :=
  name.mapM fun c => if c.toNat < 256 then some (Char.ofNat c.toNat) else none

def wide (name : String) : List WChar := name.toList.map fun c => BitVec.ofNat 16 c.toNat

/-- Two files of one directory are loaded. -/
def loadsPair (fname fname' : String) : List Action :=
  [.create 1 fname.toList, .startWatch 1 (.nth 1), .create 2 fname'.toList, .startWatch 2 (.nth 2)]

/-- The name of the first file is in that of the second, and it is modified. -/
theorem exec_loadsPair : ∃ s w, exec step (.initial 4) (loadsPair "a/f" "a/xf") = some s ∧
    s.wdirs 1 = some w ∧
    (∀ p ∈ w.items, (s.resources p).isSome) ∧ s.resources 2 = some ⟨"a/xf".toList, some 2⟩ ∧
    handleEvent wcstombsC s 1 (writeRecords [⟨fileActionModified, wide "f"⟩]) true =
      some [.reload 2] := by
  have hrun : ((exec step (.initial 4) (loadsPair "a/f" "a/xf")).any
      fun s => (s.wdirs 1).any fun w =>
      (∀ p ∈ w.items, (s.resources p).isSome) ∧ s.resources 2 = some ⟨"a/xf".toList, some 2⟩ ∧
        handleEvent wcstombsC s 1 (writeRecords [⟨fileActionModified, wide "f"⟩]) true =
          some [.reload 2]) =
      true := by
    decide +kernel
  obtain ⟨s, hs, hrun⟩ := (Option.any_eq_true _ _).1 hrun
  obtain ⟨w, hw, hrun⟩ := (Option.any_eq_true _ _).1 hrun
  exact ⟨s, w, hs, hw, of_decide_eq_true hrun⟩

/-- A buffer with one modified file. -/
theorem chained_single (name : List WChar)
    (h : (⟨fileActionModified, name⟩ : Record).size < 2 ^ 32) :
    Chained (writeRecords [⟨fileActionModified, name⟩]) [⟨fileActionModified, name⟩] := by
  have hchained := chained_writeRecords (List.cons_ne_nil (⟨fileActionModified, name⟩ : Record) [])
    (List.forall_mem_singleton.2 h) []
  rwa [List.append_nil] at hchained

/-- The file with the longer name is modified. -/
theorem reloadsNamed_iff_longer : ∃ s w, exec step (.initial 4) (loadsPair "a/f" "a/xf") = some s ∧
    s.wdirs 1 = some w ∧
    (ReloadsNamed wcstombsC s 1 w.items (writeRecords [⟨fileActionModified, wide "xf"⟩])
        [⟨fileActionModified, wide "xf"⟩] ↔
      ∀ earlier entry later, [⟨fileActionModified, wide "xf"⟩].filter Record.modified =
        earlier ++ entry :: later →
        Unmistakable wcstombsC s.resources w.items earlier entry) := by
  obtain ⟨s, w, hs, hw, hlive, -⟩ := exec_loadsPair
  exact ⟨s, w, hs, hw, reloadsNamed_iff hw hlive (chained_single _ (by decide))⟩

/-- The file with the shorter name is modified, and the other one is reloaded. -/
theorem not_reloadsNamed_shorter :
    ¬ ∀ wcstombs s d w buf entries, s.wdirs d = some w → (∀ p ∈ w.items, (s.resources p).isSome) →
      Chained buf entries → ReloadsNamed wcstombs s d w.items buf entries := by
  intro hall
  obtain ⟨s, w, -, hw, hlive, h2, hreload⟩ := exec_loadsPair
  obtain ⟨notices, hevent, hnotices⟩ :=
    hall wcstombsC s 1 w _ _ hw hlive (chained_single (wide "f") (by decide))
  obtain rfl := Option.some.inj (hreload.symm.trans hevent)
  have hhandled := (List.forall₂_cons.1 hnotices).1
  obtain ⟨-, name, hname, r, hr, hfile⟩ := (hhandled 2).1 rfl
  obtain rfl := Option.some.inj (h2.symm.trans hr)
  obtain rfl : "f".toList = name := Option.some.inj ((by decide +kernel :
    Record.text wcstombsC ⟨fileActionModified, wide "f"⟩ = some "f".toList).symm.trans hname)
  exact absurd hfile (by decide +kernel)

end Exact

end Resman.Win32
