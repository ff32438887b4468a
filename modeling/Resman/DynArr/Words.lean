import Resman.DynArr.Contents

/-!
# Arrays of pointers

An element of eight bytes is a word. `readWord` and `writeWord` are the accesses `a[i]` to such an
array: none stands for an access outside the block, or a read of bytes that were never written.
`HoldsWords` says which words an array holds: a push adds one (`HoldsWords.push`), a write replaces
one (`HoldsWords.write`), and behind the last word of a full array there is nothing to read
(`readWord_full`).
-/

namespace Resman.Dynarr

variable {da da' : DynArr} {sz : Nat} {xs : List (List Byte)} {x : List Byte} {w : BitVec 64}
  {ws : List (BitVec 64)} {i : Nat}

abbrev Word := BitVec 64

/-- `sizeof(void*)` -/
def wordSize : Nat := 8

def wordBytes (w : Word) : List Byte := (List.range wordSize).map fun i => w.extractLsb' (8 * i) 8

def bytesWord : List (Option Byte) → Option Word
  | [some b₀, some b₁, some b₂, some b₃, some b₄, some b₅, some b₆, some b₇] =>
    some (b₇ ++ b₆ ++ b₅ ++ b₄ ++ b₃ ++ b₂ ++ b₁ ++ b₀)
  | _ => none

def readWord (buf : List (Option Byte)) (i : Nat) : Option Word :=
  bytesWord ((buf.drop (i * wordSize)).take wordSize)

def writeWord (buf : List (Option Byte)) (i : Nat) (w : Word) : Option (List (Option Byte)) :=
  copyTo buf ((i * wordSize : Nat) : Int) (wordBytes w)

/-- So many words from index `i` on. -/
def readWords (buf : List (Option Byte)) : Nat → Nat → Option (List Word)
  | 0, _ => some []
  | n + 1, i => do
    let w ← readWord buf i
    return w :: (← readWords buf n (i + 1))

/-! ## Words and bytes -/

theorem length_wordBytes (w : Word) : (wordBytes w).length = wordSize := by
  rw [wordBytes, List.length_map, List.length_range]

theorem bytesWord_wordBytes (w : Word) : bytesWord ((wordBytes w).map some) = some w := by
  show some _ = some w
  congr 1
  refine BitVec.eq_of_getLsbD_eq fun i hi => ?_
  simp only [BitVec.getLsbD_append, BitVec.getLsbD_extractLsb']
  grind

/-- The array holds these words. -/
def HoldsWords (da : DynArr) (ws : List Word) : Prop := Holds da wordSize (ws.map wordBytes)

namespace HoldsWords

theorem push (h : HoldsWords da ws) (hp : dynarrPush da (some (wordBytes w)) true = some da') :
    HoldsWords da' (ws ++ [w]) := by
  unfold HoldsWords
  rw [List.map_append]
  exact Holds.push h (by decide) (length_wordBytes w) hp

/-- A push that is defined adds the word, or finds neither room nor memory. -/
theorem push_cases (h : HoldsWords da ws) (hs : Sized da wordSize) {mem : Bool}
    (hp : dynarrPush da (some (wordBytes w)) mem = some da') :
    da' = da ∧ da.maxElem ≤ da.nelem ∨ HoldsWords da' (ws ++ [w]) ∧ Sized da' wordSize := by
  have hadd (hp : dynarrPush da (some (wordBytes w)) true = some da') :
      HoldsWords da' (ws ++ [w]) ∧ Sized da' wordSize := by
    have hmem : dynarrReserve da true ≠ none := fun hnone => by simp [dynarrPush, hnone] at hp
    obtain ⟨da₁, hp₁, hs₁⟩ := hs.push h (by decide) (by decide) (length_wordBytes w) hmem
    obtain rfl := Option.some.inj (hp₁.symm.trans hp)
    exact ⟨h.push hp, hs₁⟩
  rcases lt_or_ge da.nelem da.maxElem with hlt | hge
  · exact .inr (hadd (dynarrPush_of_lt hlt _ mem ▸ hp))
  · cases mem with
    | false => exact .inl ⟨Option.some.inj (hp.symm.trans (dynarrPush_full hge _)), hge⟩
    | true => exact .inr (hadd hp)

/-- A push with room or memory. -/
theorem push_some (h : HoldsWords da ws) (hs : Sized da wordSize) {mem : Bool}
    (hroom : da.nelem < da.maxElem ∨ mem = true) (hmem : mem = true → dynarrReserve da true ≠ none)
    (w : Word) :
    ∃ da', dynarrPush da (some (wordBytes w)) mem = some da' ∧ HoldsWords da' (ws ++ [w]) := by
  have hpush (hmem : dynarrReserve da true ≠ none) :
      ∃ da', dynarrPush da (some (wordBytes w)) true = some da' ∧ HoldsWords da' (ws ++ [w]) := by
    obtain ⟨da', hp, -⟩ := hs.push h (by decide) (by decide) (length_wordBytes w) hmem
    exact ⟨da', hp, h.push hp⟩
  rcases hroom with hlt | rfl
  · rw [dynarrPush_of_lt hlt]
    refine hpush ?_
    rw [dynarrReserve, if_neg (by omega)]
    exact Option.some_ne_none _
  · exact hpush (hmem rfl)

theorem read (h : HoldsWords da ws) (hi : i < ws.length) : readWord da.buf i = some ws[i] := by
  have hi' : i < (ws.map wordBytes).length := by rwa [List.length_map]
  rw [readWord, Holds.element h hi', List.getElem_map, bytesWord_wordBytes]

theorem nelem (h : HoldsWords da ws) : da.nelem.toNat = ws.length := by
  have hn := Holds.nelem h
  rw [List.length_map] at hn
  omega

theorem readAll (h : HoldsWords da ws) :
    ∀ n i, i + n = ws.length → readWords da.buf n i = some (ws.drop i)
  | 0, i, hi => by
    rw [List.drop_of_length_le (by omega)]
    rfl
  | n + 1, i, hi => by
    have hlt : i < ws.length := by omega
    rw [readWords, h.read hlt, h.readAll n (i + 1) (by omega), List.drop_eq_getElem_cons hlt]
    rfl

theorem words (h : HoldsWords da ws) : readWords da.buf da.nelem.toNat 0 = some ws :=
  h.readAll _ 0 (by rw [h.nelem, Nat.zero_add])

theorem write (h : HoldsWords da ws) (hi : i < ws.length) (w : Word) :
    ∃ buf, writeWord da.buf i w = some buf ∧ buf.length = da.buf.length ∧
      HoldsWords { da with buf } (ws.set i w) := by
  have hi' : i < (ws.map wordBytes).length := by rwa [List.length_map]
  obtain ⟨buf, hcopy, hlen, hset⟩ := Holds.set h (length_wordBytes w) hi'
  rw [← List.map_set] at hset
  exact ⟨buf, hcopy, hlen, hset⟩

end HoldsWords

/-- The block ends behind the last word. -/
theorem readWord_full {buf : List (Option Byte)} (h : buf.length ≤ i * wordSize) :
    readWord buf i = none := by
  rw [readWord, List.drop_of_length_le h]
  rfl

end Resman.Dynarr
