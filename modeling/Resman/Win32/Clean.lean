import Resman.Win32.Components

/-!
# What the second loop of `clean_path` does

At each moment the buffer is what was written, a gap of characters that were read already, and what
is still to be read. A directory is copied over the gap, `.` makes the gap longer, and `..` gives
the directory that was written last to the gap. From the first two positions of the path `..` goes
outside.
-/

namespace Resman.Win32

/-- The cursor with `out` written, `gap` behind it and `rest` still to be read. -/
def cursorAt (out gap rest : Text) : Cursor :=
  ⟨out ++ gap ++ rest, (out.length + gap.length : Nat), out.length⟩

/-! ## Reading -/

theorem readAt_length {buf : Text} {i : Int} (hi : i = buf.length) : readAt buf i = some nul := by
  unfold readAt
  rw [if_pos hi]

theorem readAt_mid {buf before after : Text} {c : Char} {i : Int}
    (hbuf : buf = before ++ c :: after) (hi : i = before.length) : readAt buf i = some c := by
  subst hbuf hi
  unfold readAt
  rw [if_neg (by simp only [List.length_append, List.length_cons]; omega), if_pos (by omega)]
  simp

/-- Before the string nothing is read. -/
theorem readAt_neg {buf : Text} {i : Int} (hi : i < 0) : readAt buf i = none := by
  unfold readAt
  rw [if_neg (by omega), if_neg (by omega)]

/-- A character that is read stands in the string or is its terminator. -/
theorem readAt_bound {buf : Text} {i : Int} {c : Char} (h : readAt buf i = some c) :
    0 ≤ i ∧ i ≤ buf.length ∧ (c ≠ nul → i < buf.length) := by
  unfold readAt at h
  split at h
  · next hi =>
    refine ⟨by omega, by omega, ?_⟩
    intro hc
    exact absurd (Option.some.inj h).symm hc
  · split at h
    · next hi =>
      obtain ⟨hlt, -⟩ := List.getElem?_eq_some_iff.1 h
      omega
    · simp at h

theorem startsAt_cons (buf : Text) (i : Int) (c : Char) (part : Text) :
    startsAt buf i (c :: part)
      = (readAt buf i).bind fun r => if r = c then startsAt buf (i + 1) part else some false := rfl

/-- The comparison with characters that follow is the one of lists. -/
theorem startsAt_eq {part : Text} (hnul : nul ∉ part) (before rest : Text) :
    startsAt (before ++ rest) before.length part = some (part.isPrefixOf rest) := by
  induction part generalizing before rest with
  | nil => rfl
  | cons c part ih =>
    have hc : nul ≠ c := fun h => hnul (h ▸ List.mem_cons_self)
    have hpart : nul ∉ part := fun h => hnul (List.mem_cons_of_mem c h)
    rw [startsAt_cons]
    cases rest with
    | nil =>
      rw [readAt_length (by simp), Option.bind_some, if_neg hc]
      rfl
    | cons r rest =>
      rw [readAt_mid rfl rfl, Option.bind_some, List.isPrefixOf_cons_cons]
      by_cases hr : r = c
      · have hnext := ih hpart (before ++ [r]) rest
        rw [List.append_assoc, List.length_append] at hnext
        subst hr
        rw [if_pos rfl, beq_self_eq_true, Bool.true_and]
        exact hnext
      · have hne : (c == r) = false := beq_eq_false_iff_ne.2 fun h => hr h.symm
        rw [if_neg hr, hne, Bool.false_and]

theorem afterSlash_eq_bind (c : Cursor) (part : Text) :
    c.afterSlash part
      = if 0 < c.ptr then (readAt c.buf (c.ptr - 1)).bind fun r =>
          if r = '\\' then startsAt c.buf c.ptr part else some false
        else some false := rfl

theorem afterSlash_eq {part : Text} (hnul : nul ∉ part) (out gap rest : Text) :
    (cursorAt out gap rest).afterSlash part
      = some (decide ((out ++ gap).getLast? = some '\\') && part.isPrefixOf rest) := by
  have hstart := startsAt_eq hnul (out ++ gap) rest
  rw [List.length_append] at hstart
  rw [afterSlash_eq_bind]
  unfold cursorAt
  dsimp only
  rcases List.eq_nil_or_concat (out ++ gap) with hnil | ⟨before, last, hlast⟩
  · obtain ⟨rfl, rfl⟩ := List.append_eq_nil_iff.1 hnil
    rfl
  · have hlen : out.length + gap.length = before.length + 1 := by
      have h := congrArg List.length hlast
      simpa using h
    have hbuf : out ++ gap ++ rest = before ++ last :: rest := by
      rw [hlast]
      simp
    rw [if_pos (by omega), readAt_mid hbuf (by omega), Option.bind_some, hstart, hlast,
      List.concat_eq_append, List.getLast?_concat]
    by_cases hslash : last = '\\'
    · rw [if_pos hslash, hslash]
      rfl
    · rw [if_neg hslash, decide_eq_false (fun h => hslash (Option.some.inj h)), Bool.false_and]

/-! ## One round -/

/-- The gap after a character was copied to its beginning. -/
def moved (c : Char) : Text → Text
  | [] => []
  | _ :: gap => gap ++ [c]

@[simp] theorem length_moved (c : Char) (gap : Text) : (moved c gap).length = gap.length := by
  cases gap <;> simp [moved]

/-- What was read last is still in front of `ptr`. -/
theorem getLast?_moved (out gap : Text) (c : Char) :
    (out ++ [c] ++ moved c gap).getLast? = some c := by
  cases gap with
  | nil => simp [moved]
  | cons g gap => simp [moved, ← List.append_assoc]

/-- A directory of dots, with the separator behind it, is to be read. -/
def AtDots (out gap rest : Text) : Prop :=
  (out ++ gap).getLast? = some '\\' ∧
    (['.', '\\'].isPrefixOf rest = true ∨ ['.', '.', '\\'].isPrefixOf rest = true)

theorem writeAt_mid (before after : Text) (old c : Char) :
    writeAt (before ++ old :: after) before.length c = some (before ++ c :: after) := by
  unfold writeAt
  rw [if_pos (by simp only [List.length_append, List.length_cons]; omega)]
  simp

theorem cleanStep_copy {out gap rest : Text} {c : Char} (h : ¬AtDots out gap (c :: rest)) :
    cleanStep (cursorAt out gap (c :: rest)) = some (cursorAt (out ++ [c]) (moved c gap) rest) := by
  have hfalse : ∀ part : Text, nul ∉ part → (part = ['.', '\\'] ∨ part = ['.', '.', '\\']) →
      (cursorAt out gap (c :: rest)).afterSlash part = some false := by
    intro part hnul hpart
    rw [afterSlash_eq hnul]
    by_contra hne
    simp only [Option.some.injEq, Bool.not_eq_false, Bool.and_eq_true, decide_eq_true_eq] at hne
    apply h
    refine ⟨hne.1, ?_⟩
    rcases hpart with rfl | rfl
    · exact Or.inl hne.2
    · exact Or.inr hne.2
  have hone := hfalse ['.', '\\'] (by decide) (Or.inl rfl)
  have htwo := hfalse ['.', '.', '\\'] (by decide) (Or.inr rfl)
  unfold cleanStep
  simp only [hone, htwo, Option.bind_eq_bind, Option.bind_some, Bool.false_eq_true, if_false]
  cases gap with
  | nil => simp [cursorAt, moved]
  | cons g gap =>
    have hread : readAt (out ++ g :: gap ++ c :: rest)
        ((out.length + (g :: gap).length : Nat) : Int) = some c :=
      readAt_mid rfl (by simp)
    have hwrite : writeAt (out ++ g :: gap ++ c :: rest) out.length c =
        some (out ++ c :: (gap ++ c :: rest)) := by
      rw [List.append_assoc, List.cons_append]
      exact writeAt_mid out (gap ++ c :: rest) g c
    have hne : ((out.length : Nat) : Int) ≠ ((out.length + (g :: gap).length : Nat) : Int) := by
      simp only [List.length_cons]
      omega
    unfold cursorAt
    simp only [ne_eq, hne, not_false_eq_true, if_true, hread, hwrite, Option.bind_some, moved]
    simp
    omega

theorem cleanStep_dot {out gap : Text} (h : (out ++ gap).getLast? = some '\\') (rest : Text) :
    cleanStep (cursorAt out gap ('.' :: '\\' :: rest)) =
      some (cursorAt out (gap ++ ['.', '\\']) rest) := by
  have hone : (cursorAt out gap ('.' :: '\\' :: rest)).afterSlash ['.', '\\'] = some true := by
    rw [afterSlash_eq (by decide), h]
    rfl
  unfold cleanStep
  rw [hone]
  simp [cursorAt]
  omega

/-! ## Going back -/

theorem backToSlash_succ (buf : Text) (dest : Nat) :
    backToSlash buf (dest + 1)
      = (readAt buf ((dest + 1 : Nat) : Int)).bind
          fun c => if c = '\\' then some (dest + 1) else backToSlash buf dest := rfl

/-- The search ends at the last slash before, or at the beginning. -/
theorem backToSlash_eq {buf : Text} {i : Nat} (hi : i = 0 ∨ readAt buf i = some '\\') (k : Nat)
    (hk : ∀ j : Nat, i < j → j ≤ i + k → ∃ c, readAt buf j = some c ∧ c ≠ '\\') :
    backToSlash buf (i + k) = some i := by
  induction k with
  | zero =>
    cases i with
    | zero => rfl
    | succ i =>
      have hread : readAt buf ((i + 1 : Nat) : Int) = some '\\' := hi.resolve_left (by omega)
      rw [Nat.add_zero, backToSlash_succ, hread, Option.bind_some, if_pos rfl]
  | succ k ih =>
    obtain ⟨c, hread, hc⟩ := hk (i + k + 1) (by omega) (by omega)
    rw [← Nat.add_assoc, backToSlash_succ, hread, Option.bind_some, if_neg hc]
    exact ih fun j hj hle => hk j hj (by omega)

/-- In a directory that stands in the buffer, a character of it is read. -/
theorem readAt_inside {buf before dir after : Text} (hbuf : buf = before ++ dir ++ after) {j : Nat}
    (hlo : before.length ≤ j) (hhi : j < before.length + dir.length) :
    ∃ c ∈ dir, readAt buf j = some c := by
  obtain ⟨m, rfl⟩ := Nat.exists_eq_add_of_le hlo
  have hm : m < dir.length := by omega
  refine ⟨dir[m], List.getElem_mem hm, ?_⟩
  have hsplit : buf = (before ++ dir.take m) ++ dir[m] :: (dir.drop (m + 1) ++ after) := by
    have hdir : dir.take m ++ dir[m] :: dir.drop (m + 1) = dir := by
      rw [← List.drop_eq_getElem_cons hm, List.take_append_drop]
    rw [hbuf]
    calc
      before ++ dir ++ after = before ++ (dir.take m ++ dir[m] :: dir.drop (m + 1)) ++ after := by
        rw [hdir]
      _ = (before ++ dir.take m) ++ dir[m] :: (dir.drop (m + 1) ++ after) := by
        simp only [List.append_assoc, List.cons_append]
  apply readAt_mid hsplit
  rw [List.length_append, List.length_take, Nat.min_eq_left (by omega)]

/-- Where `..` goes back to from `dest`: two positions, then to a slash, and
behind it; or to the beginning. -/
def stepBack (buf : Text) (dest : Int) : Option Int :=
  (if 0 < dest - 2 then (backToSlash buf (dest - 2).toNat).map Int.ofNat else some (dest - 2)).bind
    fun back => (readAt buf back).bind fun r => some (if r = '\\' then back + 1 else back)

theorem cleanStep_of_dotdot {c : Cursor} (hone : c.afterSlash ['.', '\\'] = some false)
    (htwo : c.afterSlash ['.', '.', '\\'] = some true) :
    cleanStep c = (stepBack c.buf c.dest).map fun dest => { c with ptr := c.ptr + 3, dest } := by
  unfold cleanStep stepBack
  rw [hone, htwo]
  simp only [Option.bind_eq_bind, Option.bind_some, Bool.false_eq_true, if_false,
    if_true, Option.map_bind, Function.comp_def, Option.map_some]
  split <;> rfl

/-- From the first two positions it goes outside. -/
theorem stepBack_none {buf : Text} {dest : Int} (h : dest ≤ 1) : stepBack buf dest = none := by
  unfold stepBack
  rw [if_neg (by omega), Option.bind_some, readAt_neg (by omega)]
  rfl

/-- With a slash, or the beginning, at the position `i` and no slash behind it,
that is where the search ends. -/
theorem stepBack_eq {buf : Text} {i : Nat} (hi : i = 0 ∨ readAt buf i = some '\\') (k : Nat)
    (hk : ∀ j : Nat, i < j → j ≤ i + k → ∃ c, readAt buf j = some c ∧ c ≠ '\\') {dest : Int}
    (hdest : dest - 2 = (i + k : Nat)) :
    stepBack buf dest = (readAt buf i).bind
      fun r => some (if r = '\\' then (i : Int) + 1 else i) := by
  have hback : (if 0 < dest - 2 then (backToSlash buf (dest - 2).toNat).map Int.ofNat
      else some (dest - 2)) = some (i : Int) := by
    rw [hdest]
    by_cases hpos : 0 < i + k
    · rw [if_pos (by omega), Int.toNat_natCast, backToSlash_eq hi k hk]
      rfl
    · rw [if_neg (by omega)]
      congr 1
      omega
  unfold stepBack
  rw [hback, Option.bind_some]

/-- Text of directories is empty or ends in a backslash. -/
theorem joined_end (dirs : List Text) :
    joined dirs = [] ∧ dirs = [] ∨ ∃ front, joined dirs = front ++ ['\\'] := by
  rcases List.eq_nil_or_concat dirs with rfl | ⟨before, dir, rfl⟩
  · exact Or.inl ⟨rfl, rfl⟩
  · refine Or.inr ⟨joined before ++ dir, ?_⟩
    simp

/-- From behind a directory the search comes to its first character. -/
theorem stepBack_dir {buf dir after : Text} {dirs : List Text}
    (hbuf : buf = joined dirs ++ dir ++ after) (hroom : dirs = [] → dir ≠ []) (hdir : '\\' ∉ dir) :
    stepBack buf ((joined dirs).length + dir.length + 1 : Nat) =
      some ((joined dirs).length : Int) := by
  have hinside : ∀ j : Nat, (joined dirs).length ≤ j → j < (joined dirs).length + dir.length →
      ∃ c, readAt buf j = some c ∧ c ≠ '\\' := by
    intro j hlo hhi
    obtain ⟨c, hc, hread⟩ := readAt_inside hbuf hlo hhi
    exact ⟨c, hread, fun h => hdir (h ▸ hc)⟩
  rcases joined_end dirs with ⟨hempty, hnil⟩ | ⟨front, hfront⟩
  · -- the directory is the first one, and its first character is no slash
    have hpos : 0 < dir.length := List.length_pos_of_ne_nil (hroom hnil)
    rw [hempty, List.length_nil] at hinside ⊢
    obtain ⟨c, hread, hc⟩ := hinside 0 (by omega) (by omega)
    rw [stepBack_eq (i := 0) (Or.inl rfl) (dir.length - 1)
      (fun j hlo hhi => hinside j (by omega) (by omega)) (by omega), hread,
        Option.bind_some, if_neg hc]
  · have hlen : (joined dirs).length = front.length + 1 := by
      rw [hfront, List.length_append, List.length_singleton]
    have hread : readAt buf (front.length : Nat) = some '\\' := by
      have hmid : buf = front ++ '\\' :: (dir ++ after) := by
        rw [hbuf, hfront]
        simp
      exact readAt_mid hmid rfl
    rw [stepBack_eq (Or.inr hread) dir.length (fun j hlo hhi => hinside j (by omega) (by omega))
      (by omega), hread, Option.bind_some, if_pos rfl, hlen]
    rfl

theorem afterSlash_dotdot {out gap : Text} (h : (out ++ gap).getLast? = some '\\') (rest : Text) :
    (cursorAt out gap ('.' :: '.' :: '\\' :: rest)).afterSlash ['.', '\\'] = some false ∧
      (cursorAt out gap ('.' :: '.' :: '\\' :: rest)).afterSlash ['.', '.', '\\'] = some true := by
  constructor
  · rw [afterSlash_eq (by decide), h]
    rfl
  · rw [afterSlash_eq (by decide), h]
    rfl

/-- `..` gives the directory before it to the gap. -/
theorem cleanStep_dotdot {stack : List Text} {dir gap : Text} (hroom : HasRoom (dir :: stack))
    (hdir : Plain dir) (hgap : (joined (dir :: stack).reverse ++ gap).getLast? = some '\\')
    (rest : Text) :
    cleanStep (cursorAt (joined (dir :: stack).reverse) gap ('.' :: '.' :: '\\' :: rest))
      = some (cursorAt (joined stack.reverse) (dir ++ '\\' :: gap ++ ['.', '.', '\\']) rest) := by
  obtain ⟨hone, htwo⟩ := afterSlash_dotdot hgap rest
  have hbuf : joined (dir :: stack).reverse ++ gap ++ '.' :: '.' :: '\\' :: rest
      = joined stack.reverse ++ dir ++ '\\' :: (gap ++ '.' :: '.' :: '\\' :: rest) := by simp
  have hlen : (joined (dir :: stack).reverse).length =
      (joined stack.reverse).length + dir.length + 1 := by
    simp [Nat.add_assoc]
  have hfirst : stack.reverse = [] → dir ≠ [] := by
    intro hnil hempty
    rw [List.reverse_eq_nil_iff] at hnil
    exact hroom.2 (by rw [hnil, hempty])
  rw [cleanStep_of_dotdot hone htwo]
  unfold cursorAt
  dsimp only
  rw [hlen, stepBack_dir hbuf hfirst hdir.2.1, Option.map_some, hbuf]
  simp only [List.length_append, List.length_cons, List.length_nil, Option.some.injEq,
    Cursor.mk.injEq]
  refine ⟨by simp, by omega, trivial⟩

/-- Without a directory to take back, a position before the path is read. -/
theorem cleanStep_dotdot_none {stack : List Text} {gap : Text} (hroom : ¬HasRoom stack)
    (hgap : (joined stack.reverse ++ gap).getLast? = some '\\') (rest : Text) :
    cleanStep (cursorAt (joined stack.reverse) gap ('.' :: '.' :: '\\' :: rest)) = none := by
  obtain ⟨hone, htwo⟩ := afterSlash_dotdot hgap rest
  have hdest : (joined stack.reverse).length ≤ 1 := by
    unfold HasRoom at hroom
    rcases not_and_or.1 hroom with h | h
    · rw [not_not.1 h]
      simp
    · rw [not_not.1 h]
      simp
  rw [cleanStep_of_dotdot hone htwo]
  unfold cursorAt
  dsimp only
  rw [stepBack_none (by omega), Option.map_none]

/-! ## The loop -/

theorem cleanLoop_succ (n : Nat) (c : Cursor) :
    cleanLoop (n + 1) c
      = (readAt c.buf c.ptr).bind fun r => if r = nul then some c
        else (cleanStep c).bind (cleanLoop n) := rfl

theorem cleanLoop_end {c : Cursor} (h : readAt c.buf c.ptr = some nul) (n : Nat) :
    cleanLoop n c = some c := by
  cases n with
  | zero => rfl
  | succ n => rw [cleanLoop_succ, h, Option.bind_some, if_pos rfl]

theorem cleanLoop_add (n k : Nat) (c : Cursor) :
    cleanLoop (n + k) c = (cleanLoop n c).bind (cleanLoop k) := by
  induction n generalizing c with
  | zero =>
    rw [Nat.zero_add]
    rfl
  | succ n ih =>
    rw [Nat.succ_add, cleanLoop_succ, cleanLoop_succ]
    cases hread : readAt c.buf c.ptr with
    | none => rfl
    | some r =>
      rw [Option.bind_some, Option.bind_some]
      by_cases hr : r = nul
      · rw [if_pos hr, if_pos hr, Option.bind_some, cleanLoop_end (hr ▸ hread)]
      · rw [if_neg hr, if_neg hr, Option.bind_assoc]
        congr 1
        funext next
        exact ih next

/-- After some rounds the loop is there. -/
def Reaches (c c' : Cursor) : Prop := ∃ n, cleanLoop n c = some c'

theorem Reaches.refl (c : Cursor) : Reaches c c := ⟨0, rfl⟩

theorem Reaches.trans {c c' c'' : Cursor} (h : Reaches c c') (h' : Reaches c' c'') :
    Reaches c c'' := by
  obtain ⟨n, hn⟩ := h
  obtain ⟨k, hk⟩ := h'
  refine ⟨n + k, ?_⟩
  rw [cleanLoop_add, hn, Option.bind_some, hk]

theorem readAt_cursorAt {out gap : Text} (c : Char) (rest : Text) :
    readAt (cursorAt out gap (c :: rest)).buf (cursorAt out gap (c :: rest)).ptr = some c :=
  readAt_mid rfl (by simp [cursorAt])

theorem readAt_cursorAt_end (out gap : Text) :
    readAt (cursorAt out gap []).buf (cursorAt out gap []).ptr = some nul := by
  apply readAt_length
  unfold cursorAt
  rw [List.append_nil, List.length_append]

/-- A step at a character is a round. -/
theorem Reaches.step {out gap rest : Text} {c : Char} (hc : c ≠ nul) {c' : Cursor}
    (h : cleanStep (cursorAt out gap (c :: rest)) = some c') :
    Reaches (cursorAt out gap (c :: rest)) c' := by
  refine ⟨1, ?_⟩
  rw [cleanLoop_succ, readAt_cursorAt, Option.bind_some, if_neg hc, h]
  rfl

theorem cleanLoop_none {out gap rest : Text} {c : Char} (hc : c ≠ nul)
    (h : cleanStep (cursorAt out gap (c :: rest)) = none) :
    cleanLoop 1 (cursorAt out gap (c :: rest)) = none := by
  rw [cleanLoop_succ, readAt_cursorAt, Option.bind_some, if_neg hc, h]
  rfl

/-! ## Copying -/

/-- What a component without its separator is copied to. -/
theorem reaches_copy {part : Text} (hpart : Plain part) {out gap rest : Text}
    (h : ¬AtDots out gap (part ++ rest)) :
    ∃ gap', gap'.length = gap.length ∧
      Reaches (cursorAt out gap (part ++ rest)) (cursorAt (out ++ part) gap' rest) := by
  induction part generalizing out gap with
  | nil =>
    refine ⟨gap, rfl, ?_⟩
    rw [List.append_nil]
    exact Reaches.refl _
  | cons c part ih =>
    obtain ⟨hslash, hback, hnul⟩ := hpart
    have hc : c ≠ nul := fun h => hnul (h ▸ List.mem_cons_self)
    have hplain : Plain part :=
      ⟨fun h => hslash (List.mem_cons_of_mem c h), fun h => hback (List.mem_cons_of_mem c h),
        fun h => hnul (List.mem_cons_of_mem c h)⟩
    -- the character before is now `c`, which is no slash
    have hdots : ¬AtDots (out ++ [c]) (moved c gap) (part ++ rest) := by
      intro hat
      have hlast := hat.1
      rw [getLast?_moved] at hlast
      exact hback (Option.some.inj hlast ▸ List.mem_cons_self)
    obtain ⟨gap', hlen, hreach⟩ := ih hplain hdots
    refine ⟨gap', by rw [hlen, length_moved], ?_⟩
    have hstep : Reaches (cursorAt out gap (c :: (part ++ rest)))
        (cursorAt (out ++ [c]) (moved c gap) (part ++ rest)) :=
      Reaches.step hc (cleanStep_copy h)
    rw [List.append_assoc, List.singleton_append] at hreach
    exact hstep.trans hreach

/-- A component with its separator is copied, when it is no dots. -/
theorem reaches_copy_dir {dir : Text} (hdir : Plain dir) {out gap rest : Text}
    (h : ¬AtDots out gap (dir ++ '\\' :: rest)) :
    ∃ gap', gap'.length = gap.length ∧
      Reaches (cursorAt out gap (dir ++ '\\' :: rest))
        (cursorAt (out ++ (dir ++ ['\\'])) gap' rest) ∧
      (out ++ (dir ++ ['\\']) ++ gap').getLast? = some '\\' := by
  obtain ⟨gap', hlen, hreach⟩ := reaches_copy hdir h
  have hdots : ¬AtDots (out ++ dir) gap' ('\\' :: rest) := by
    rintro ⟨-, hone | htwo⟩
    · exact Bool.false_ne_true hone
    · exact Bool.false_ne_true htwo
  have hlast := getLast?_moved (out ++ dir) gap' '\\'
  have hstep := Reaches.step (by decide) (cleanStep_copy hdots)
  rw [List.append_assoc out dir] at hstep hlast
  exact ⟨moved '\\' gap', by rw [length_moved, hlen], hreach.trans hstep, hlast⟩

/-- The dots that are looked for are all of a component. -/
theorem eq_of_isPrefixOf (part : Text) {dir rest : Text} (hpart : '\\' ∉ part) (hdir : '\\' ∉ dir)
    (h : (part ++ ['\\']).isPrefixOf (dir ++ '\\' :: rest) = true) : part = dir := by
  induction part generalizing dir with
  | nil =>
    cases dir with
    | nil => rfl
    | cons d dir =>
      rw [List.nil_append, List.cons_append, List.isPrefixOf_cons_cons,
        Bool.and_eq_true, beq_iff_eq] at h
      exact absurd (h.1 ▸ List.mem_cons_self) hdir
  | cons c part ih =>
    cases dir with
    | nil =>
      rw [List.cons_append, List.nil_append, List.isPrefixOf_cons_cons,
        Bool.and_eq_true, beq_iff_eq] at h
      exact absurd (h.1 ▸ List.mem_cons_self) hpart
    | cons d dir =>
      rw [List.cons_append, List.cons_append, List.isPrefixOf_cons_cons,
        Bool.and_eq_true, beq_iff_eq] at h
      obtain ⟨rfl, hrest⟩ := h
      rw [ih (fun h => hpart (List.mem_cons_of_mem c h))
        (fun h => hdir (List.mem_cons_of_mem c h)) hrest]

theorem not_atDots_dir {dir : Text} (hdir : Plain dir) (hone : dir ≠ ['.'])
    (htwo : dir ≠ ['.', '.']) (out gap rest : Text) : ¬AtDots out gap (dir ++ '\\' :: rest) := by
  rintro ⟨-, h | h⟩
  · exact hone (eq_of_isPrefixOf ['.'] (by decide) hdir.2.1 h).symm
  · exact htwo (eq_of_isPrefixOf ['.', '.'] (by decide) hdir.2.1 h).symm

theorem not_atDots_last {last : Text} (hlast : Plain last) (out gap : Text) :
    ¬AtDots out gap last := by
  rintro ⟨-, h | h⟩
  · exact hlast.2.1 ((List.isPrefixOf_iff_prefix.1 h).subset (by decide))
  · exact hlast.2.1 ((List.isPrefixOf_iff_prefix.1 h).subset (by decide))

/-- Whatever follows the last separator is copied. -/
theorem reaches_copy_last {last : Text} (hlast : Plain last) (out gap : Text) :
    ∃ gap', gap'.length = gap.length ∧
      Reaches (cursorAt out gap last) (cursorAt (out ++ last) gap' []) := by
  have h : ¬AtDots out gap (last ++ []) := by
    rw [List.append_nil]
    exact not_atDots_last hlast out gap
  obtain ⟨gap', hlen, hreach⟩ := reaches_copy hlast h
  rw [List.append_nil] at hreach
  exact ⟨gap', hlen, hreach⟩

/-! ## Directories -/

/-- The cursor behind a slash, with the text of these directories written. -/
def AtDir (stack : List Text) (rest : Text) (c : Cursor) : Prop :=
  ∃ gap, c = cursorAt (joined stack.reverse) gap rest ∧
    (joined stack.reverse ++ gap).getLast? = some '\\'

/-- A directory does to what is written what `keep` says. -/
theorem reaches_keep {stack : List Text} {dir : Text} (hstack : ∀ d ∈ stack, Plain d)
    (hdir : Plain dir) (hroom : dir = ['.', '.'] → HasRoom stack) {rest : Text} {c : Cursor}
    (h : AtDir stack (dir ++ '\\' :: rest) c) :
    ∃ c', Reaches c c' ∧ AtDir (keep stack dir) rest c' := by
  obtain ⟨gap, rfl, hgap⟩ := h
  by_cases hone : dir = ['.']
  · subst hone
    refine ⟨_, Reaches.step (by decide) (cleanStep_dot hgap rest), gap ++ ['.', '\\'], rfl, ?_⟩
    simp [← List.append_assoc]
  · by_cases htwo : dir = ['.', '.']
    · subst htwo
      cases stack with
      | nil => exact absurd rfl (hroom rfl).1
      | cons top stack =>
        refine ⟨_, Reaches.step (by decide)
          (cleanStep_dotdot (hroom rfl) (hstack top List.mem_cons_self) hgap rest), _, rfl, ?_⟩
        simp [← List.append_assoc]
    · obtain ⟨gap', -, hreach, hlast⟩ :=
        reaches_copy_dir hdir (not_atDots_dir hdir hone htwo _ gap rest)
      refine ⟨_, hreach, gap', ?_, ?_⟩
      · rw [keep_of_plain hone htwo]
        simp
      · rw [keep_of_plain hone htwo]
        simpa using hlast

theorem plain_keep {stack : List Text} {dir : Text} (hstack : ∀ d ∈ stack, Plain d)
    (hdir : Plain dir) :
    ∀ d ∈ keep stack dir, Plain d := by
  intro d hd
  unfold keep at hd
  split at hd
  · exact hstack d hd
  · split at hd
    · exact hstack d (List.mem_of_mem_tail hd)
    · rcases List.mem_cons.1 hd with rfl | hd
      · exact hdir
      · exact hstack d hd

/-- So do all of them, one after the other. -/
theorem reaches_foldl_keep {dirs : List Text} (hdirs : ∀ d ∈ dirs, Plain d) {stack : List Text}
    (hstack : ∀ d ∈ stack, Plain d) (hbelow : StaysBelow stack dirs) {rest : Text} {c : Cursor}
    (h : AtDir stack (joined dirs ++ rest) c) :
    ∃ c', Reaches c c' ∧ AtDir (dirs.foldl keep stack) rest c' := by
  induction dirs generalizing stack c with
  | nil => exact ⟨c, Reaches.refl c, h⟩
  | cons dir dirs ih =>
    obtain ⟨hroom, hrest⟩ := staysBelow_cons.1 hbelow
    have hdir : Plain dir := hdirs dir List.mem_cons_self
    rw [joined_cons, List.append_assoc, List.cons_append] at h
    obtain ⟨c', hreach, hat⟩ := reaches_keep hstack hdir hroom h
    obtain ⟨c'', hreach', hat'⟩ :=
      ih (fun d hd => hdirs d (List.mem_cons_of_mem dir hd)) (plain_keep hstack hdir) hrest hat
    exact ⟨c'', hreach.trans hreach', hat'⟩

/-- The first `..` that has no directory to take back leaves the string. -/
theorem faults_of_not_staysBelow {dirs : List Text} (hdirs : ∀ d ∈ dirs, Plain d)
    {stack : List Text} (hstack : ∀ d ∈ stack, Plain d) (hbelow : ¬StaysBelow stack dirs)
    {rest : Text} {c : Cursor} (h : AtDir stack (joined dirs ++ rest) c) :
    ∃ n, cleanLoop n c = none := by
  induction dirs generalizing stack c with
  | nil => exact absurd (staysBelow_nil stack) hbelow
  | cons dir dirs ih =>
    have hdir : Plain dir := hdirs dir List.mem_cons_self
    rw [joined_cons, List.append_assoc, List.cons_append] at h
    by_cases hroom : dir = ['.', '.'] → HasRoom stack
    · obtain ⟨c', ⟨n, hn⟩, hat⟩ := reaches_keep hstack hdir hroom h
      obtain ⟨k, hk⟩ := ih (fun d hd => hdirs d (List.mem_cons_of_mem dir hd))
        (plain_keep hstack hdir) (fun hrest => hbelow (staysBelow_cons.2 ⟨hroom, hrest⟩)) hat
      refine ⟨n + k, ?_⟩
      rw [cleanLoop_add, hn, Option.bind_some, hk]
    · obtain ⟨rfl, hnone⟩ := Classical.not_imp.1 hroom
      obtain ⟨gap, rfl, hgap⟩ := h
      exact ⟨1, cleanLoop_none (by decide) (cleanStep_dotdot_none hnone hgap (joined dirs ++ rest))⟩

/-! ## The whole path -/

/-- The first component of a path is copied, dots or not. -/
theorem reaches_first {first : Text} (hfirst : Plain first) (rest : Text) :
    ∃ c, Reaches ⟨first ++ '\\' :: rest, 0, 0⟩ c ∧ AtDir [first] rest c := by
  have hdots : ¬AtDots [] [] (first ++ '\\' :: rest) := by
    rintro ⟨hlast, -⟩
    exact absurd hlast (by simp)
  obtain ⟨gap, -, hreach, hlast⟩ := reaches_copy_dir hfirst hdots
  refine ⟨_, hreach, gap, ?_, ?_⟩
  · simp
  · simpa using hlast

/-- With a directory to take back for each `..`, the loop comes to the end of the path. What it has
written is what the directories mean, and the last component. -/
theorem reaches_end {dirs : List Text} {last : Text} (hdirs : ∀ d ∈ dirs, Plain d)
    (hlast : Plain last) (hparents : ParentsExist dirs) :
    ∃ gap, Reaches ⟨joined dirs ++ last, 0, 0⟩
      (cursorAt (joined (kept dirs).reverse ++ last) gap []) := by
  cases dirs with
  | nil =>
    obtain ⟨gap, -, hreach⟩ := reaches_copy_last hlast [] []
    exact ⟨gap, hreach⟩
  | cons first dirs =>
    have hfirst : Plain first := hdirs first List.mem_cons_self
    obtain ⟨c, hreach, hat⟩ := reaches_first hfirst (joined dirs ++ last)
    obtain ⟨c', hreach', gap, rfl, -⟩ :=
      reaches_foldl_keep (fun d hd => hdirs d (List.mem_cons_of_mem first hd))
      (by simpa using hfirst) (parentsExist_cons.1 hparents) hat
    obtain ⟨gap', -, hreach''⟩ :=
      reaches_copy_last hlast (joined (dirs.foldl keep [first]).reverse) gap
    refine ⟨gap', ?_⟩
    rw [joined_cons, List.append_assoc, List.cons_append]
    exact (hreach.trans hreach').trans hreach''

/-- Otherwise it reads outside the string. -/
theorem faults_of_not_parentsExist {dirs : List Text} (hdirs : ∀ d ∈ dirs, Plain d)
    (hparents : ¬ParentsExist dirs) (last : Text) :
    ∃ n, cleanLoop n ⟨joined dirs ++ last, 0, 0⟩ = none := by
  cases dirs with
  | nil => exact absurd parentsExist_nil hparents
  | cons first dirs =>
    have hfirst : Plain first := hdirs first List.mem_cons_self
    obtain ⟨c, ⟨n, hn⟩, hat⟩ := reaches_first hfirst (joined dirs ++ last)
    obtain ⟨k, hk⟩ := faults_of_not_staysBelow (fun d hd => hdirs d (List.mem_cons_of_mem first hd))
      (by simpa using hfirst) (fun h => hparents (parentsExist_cons.2 h)) hat
    refine ⟨n + k, ?_⟩
    rw [joined_cons, List.append_assoc, List.cons_append, cleanLoop_add, hn, Option.bind_some, hk]

/-! ## The bounds of the two pointers -/

/-- `dest` does not overtake `ptr`, and both are in the string. -/
structure InBounds (c : Cursor) : Prop where
  dest_nonneg : 0 ≤ c.dest
  dest_le_ptr : c.dest ≤ c.ptr
  ptr_le : c.ptr ≤ c.buf.length

theorem InBounds.start (buf : Text) : InBounds ⟨buf, 0, 0⟩ :=
  ⟨Int.le_refl 0, Int.le_refl 0, Int.natCast_nonneg _⟩

theorem startsAt_bound {buf part : Text} (hnul : nul ∉ part) {i : Int} (hi : i ≤ buf.length)
    (h : startsAt buf i part = some true) : i + part.length ≤ buf.length := by
  induction part generalizing i with
  | nil => simpa using hi
  | cons c part ih =>
    rw [startsAt_cons] at h
    obtain ⟨r, hread, h⟩ := Option.bind_eq_some_iff.1 h
    by_cases hr : r = c
    · rw [if_pos hr] at h
      have hc : r ≠ nul := fun heq => hnul (by rw [← heq, hr]; exact List.mem_cons_self)
      have hlt := (readAt_bound hread).2.2 hc
      have hrest := ih (fun h => hnul (List.mem_cons_of_mem c h)) (by omega) h
      rw [List.length_cons]
      omega
    · rw [if_neg hr] at h
      simp at h

theorem afterSlash_bound {c : Cursor} {part : Text} (hnul : nul ∉ part)
    (hptr : c.ptr ≤ c.buf.length) (h : c.afterSlash part = some true) :
    c.ptr + part.length ≤ c.buf.length := by
  rw [afterSlash_eq_bind] at h
  split at h
  · obtain ⟨r, -, h⟩ := Option.bind_eq_some_iff.1 h
    split at h
    · exact startsAt_bound hnul hptr h
    · simp at h
  · simp at h

theorem backToSlash_le {buf : Text} {dest i : Nat} (h : backToSlash buf dest = some i) :
    i ≤ dest := by
  induction dest with
  | zero =>
    cases h
    exact Nat.le_refl 0
  | succ dest ih =>
    rw [backToSlash_succ] at h
    obtain ⟨c, -, h⟩ := Option.bind_eq_some_iff.1 h
    split at h
    · cases h
      exact Nat.le_refl _
    · exact Nat.le_succ_of_le (ih h)

/-- A step back does not go before the string, and goes back. -/
theorem stepBack_bound {buf : Text} {dest back : Int} (h : stepBack buf dest = some back) :
    0 ≤ back ∧ back < dest := by
  obtain ⟨i, hi, h⟩ := Option.bind_eq_some_iff.1 h
  obtain ⟨r, hread, h⟩ := Option.bind_eq_some_iff.1 h
  have hle : i ≤ dest - 2 := by
    split at hi
    · obtain ⟨m, hm, rfl⟩ := Option.map_eq_some_iff.1 hi
      have hmle := backToSlash_le hm
      simp only [Int.ofNat_eq_natCast]
      omega
    · cases hi
      exact Int.le_refl _
  have hpos := (readAt_bound hread).1
  cases h
  split <;> omega

theorem length_writeAt {buf buf' : Text} {i : Int} {c : Char} (h : writeAt buf i c = some buf') :
    buf'.length = buf.length := by
  unfold writeAt at h
  split at h
  · cases h
    exact List.length_set
  · simp at h

/-- What a round does: it skips `.`, goes back for `..`, or copies a character. -/
theorem cleanStep_cases {c c' : Cursor} (h : cleanStep c = some c') :
    c.afterSlash ['.', '\\'] = some true ∧ c' = { c with ptr := c.ptr + 2 } ∨
      (c.afterSlash ['.', '.', '\\'] = some true ∧
        ∃ dest, stepBack c.buf c.dest = some dest ∧ c' = { c with ptr := c.ptr + 3, dest }) ∨
      ∃ buf, buf.length = c.buf.length ∧ c' = ⟨buf, c.ptr + 1, c.dest + 1⟩ := by
  rcases hone : c.afterSlash ['.', '\\'] with _ | _ | _
  · unfold cleanStep at h
    rw [hone] at h
    cases h
  · rcases htwo : c.afterSlash ['.', '.', '\\'] with _ | _ | _
    · unfold cleanStep at h
      rw [hone, htwo] at h
      cases h
    · unfold cleanStep at h
      rw [hone, htwo] at h
      simp only [Option.bind_eq_bind, Option.bind_some, Bool.false_eq_true, if_false] at h
      refine Or.inr (Or.inr ?_)
      split at h
      · obtain ⟨r, -, h⟩ := Option.bind_eq_some_iff.1 h
        obtain ⟨buf, hwrite, h⟩ := Option.bind_eq_some_iff.1 h
        exact ⟨buf, length_writeAt hwrite, (Option.some.inj h).symm⟩
      · exact ⟨c.buf, rfl, (Option.some.inj h).symm⟩
    · rw [cleanStep_of_dotdot hone htwo] at h
      obtain ⟨dest, hdest, heq⟩ := Option.map_eq_some_iff.1 h
      exact Or.inr (Or.inl ⟨rfl, dest, hdest, heq.symm⟩)
  · unfold cleanStep at h
    rw [hone] at h
    exact Or.inl ⟨rfl, (Option.some.inj h).symm⟩

/-- A round keeps to the string, and comes nearer to its end. -/
theorem cleanStep_inBounds {c c' : Cursor} (hc : InBounds c) {r : Char}
    (hread : readAt c.buf c.ptr = some r) (hr : r ≠ nul) (h : cleanStep c = some c') :
    InBounds c' ∧ c'.buf.length = c.buf.length ∧ c.ptr + 1 ≤ c'.ptr := by
  obtain ⟨hnonneg, hle, hptr⟩ := hc
  have hlt := (readAt_bound hread).2.2 hr
  rcases cleanStep_cases h with ⟨hone, rfl⟩ | ⟨htwo, dest, hdest, rfl⟩ | ⟨buf, hlen, rfl⟩
  · have hbound := afterSlash_bound (by decide) hptr hone
    simp only [List.length_cons, List.length_nil] at hbound
    refine ⟨⟨hnonneg, ?_, ?_⟩, rfl, ?_⟩ <;> dsimp only <;> omega
  · have hbound := afterSlash_bound (by decide) hptr htwo
    have hback := stepBack_bound hdest
    simp only [List.length_cons, List.length_nil] at hbound
    refine ⟨⟨hback.1, ?_, ?_⟩, rfl, ?_⟩ <;> dsimp only <;> omega
  · refine ⟨⟨?_, ?_, ?_⟩, hlen, ?_⟩ <;> dsimp only <;> omega

/-- What the loop comes to is in bounds, and as many characters further as it
did rounds, or at the end. -/
theorem cleanLoop_inBounds {n : Nat} {c c' : Cursor} (hc : InBounds c)
    (h : cleanLoop n c = some c') :
    InBounds c' ∧ c'.buf.length = c.buf.length ∧
    (c.ptr + n ≤ c'.ptr ∨ readAt c'.buf c'.ptr = some nul) := by
  induction n generalizing c with
  | zero =>
    cases h
    exact ⟨hc, rfl, Or.inl (by simp)⟩
  | succ n ih =>
    rw [cleanLoop_succ] at h
    obtain ⟨r, hread, h⟩ := Option.bind_eq_some_iff.1 h
    by_cases hr : r = nul
    · rw [if_pos hr] at h
      cases h
      exact ⟨hc, rfl, Or.inr (hr ▸ hread)⟩
    · rw [if_neg hr] at h
      obtain ⟨next, hstep, h⟩ := Option.bind_eq_some_iff.1 h
      obtain ⟨hnext, hlen, hptr⟩ := cleanStep_inBounds hc hread hr hstep
      obtain ⟨hbounds, hlen', hfar⟩ := ih hnext h
      refine ⟨hbounds, by rw [hlen', hlen], ?_⟩
      rcases hfar with hfar | hend
      · exact Or.inl (by omega)
      · exact Or.inr hend

/-- As many rounds as there are characters bring the loop to the end. -/
theorem cleanLoop_enough {buf : Text} {c : Cursor} (h : cleanLoop buf.length ⟨buf, 0, 0⟩ = some c) :
    readAt c.buf c.ptr = some nul := by
  obtain ⟨hbounds, hlen, hfar | hend⟩ := cleanLoop_inBounds (.start buf) h
  · have hle := hbounds.ptr_le
    apply readAt_length
    dsimp only at hfar hlen
    omega
  · exact hend

end Resman.Win32
