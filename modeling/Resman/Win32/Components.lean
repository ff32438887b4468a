import Resman.Win32.Path

/-!
# The components of a path

A path is read as its directories, each with a separator behind it, and what comes after the last of
the separators. `keep` is what a directory means: `.` says nothing, `..` takes back the directory
before it. This is the reference that `clean_path` is compared with; none of it is in the code.
-/

namespace Resman.Win32

/-- The first loop of `clean_path`, at one character. -/
def toBackslash (c : Char) : Char := if c = '/' then '\\' else c

/-- Neither a separator nor the terminator is in it. -/
def Plain (part : Text) : Prop := '/' ∉ part ∧ '\\' ∉ part ∧ nul ∉ part

instance (part : Text) : Decidable (Plain part) := inferInstanceAs (Decidable (_ ∧ _))

/-- Directories, with a backslash behind each. -/
def joined (dirs : List Text) : Text := dirs.flatMap (· ++ ['\\'])

@[simp] theorem joined_nil : joined [] = [] := rfl

@[simp] theorem joined_cons (dir : Text) (dirs : List Text) :
    joined (dir :: dirs) = dir ++ '\\' :: joined dirs := by
  simp [joined]

@[simp] theorem joined_append (dirs more : List Text) :
    joined (dirs ++ more) = joined dirs ++ joined more := by
  simp [joined]

/-- One more character in front of the first component. -/
def inFront (c : Char) : List Text × Text → List Text × Text
  | ([], last) => ([], c :: last)
  | (dir :: dirs, last) => ((c :: dir) :: dirs, last)

/-- The directories of a path, and what follows the last separator. -/
def components : Text → List Text × Text
  | [] => ([], [])
  | c :: path =>
    if c = '/' ∨ c = '\\' then ([] :: (components path).1, (components path).2)
    else inFront c (components path)

theorem components_cons_sep {c : Char} (h : c = '/' ∨ c = '\\') (path : Text) :
    components (c :: path) = ([] :: (components path).1, (components path).2) :=
  if_pos h

theorem components_cons_char {c : Char} (h : ¬(c = '/' ∨ c = '\\')) (path : Text) :
    components (c :: path) = inFront c (components path) :=
  if_neg h

/-- With backslashes, the components make up the path again. -/
theorem joined_components (path : Text) :
    path.map toBackslash = joined (components path).1 ++ (components path).2 := by
  induction path with
  | nil => rfl
  | cons c path ih =>
    rw [List.map_cons, ih]
    by_cases hsep : c = '/' ∨ c = '\\'
    · have hc : toBackslash c = '\\' := by
        rcases hsep with rfl | rfl <;> rfl
      rw [components_cons_sep hsep, hc]
      simp
    · have hc : toBackslash c = c := by
        unfold toBackslash
        rw [if_neg fun h => hsep (Or.inl h)]
      rw [components_cons_char hsep, hc]
      rcases components path with ⟨_ | ⟨dir, dirs⟩, last⟩ <;> simp [inFront]

theorem Plain.nil : Plain [] := by simp [Plain]

theorem Plain.cons {c : Char} {part : Text} (hsep : ¬(c = '/' ∨ c = '\\')) (hc : c ≠ nul)
    (h : Plain part) :
    Plain (c :: part) := by
  obtain ⟨hslash, hback, hnul⟩ := h
  refine ⟨?_, ?_, ?_⟩
  · intro hmem
    rcases List.mem_cons.1 hmem with h | h
    · exact hsep (Or.inl h.symm)
    · exact hslash h
  · intro hmem
    rcases List.mem_cons.1 hmem with h | h
    · exact hsep (Or.inr h.symm)
    · exact hback h
  · intro hmem
    rcases List.mem_cons.1 hmem with h | h
    · exact hc h.symm
    · exact hnul h

/-- The components of a string have no separator in them. -/
theorem components_plain {path : Text} (hnul : nul ∉ path) :
    (∀ dir ∈ (components path).1, Plain dir) ∧ Plain (components path).2 := by
  induction path with
  | nil => exact ⟨fun _ hdir => absurd hdir List.not_mem_nil, Plain.nil⟩
  | cons c path ih =>
    obtain ⟨hdirs, hlast⟩ := ih fun h => hnul (List.mem_cons_of_mem c h)
    have hc : c ≠ nul := fun h => hnul (h ▸ List.mem_cons_self)
    by_cases hsep : c = '/' ∨ c = '\\'
    · rw [components_cons_sep hsep]
      refine ⟨?_, hlast⟩
      intro dir hdir
      rcases List.mem_cons.1 hdir with rfl | hdir
      · exact Plain.nil
      · exact hdirs dir hdir
    · rw [components_cons_char hsep]
      rcases hrest : components path with ⟨_ | ⟨first, dirs⟩, last⟩ <;> rw [hrest] at hdirs hlast
      · exact ⟨fun _ hdir => absurd hdir List.not_mem_nil, Plain.cons hsep hc hlast⟩
      · refine ⟨?_, hlast⟩
        intro dir hdir
        rcases List.mem_cons.1 hdir with rfl | hdir
        · exact Plain.cons hsep hc (hdirs first List.mem_cons_self)
        · exact hdirs dir (List.mem_cons_of_mem first hdir)

theorem map_toBackslash_of_plain {part : Text} (h : Plain part) : part.map toBackslash = part := by
  have hsame : ∀ c ∈ part, toBackslash c = c := by
    intro c hc
    have hne : c ≠ '/' := fun heq => h.1 (heq ▸ hc)
    unfold toBackslash
    rw [if_neg hne]
  rw [List.map_congr_left hsame, List.map_id']

/-! ## What the directories mean -/

/-- What a directory makes of those kept before it, of which the last comes first. -/
def keep (stack : List Text) (dir : Text) : List Text :=
  if dir = ['.'] then stack else if dir = ['.', '.'] then stack.tail else dir :: stack

/-- The directories that are kept of a path, the last one first. The first of them follows no slash,
and stands for itself whatever it is. -/
def kept : List Text → List Text
  | [] => []
  | first :: dirs => dirs.foldl keep [first]

theorem kept_cons (first : Text) (dirs : List Text) :
    kept (first :: dirs) = dirs.foldl keep [first] := rfl

/-- There is a directory to take back: more than the empty one in front of a leading slash. -/
def HasRoom (stack : List Text) : Prop := stack ≠ [] ∧ stack ≠ [[]]

instance (stack : List Text) : Decidable (HasRoom stack) := inferInstanceAs (Decidable (_ ∧ _))

/-- Each `..` among the directories has one to take back. -/
def StaysBelow (stack dirs : List Text) : Prop :=
  ∀ before after, dirs = before ++ ['.', '.'] :: after → HasRoom (before.foldl keep stack)

theorem staysBelow_nil (stack : List Text) : StaysBelow stack [] := by
  intro before after h
  exact absurd h.symm (by simp)

theorem staysBelow_cons {stack : List Text} {dir : Text} {dirs : List Text} :
    StaysBelow stack (dir :: dirs) ↔ (dir = ['.', '.'] → HasRoom stack) ∧
      StaysBelow (keep stack dir) dirs := by
  constructor
  · intro h
    refine ⟨?_, ?_⟩
    · intro hdir
      exact h [] dirs (by rw [hdir]; rfl)
    · intro before after hdirs
      exact h (dir :: before) after (by rw [hdirs]; rfl)
  · intro h before after hdirs
    cases before with
    | nil =>
      obtain ⟨rfl, rfl⟩ := List.cons.inj hdirs
      exact h.1 rfl
    | cons first before =>
      obtain ⟨rfl, hrest⟩ := List.cons.inj hdirs
      exact h.2 before after hrest

/-- Each `..` behind the first component has a directory before it to take back. -/
def ParentsExist (dirs : List Text) : Prop :=
  ∀ before after, before ≠ [] → dirs = before ++ ['.', '.'] :: after → HasRoom (kept before)

theorem parentsExist_nil : ParentsExist [] := by
  intro before after _ h
  exact absurd h.symm (by simp)

theorem parentsExist_cons {first : Text} {dirs : List Text} :
    ParentsExist (first :: dirs) ↔ StaysBelow [first] dirs := by
  constructor
  · intro h before after hdirs
    exact h (first :: before) after (List.cons_ne_nil _ _) (by rw [hdirs]; rfl)
  · intro h before after hne hdirs
    cases before with
    | nil => exact absurd rfl hne
    | cons top before =>
      obtain ⟨rfl, hrest⟩ := List.cons.inj hdirs
      exact h before after hrest

theorem keep_of_plain {stack : List Text} {dir : Text} (hone : dir ≠ ['.'])
    (htwo : dir ≠ ['.', '.']) :
    keep stack dir = dir :: stack := by
  unfold keep
  rw [if_neg hone, if_neg htwo]

/-- Without dots every directory is kept. -/
theorem foldl_keep_of_plain {dirs : List Text} (h : ∀ dir ∈ dirs, dir ≠ ['.'] ∧ dir ≠ ['.', '.'])
    (stack : List Text) : dirs.foldl keep stack = dirs.reverse ++ stack := by
  induction dirs generalizing stack with
  | nil => rfl
  | cons dir dirs ih =>
    obtain ⟨hone, htwo⟩ := h dir List.mem_cons_self
    rw [List.foldl_cons, keep_of_plain hone htwo,
      ih fun other hother => h other (List.mem_cons_of_mem dir hother)]
    simp

/-- A directory below all that are kept changes nothing, where none takes it back. -/
theorem foldl_keep_append {dirs : List Text} (stack : List Text)
    (h : ∀ before after, dirs = before ++ ['.', '.'] :: after → before.foldl keep stack ≠ [])
    (base : Text) :
    dirs.foldl keep (stack ++ [base]) = dirs.foldl keep stack ++ [base] := by
  induction dirs generalizing stack with
  | nil => rfl
  | cons dir dirs ih =>
    have hkeep : keep (stack ++ [base]) dir = keep stack dir ++ [base] := by
      unfold keep
      by_cases hone : dir = ['.']
      · rw [if_pos hone, if_pos hone]
      · rw [if_neg hone, if_neg hone]
        by_cases htwo : dir = ['.', '.']
        · have hne : stack ≠ [] := h [] dirs (by rw [htwo]; rfl)
          rw [if_pos htwo, if_pos htwo, List.tail_append_of_ne_nil hne]
        · rw [if_neg htwo, if_neg htwo, List.cons_append]
    rw [List.foldl_cons, List.foldl_cons, hkeep]
    apply ih
    intro before after hdirs
    exact h (dir :: before) after (by rw [hdirs]; rfl)

/-- The text of what is kept is no longer than that of the directories. -/
theorem length_joined_keep_le (stack : List Text) (dir : Text) :
    (joined (keep stack dir)).length ≤ (joined stack).length + dir.length + 1 := by
  unfold keep
  split
  · omega
  · split
    · cases stack with
      | nil => simp
      | cons top stack =>
        simp only [List.tail_cons, joined_cons, List.length_append, List.length_cons]
        omega
    · simp only [joined_cons, List.length_append, List.length_cons]
      omega

/-- It is shorter for a directory that is not kept. -/
theorem length_joined_keep_lt {dir : Text} (h : dir = ['.'] ∨ dir = ['.', '.'])
    (stack : List Text) :
    (joined (keep stack dir)).length < (joined stack).length + dir.length + 1 := by
  rcases h with rfl | rfl
  · simp only [keep, if_pos, List.length_cons]
    omega
  · cases stack with
    | nil => simp [keep]
    | cons top stack =>
      simp only [keep, List.cons.injEq, reduceCtorEq, and_false, if_false, if_true,
        List.tail_cons, joined_cons, List.length_append, List.length_cons]
      omega

theorem length_joined_foldl_le (dirs stack : List Text) :
    (joined (dirs.foldl keep stack)).length ≤ (joined stack).length + (joined dirs).length := by
  induction dirs generalizing stack with
  | nil => simp
  | cons dir dirs ih =>
    have hstep := length_joined_keep_le stack dir
    have hrest := ih (keep stack dir)
    simp only [List.foldl_cons, joined_cons, List.length_append, List.length_cons]
    omega

theorem length_joined_foldl_lt {dirs : List Text} (h : ∃ dir ∈ dirs, dir = ['.'] ∨ dir = ['.', '.'])
    (stack : List Text) :
    (joined (dirs.foldl keep stack)).length < (joined stack).length + (joined dirs).length := by
  induction dirs generalizing stack with
  | nil =>
    obtain ⟨dir, hdir, -⟩ := h
    exact absurd hdir List.not_mem_nil
  | cons dir dirs ih =>
    simp only [List.foldl_cons, joined_cons, List.length_append, List.length_cons]
    by_cases hdir : dir = ['.'] ∨ dir = ['.', '.']
    · have hstep := length_joined_keep_lt hdir stack
      have hrest := length_joined_foldl_le dirs (keep stack dir)
      omega
    · have hstep := length_joined_keep_le stack dir
      obtain ⟨other, hother, hdots⟩ := h
      rcases List.mem_cons.1 hother with rfl | hother
      · exact absurd hdots hdir
      · have hrest := ih ⟨other, hother, hdots⟩ (keep stack dir)
        omega

theorem length_joined_reverse (dirs : List Text) :
    (joined dirs.reverse).length = (joined dirs).length := by
  induction dirs with
  | nil => rfl
  | cons dir dirs ih =>
    simp only [List.reverse_cons, joined_append, joined_cons, joined_nil, List.length_append,
      List.length_cons, List.length_nil]
    omega

end Resman.Win32
