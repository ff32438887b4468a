import Resman.Win32.Clean

/-!
# Which paths `clean_path` cleans

The result of `clean_path` begins with what the directories of the path mean, and where this is
shorter than the path, characters of the path are left behind it. So a path becomes its canonical
form when there are no dots to remove, and the loop stays in the string when each `..` has a
directory to take back.
-/

namespace Resman.Win32

/-! ## What is left in the buffer -/

/-- What the directories mean stands at the beginning of the result. -/
theorem cleanPath_eq {path : Text} {dirs : List Text} {last : Text}
    (hpath : path.map toBackslash = joined dirs ++ last) (hdirs : ∀ d ∈ dirs, Plain d)
    (hlast : Plain last) (hparents : ParentsExist dirs) :
    ∃ gap, cleanPath path = some (joined (kept dirs).reverse ++ last ++ gap) ∧
      (joined (kept dirs).reverse ++ last ++ gap).length = path.length := by
  obtain ⟨gap, n, hn⟩ := reaches_end hdirs hlast hparents
  rw [← hpath] at hn
  have hlen : (path.map toBackslash).length = path.length := List.length_map _
  -- the loop has `path.length` rounds, which are enough
  have hall := cleanLoop_add path.length n ⟨path.map toBackslash, 0, 0⟩
  rw [Nat.add_comm, cleanLoop_add, hn, Option.bind_some, cleanLoop_end (readAt_cursorAt_end _ gap)]
    at hall
  obtain ⟨c, hc, hrest⟩ := Option.bind_eq_some_iff.1 hall.symm
  rw [← hlen] at hc
  rw [cleanLoop_end (cleanLoop_enough hc)] at hrest
  cases hrest
  have hbuf : (cursorAt (joined (kept dirs).reverse ++ last) gap []).buf
      = joined (kept dirs).reverse ++ last ++ gap := List.append_nil _
  refine ⟨gap, ?_, ?_⟩
  · have hclean : cleanPath path
        = (cleanLoop path.length ⟨path.map toBackslash, 0, 0⟩).map Cursor.buf := rfl
    rw [hclean, ← hlen, hc, Option.map_some, hbuf]
  · have hsame := (cleanLoop_inBounds (.start _) hc).2.1
    rw [hbuf] at hsame
    rw [hsame]
    exact hlen

/-! ## Paths with a drive -/

/-- Either of the characters that separate components. -/
inductive Separator where
  | slash
  | backslash
  deriving DecidableEq, Repr

def Separator.char : Separator → Char
  | .slash => '/'
  | .backslash => '\\'

theorem Separator.toBackslash_char (sep : Separator) : toBackslash sep.char = '\\' := by
  cases sep <;> rfl

/-- A component that is not empty. -/
structure Component where
  text : Text
  nonempty : text ≠ []
  plain : Plain text

/-- An absolute path: a drive letter, a colon, a separator, and components with single separators
between them. After the last separator there may be nothing. -/
structure DrivePath where
  drive : Char
  drive_plain : Plain [drive]
  root : Separator
  dirs : List (Component × Separator)
  last : Option Component

namespace DrivePath

/-- The directories. -/
def names (p : DrivePath) : List Text := p.dirs.map fun d => d.1.text

def lastText (p : DrivePath) : Text := (p.last.map Component.text).getD []

/-- The path as it is given to `clean_path`. -/
def text (p : DrivePath) : Text :=
  p.drive :: ':' :: p.root.char :: (p.dirs.flatMap fun d => d.1.text ++ [d.2.char]) ++ p.lastText

/-- The path with the directories that are kept, and backslashes. At the root
`..` takes back nothing. -/
def canonical (p : DrivePath) : Text :=
  p.drive :: ':' :: '\\' :: joined (p.names.foldl keep []).reverse ++ p.lastText

theorem plain_names (p : DrivePath) : ∀ d ∈ p.names, Plain d := by
  intro d hd
  obtain ⟨c, -, rfl⟩ := List.mem_map.1 hd
  exact c.1.plain

theorem plain_lastText (p : DrivePath) : Plain p.lastText := by
  unfold lastText
  cases p.last with
  | none => exact Plain.nil
  | some c => exact c.plain

theorem plain_drive (p : DrivePath) : Plain [p.drive, ':'] := by
  have h := p.drive_plain
  simp only [Plain, List.mem_singleton] at h
  simp only [Plain, List.mem_cons, List.not_mem_nil, or_false, not_or]
  exact ⟨⟨h.1, by decide⟩, ⟨h.2.1, by decide⟩, ⟨h.2.2, by decide⟩⟩

/-- With backslashes, the path is its drive, its directories and what follows them. -/
theorem map_text (p : DrivePath) :
    p.text.map toBackslash = joined ([p.drive, ':'] :: p.names) ++ p.lastText := by
  have hdirs : ∀ dirs : List (Component × Separator),
      (dirs.flatMap fun d => d.1.text ++ [d.2.char]).map toBackslash =
        joined (dirs.map fun d => d.1.text) := by
    intro dirs
    induction dirs with
    | nil => rfl
    | cons d dirs ih =>
      rw [List.flatMap_cons, List.map_append, List.map_append, ih,
        map_toBackslash_of_plain d.1.plain, List.map_singleton, d.2.toBackslash_char, List.map_cons,
        joined_cons, List.append_assoc, List.singleton_append]
  have hdrive := map_toBackslash_of_plain p.plain_drive
  rw [List.map_cons, List.map_singleton] at hdrive
  obtain ⟨hletter, hcolon⟩ := List.cons.inj hdrive
  unfold text names
  rw [List.map_append, List.map_cons, List.map_cons, List.map_cons, hdirs, hletter,
    map_toBackslash_of_plain p.plain_lastText, p.root.toBackslash_char]
  rfl

theorem length_text (p : DrivePath) :
    p.text.length = (joined p.names).length + p.lastText.length + 3 := by
  have h := congrArg List.length p.map_text
  rw [List.length_map] at h
  rw [h]
  simp only [joined_cons, List.length_append, List.length_cons, List.length_nil]
  omega

theorem length_canonical (p : DrivePath) :
    p.canonical.length = (joined (p.names.foldl keep [])).length + p.lastText.length + 3 := by
  unfold canonical
  rw [List.length_append, List.length_cons, List.length_cons, List.length_cons,
    length_joined_reverse]
  omega

end DrivePath

/-- The string does not become shorter. -/
theorem length_cleanPath {path out : Text} (h : cleanPath path = some out) :
    out.length = path.length := by
  obtain ⟨c, hc, rfl⟩ := Option.map_eq_some_iff.1 h
  have hlen := (cleanLoop_inBounds (.start _) hc).2.1
  rw [hlen]
  exact List.length_map _

/-- Each `..` has a directory below the root to take back. -/
def StaysBelowRoot (p : DrivePath) : Prop :=
  ∀ before after, p.names = before ++ ['.', '.'] :: after → before.foldl keep [] ≠ []

/-- Then the result is the canonical path, with what is left of a longer one behind it. -/
theorem cleanPath_of_staysBelowRoot {p : DrivePath} (h : StaysBelowRoot p) :
    ∃ left, cleanPath p.text = some (p.canonical ++ left) ∧
      (p.canonical ++ left).length = p.text.length := by
  have hbase : p.names.foldl keep [[p.drive, ':']] = p.names.foldl keep [] ++ [[p.drive, ':']] :=
    foldl_keep_append [] h [p.drive, ':']
  have hparents : ParentsExist ([p.drive, ':'] :: p.names) := by
    apply parentsExist_cons.2
    intro before after hnames
    have hkept : before.foldl keep [[p.drive, ':']] = before.foldl keep [] ++ [[p.drive, ':']] := by
      apply foldl_keep_append []
      intro before' after' hbefore
      apply h before' (after' ++ ['.', '.'] :: after)
      rw [hnames, hbefore, List.append_assoc, List.cons_append]
    rw [hkept]
    refine ⟨by simp, ?_⟩
    intro hone
    exact absurd (congrArg List.length hone) (by simpa using h before after hnames)
  have hdirs : ∀ d ∈ [p.drive, ':'] :: p.names, Plain d := by
    intro d hd
    rcases List.mem_cons.1 hd with rfl | hd
    · exact p.plain_drive
    · exact p.plain_names d hd
  obtain ⟨left, hclean, hlen⟩ := cleanPath_eq p.map_text hdirs p.plain_lastText hparents
  have hcanonical : joined (kept ([p.drive, ':'] :: p.names)).reverse ++ p.lastText =
      p.canonical := by
    unfold DrivePath.canonical
    rw [kept_cons, hbase]
    simp
  rw [hcanonical] at hclean hlen
  exact ⟨left, hclean, hlen⟩

/-- A path is cleaned exactly when it has no dots to remove. -/
theorem cleanPath_canonical_iff (p : DrivePath) :
    cleanPath p.text = some p.canonical ↔ ∀ d ∈ p.dirs, d.1.text ≠ ['.'] ∧
      d.1.text ≠ ['.', '.'] := by
  constructor
  · intro hclean d hd
    by_contra hdots
    have hshort : ∃ dir ∈ p.names, dir = ['.'] ∨ dir = ['.', '.'] :=
      ⟨d.1.text, List.mem_map_of_mem hd, (not_and_or.1 hdots).imp not_not.1 not_not.1⟩
    have hlt := length_joined_foldl_lt hshort []
    have hlen := length_cleanPath hclean
    rw [p.length_text, p.length_canonical] at hlen
    simp only [joined_nil, List.length_nil] at hlt
    omega
  · intro hplain
    have hnames : ∀ d ∈ p.names, d ≠ ['.'] ∧ d ≠ ['.', '.'] := by
      intro d hd
      obtain ⟨c, hc, rfl⟩ := List.mem_map.1 hd
      exact hplain c hc
    have hbelow : StaysBelowRoot p := by
      intro before after hdirs
      exact absurd rfl (hnames ['.', '.'] (by rw [hdirs]; simp)).2
    obtain ⟨left, hclean, hlen⟩ := cleanPath_of_staysBelowRoot hbelow
    -- nothing is left behind, for the length is that of the path
    rw [List.length_append, p.length_text, p.length_canonical, foldl_keep_of_plain hnames,
      List.append_nil, length_joined_reverse] at hlen
    have hleft : left = [] := List.eq_nil_of_length_eq_zero (by omega)
    rw [hclean, hleft, List.append_nil]

/-- The string is not ended where it became shorter, and at the root the drive is taken back. -/
theorem cleanPath_not_canonical :
    (∃ p : DrivePath, p.text = ['C', ':', '/', 'a', '/', '.', '.', '/', 'b'] ∧
      p.canonical = ['C', ':', '\\', 'b'] ∧
      cleanPath p.text = some ['C', ':', '\\', 'b', '\\', '.', '.', '\\', 'b']) ∧
    ∃ p : DrivePath, p.text = ['C', ':', '/', '.', '.', '/', 'x'] ∧
      p.canonical = ['C', ':', '\\', 'x'] ∧
      cleanPath p.text = some ['x', ':', '\\', '.', '.', '\\', 'x'] := by
  refine ⟨⟨⟨'C', by decide, .slash, [(⟨['a'], by decide, by decide⟩, .slash),
    (⟨['.', '.'], by decide, by decide⟩, .slash)], some ⟨['b'], by decide, by decide⟩⟩, ?_⟩,
    ⟨'C', by decide, .slash, [(⟨['.', '.'], by decide, by decide⟩, .slash)],
      some ⟨['x'], by decide, by decide⟩⟩, ?_⟩
  · exact ⟨by decide, by decide, by decide⟩
  · exact ⟨by decide, by decide, by decide⟩

/-! ## Where the pointers stay -/

/-- Each access of the loop is in the string or at its terminator, `dest` does not overtake `ptr`,
and neither goes before the beginning. -/
def StaysInBounds (path : Text) : Prop :=
  ∀ n, ∃ c, cleanLoop n ⟨path.map toBackslash, 0, 0⟩ = some c ∧
    0 ≤ c.dest ∧ c.dest ≤ c.ptr ∧ c.ptr ≤ path.length

/-- A loop that comes to the end of the string has no fault before. -/
theorem cleanLoop_ne_none {c c' : Cursor} {n : Nat} (hn : cleanLoop n c = some c')
    (hend : readAt c'.buf c'.ptr = some nul) (k : Nat) : cleanLoop k c ≠ none := by
  intro hnone
  rcases Nat.le_total k n with hle | hle
  · obtain ⟨m, rfl⟩ := Nat.exists_eq_add_of_le hle
    rw [cleanLoop_add, hnone] at hn
    cases hn
  · obtain ⟨m, rfl⟩ := Nat.exists_eq_add_of_le hle
    rw [cleanLoop_add, hn, Option.bind_some, cleanLoop_end hend] at hnone
    cases hnone

/-- The loop stays in the string exactly when each `..` has a directory to take back. -/
theorem staysInBounds_iff {path : Text} (hnul : nul ∉ path) :
    StaysInBounds path ↔ ParentsExist (components path).1 := by
  obtain ⟨hdirs, hlast⟩ := components_plain hnul
  have hpath := joined_components path
  constructor
  · intro h
    by_contra hparents
    obtain ⟨n, hnone⟩ := faults_of_not_parentsExist hdirs hparents (components path).2
    obtain ⟨c, hc, -⟩ := h n
    rw [hpath, hnone] at hc
    cases hc
  · intro hparents n
    obtain ⟨gap, k, hk⟩ := reaches_end hdirs hlast hparents
    rw [← hpath] at hk
    cases hc : cleanLoop n ⟨path.map toBackslash, 0, 0⟩ with
    | none => exact absurd hc (cleanLoop_ne_none hk (readAt_cursorAt_end _ gap) n)
    | some c =>
      obtain ⟨hbounds, hlen, -⟩ := cleanLoop_inBounds (.start _) hc
      have hptr := hbounds.ptr_le
      rw [hlen] at hptr
      refine ⟨c, rfl, hbounds.dest_nonneg, hbounds.dest_le_ptr, ?_⟩
      simpa using hptr

theorem nul_not_mem_absPath {cwd fname path : Text} (hcwd : nul ∉ cwd) (hfname : nul ∉ fname)
    (h : absPath cwd fname = some path) : nul ∉ path := by
  cases fname with
  | nil => cases h
  | cons c fname =>
    unfold absPath at h
    dsimp only at h
    by_cases hrelative : c ≠ '/' ∧ fname.head? ≠ some ':'
    · rw [if_pos hrelative] at h
      cases h
      intro hmem
      rcases List.mem_append.1 hmem with hmem | hmem
      · exact hcwd hmem
      · rcases List.mem_cons.1 hmem with hmem | hmem
        · exact absurd hmem (by decide)
        · exact hfname hmem
    · rw [if_neg hrelative] at h
      cases h
      exact hfname

/-- So it is for the paths of `abs_path`. -/
theorem absPath_staysInBounds_iff (cwd fname : Text) {path : Text} (hcwd : nul ∉ cwd)
    (hfname : nul ∉ fname) (h : absPath cwd fname = some path) :
    StaysInBounds path ↔ ParentsExist (components path).1 :=
  staysInBounds_iff (nul_not_mem_absPath hcwd hfname h)

/-- Of a relative name, in `C:\data`. -/
theorem absPath_staysInBounds_iff_data :
    StaysInBounds ['C', ':', '\\', 'd', '\\', '.', '.', '/', 'a'] ↔
      ParentsExist [['C', ':'], ['d'], ['.', '.']] :=
  absPath_staysInBounds_iff ['C', ':', '\\', 'd'] ['.', '.', '/', 'a'] (by decide)
    (by decide) (by decide)

/-- A `..` behind the leading slash goes before the string, and so does the second one of
`C:/../../x`, for the first took back the drive. -/
theorem not_staysInBounds_absPath :
    (absPath ['C', ':', '\\', 'd'] ['/', '.', '.', '/', 'x'] = some ['/', '.', '.', '/', 'x'] ∧
      ¬ StaysInBounds ['/', '.', '.', '/', 'x']) ∧
    absPath ['C', ':', '\\', 'd'] ['C', ':', '/', '.', '.', '/', '.', '.', '/', 'x']
      = some ['C', ':', '/', '.', '.', '/', '.', '.', '/', 'x'] ∧
      ¬ StaysInBounds ['C', ':', '/', '.', '.', '/', '.', '.', '/', 'x'] := by
  refine ⟨⟨by decide, ?_⟩, by decide, ?_⟩
  · intro h
    have hnone : cleanLoop 2 ⟨['/', '.', '.', '/', 'x'].map toBackslash, 0, 0⟩ = none := by decide
    obtain ⟨c, hc, -⟩ := h 2
    rw [hnone] at hc
    cases hc
  · intro h
    have hnone : cleanLoop 5 ⟨['C', ':', '/', '.', '.', '/', '.', '.', '/', 'x'].map toBackslash,
        0, 0⟩ = none := by decide
    obtain ⟨c, hc, -⟩ := h 5
    rw [hnone] at hc
    cases hc

end Resman.Win32
