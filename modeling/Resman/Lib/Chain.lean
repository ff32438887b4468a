import Mathlib.Data.List.Nodup

/-!
# Null-terminated linked lists

`next a` is the link stored in the cell at `a`, and `none` when there is no such cell. `Chain next p
l` says that the cells reached from the pointer `p` on are those of `l`, up to a null link. A chain
is determined by its pointer, so it has no cell twice; the operations below are a push at the head,
a pop of the head and a link behind the last cell.
-/

namespace Resman.Lib

variable {A : Type*}

def Chain (next : A → Option (Option A)) : Option A → List A → Prop
  | p, [] => p = none
  | p, a :: l => p = some a ∧ ∃ q, next a = some q ∧ Chain next q l

namespace Chain

variable {next next' : A → Option (Option A)} {p : Option A} {a t : A} {l l' : List A}

theorem head_eq (h : Chain next p l) : p = l.head? := by
  cases l with
  | nil => exact h
  | cons a l => exact h.1

/-- The head is popped. -/
theorem pop (h : Chain next (some a) l) :
    ∃ q l', l = a :: l' ∧ next a = some q ∧ Chain next q l' := by
  cases l with
  | nil => cases h
  | cons b l =>
    obtain ⟨hb, q, hq, hl⟩ := h
    obtain rfl := Option.some.inj hb
    exact ⟨q, l, rfl, hq, hl⟩

theorem unique (h : Chain next p l) (h' : Chain next p l') : l = l' := by
  induction l generalizing p l' with
  | nil =>
    obtain rfl : p = none := h
    cases l' with
    | nil => rfl
    | cons b l' => cases h'.1
  | cons a l ih =>
    obtain ⟨rfl, q, hq, hl⟩ := h
    obtain ⟨q', l', rfl, hq', hl'⟩ := h'.pop
    obtain rfl := Option.some.inj (hq.symm.trans hq')
    rw [ih hl hl']

theorem drop (h : Chain next p (l ++ l')) : ∃ q, Chain next q l' := by
  induction l generalizing p with
  | nil => exact ⟨p, h⟩
  | cons a l ih =>
    obtain ⟨-, q, -, hl⟩ := h
    exact ih hl

/-- A chain that comes back to a cell would never end. -/
theorem nodup (h : Chain next p l) : l.Nodup := by
  induction l generalizing p with
  | nil => exact List.nodup_nil
  | cons a l ih =>
    obtain ⟨rfl, q, hq, hl⟩ := h
    refine List.nodup_cons.2 ⟨fun ha => ?_, ih hl⟩
    obtain ⟨l₁, l₂, rfl⟩ := List.mem_iff_append.1 ha
    obtain ⟨r, hr⟩ := hl.drop
    obtain rfl : r = some a := hr.head_eq
    have hloop : Chain next (some a) (a :: (l₁ ++ a :: l₂)) := ⟨rfl, q, hq, hl⟩
    have hlen := congrArg List.length (hr.unique hloop)
    simp at hlen
    omega

theorem congr (h : Chain next p l) (hnext : ∀ a ∈ l, next' a = next a) : Chain next' p l := by
  induction l generalizing p with
  | nil => exact h
  | cons a l ih =>
    obtain ⟨rfl, q, hq, hl⟩ := h
    refine ⟨rfl, q, (hnext a List.mem_cons_self).trans hq, ih hl fun b hb => ?_⟩
    exact hnext b (List.mem_cons_of_mem a hb)

/-- The cells of a chain exist. -/
theorem exists_next (h : Chain next p l) (ha : a ∈ l) : ∃ q, next a = some q := by
  induction l generalizing p with
  | nil => cases ha
  | cons b l ih =>
    obtain ⟨rfl, q, hq, hl⟩ := h
    rcases List.mem_cons.1 ha with rfl | ha
    · exact ⟨q, hq⟩
    · exact ih hl ha

/-- A cell is pushed at the head. -/
theorem push (h : Chain next p l) (hnext : ∀ b ∈ l, next' b = next b) (ha : next' a = some p) :
    Chain next' (some a) (a :: l) :=
  ⟨rfl, p, ha, h.congr hnext⟩

/-- A cell is linked behind the last one. -/
theorem link (h : Chain next p (l ++ [t])) (hnext : ∀ b ∈ l, next' b = next b)
    (ht : next' t = some (some a)) (ha : next' a = some none) :
    Chain next' p (l ++ [t] ++ [a]) := by
  induction l generalizing p with
  | nil => exact ⟨h.1, some a, ht, rfl, none, ha, rfl⟩
  | cons b l ih =>
    obtain ⟨rfl, q, hq, hl⟩ := h
    refine ⟨rfl, q, (hnext b List.mem_cons_self).trans hq, ih hl fun c hc => ?_⟩
    exact hnext c (List.mem_cons_of_mem b hc)

end Chain

end Resman.Lib
