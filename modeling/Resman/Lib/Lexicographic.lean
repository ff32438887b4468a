import Resman.Lib.SortedAssoc

/-!
# Lexicographic comparison

`lexCompare cmp` compares two lists by their first difference, a list being before its extensions.
It is a strict total order when `cmp` is one (`lexCompare_strictTotal`).
-/

namespace Resman.Lib

variable {A : Type*}

def lexCompare (cmp : A → A → Int) : List A → List A → Int
  | [], [] => 0
  | [], _ :: _ => -1
  | _ :: _, [] => 1
  | a :: as, b :: bs => if cmp a b = 0 then lexCompare cmp as bs else cmp a b

section StrictTotal

variable {cmp : A → A → Int} {a b : A} {as bs cs : List A}

theorem lexCompare_cons_lt :
    lexCompare cmp (a :: as) (b :: bs) < 0 ↔ cmp a b < 0 ∨ cmp a b = 0 ∧
      lexCompare cmp as bs < 0 := by
  rw [lexCompare]
  split
  · next h => simp [h]
  · next h => simp [h]

theorem lexCompare_cons_gt :
    0 < lexCompare cmp (a :: as) (b :: bs) ↔ 0 < cmp a b ∨ cmp a b = 0 ∧
      0 < lexCompare cmp as bs := by
  rw [lexCompare]
  split
  · next h => simp [h]
  · next h => simp [h]

theorem lexCompare_swap (hc : StrictTotal cmp) : ∀ as bs : List A,
    lexCompare cmp as bs < 0 ↔ 0 < lexCompare cmp bs as
  | [], [] => by simp [lexCompare]
  | [], _ :: _ => by simp [lexCompare]
  | _ :: _, [] => by simp [lexCompare]
  | a :: as, b :: bs => by
    have hzero : cmp a b = 0 ↔ cmp b a = 0 :=
      ⟨fun h => hc.eq_of_zero h ▸ hc.self a, fun h => hc.eq_of_zero h ▸ hc.self b⟩
    rw [lexCompare_cons_lt, lexCompare_cons_gt, hc.swap, hzero, lexCompare_swap hc as bs]

theorem lexCompare_trans (hc : StrictTotal cmp) : ∀ {as bs cs : List A},
    lexCompare cmp as bs < 0 → lexCompare cmp bs cs < 0 → lexCompare cmp as cs < 0
  | [], [], _, h, _ => by simp [lexCompare] at h
  | _ :: _, [], _, h, _ => by simp [lexCompare] at h
  | _, _ :: _, [], _, h => by simp [lexCompare] at h
  | [], _ :: _, _ :: _, _, _ => by simp [lexCompare]
  | a :: as, b :: bs, c :: cs, hab, hbc => by
    rw [lexCompare_cons_lt] at hab hbc ⊢
    rcases hab with hab | ⟨hab, hab'⟩
    · rcases hbc with hbc | ⟨hbc, -⟩
      · exact Or.inl (hc.trans hab hbc)
      · exact Or.inl (hc.eq_of_zero hbc ▸ hab)
    · obtain rfl := hc.eq_of_zero hab
      exact hbc.imp_right fun h => ⟨h.1, lexCompare_trans hc hab' h.2⟩

theorem lexCompare_strictTotal (hc : StrictTotal cmp) : StrictTotal (lexCompare cmp) where
  eq_of_zero {as bs} h := by
    induction as generalizing bs with
    | nil =>
      cases bs with
      | nil => rfl
      | cons => simp [lexCompare] at h
    | cons a as ih =>
      cases bs with
      | nil => simp [lexCompare] at h
      | cons b bs =>
        rw [lexCompare] at h
        split at h
        · next hab => rw [hc.eq_of_zero hab, ih h]
        · next hab => exact absurd h hab
  self as := by
    induction as with
    | nil => rfl
    | cons a as ih => simp [lexCompare, hc.self, ih]
  swap {as bs} := lexCompare_swap hc as bs
  trans := lexCompare_trans hc

end StrictTotal

end Resman.Lib
