import Resman.RbTree.Order
import Resman.RbTree.Search

/-!
# What `insert` returns

A new node goes where the search for its key ends, whatever the comparison is: `insert_gap` puts it
there and keeps the left-leaning shape. A key that compares equal to the node that its search ends
at only replaces the data of that node, which keeps its own key pointer (`insert_at`): nothing is
allocated, moved or recoloured.
-/

namespace Resman.Rb

open RbNode
open Lib (At)

variable {K V : Type} {cmp : K → K → Int} {alloc : Option Addr} {t : RbNode K V}
  {c : Bool} {n : Nat} {key : K} {data : Option V} {xs ys : List (Addr × K × Option V)}
  {e : Addr × K × Option V}

section Equations

variable {a : Addr} {k : K} {d : Option V} {l r l' r' : RbNode K V}

theorem insert_lt (h : cmp key k < 0) (hins : insert cmp alloc l key data = some l') :
    insert cmp alloc (node a c k d l r) key data = fixUp (node a c k d l' r) := by
  rw [insert, if_pos h, hins, Option.bind_some]

theorem insert_gt (h : 0 < cmp key k) (hins : insert cmp alloc r key data = some r') :
    insert cmp alloc (node a c k d l r) key data = fixUp (node a c k d l r') := by
  rw [insert, if_neg (by omega), if_pos h, hins, Option.bind_some]

theorem insert_eq (h : cmp key k = 0) :
    insert cmp alloc (node a c k d l r) key data = fixUp (node a c k data l r) := by
  rw [insert, if_neg (by omega), if_neg (by omega)]

end Equations

/-- Two comparisons that agree along the path insert in the same way. -/
theorem insert_congr {cmp' : K → K → Int} (alloc : Option Addr) (data : Option V)
    (h : OnPath cmp key (fun k => cmp key k = cmp' key k) t) :
    insert cmp alloc t key data = insert cmp' alloc t key data := by
  induction t with
  | null => rfl
  | node a c k d l r ihl ihr =>
    obtain ⟨hk, hrest⟩ := h
    rw [insert, insert, ← hk]
    rcases Int.lt_trichotomy (cmp key k) 0 with hlt | hz | hgt
    · rw [if_pos hlt] at hrest
      rw [if_pos hlt, if_pos hlt, ihl hrest]
    · rw [if_neg (by omega), if_neg (by omega), if_neg (by omega), if_neg (by omega)]
    · rw [if_neg (by omega), if_pos hgt] at hrest
      rw [if_neg (by omega), if_pos hgt, if_neg (by omega), if_pos hgt, ihr hrest]

/-! ## A new key -/

/-- **A new key** is put where its search ends. -/
theorem insert_gap (a : Addr) (data : Option V) (ht : LL t c n) (h : SearchGap cmp key t xs ys) :
    ∃ t', insert cmp (some a) t key data = some t' ∧ nodes t' = xs ++ (a, key, data) :: ys ∧
      ((∃ c', LL t' c' n) ∨ (c = true ∧ RedRed t' n)) := by
  induction ht generalizing xs ys with
  | leaf =>
    cases h
    exact ⟨_, rfl, rfl, Or.inl ⟨true, .red .leaf .leaf⟩⟩
  | @red a₀ k d l r n hl hr ihl ihr =>
    cases h with
    | left hlt hgap =>
      obtain ⟨l', hins, hnodes, hshape⟩ := ihl hgap
      obtain ⟨c', hl'⟩ := hshape.resolve_right (by simp)
      have hf : fixUp (node a₀ true k d l' r) = some (node a₀ true k d l' r) :=
        fixUp_id hr.isRed_eq hl'.redLeftLeft
      refine ⟨_, (insert_lt hlt hins).trans hf, by simp [nodes_node, hnodes], ?_⟩
      cases c' with
      | false => exact Or.inl ⟨true, .red hl' hr⟩
      | true => exact Or.inr ⟨rfl, .mk hl' hr⟩
    | right hgt hgap =>
      obtain ⟨r', hins, hnodes, hshape⟩ := ihr hgap
      obtain ⟨c', hr'⟩ := hshape.resolve_right (by simp)
      cases c' with
      | false =>
        exact ⟨_, (insert_gt hgt hins).trans (fixUp_red hl hr'), by simp [nodes_node, hnodes],
          Or.inl ⟨true, .red hl hr'⟩⟩
      | true =>
        obtain ⟨b, kb, db, lb, rb, -, hlb, hrb, hf⟩ := fixUp_rotate (a := a₀) (c := true) (k := k)
          (d := d) hl hr'
        refine ⟨_, (insert_gt hgt hins).trans hf, ?_, Or.inr ⟨rfl, .mk (.red hl hlb) hrb⟩⟩
        rw [nodes_fixUp hf, nodes_node, hnodes, List.append_assoc, List.cons_append]
  | @black a₀ k d l r cl n hl hr ihl ihr =>
    cases h with
    | left hlt hgap =>
      obtain ⟨l', hins, hnodes, hshape⟩ := ihl hgap
      have hfix : ∃ t' c', fixUp (node a₀ false k d l' r) = some t' ∧ LL t' c' (n + 1) := by
        rcases hshape with ⟨c', hl'⟩ | ⟨-, hl'⟩
        · obtain ⟨t', c'', hf, ht', -⟩ := fixUp_black (a := a₀) (k := k) (d := d) hl' hr
          exact ⟨t', c'', hf, ht'⟩
        · obtain ⟨t', hf, ht'⟩ := fixUp_redRed (a := a₀) (k := k) (d := d) hl' hr
          exact ⟨t', true, hf, ht'⟩
      obtain ⟨t', c'', hf, ht'⟩ := hfix
      refine ⟨t', (insert_lt hlt hins).trans hf, ?_, Or.inl ⟨c'', ht'⟩⟩
      rw [nodes_fixUp hf, nodes_node, hnodes, List.append_assoc, List.cons_append]
    | right hgt hgap =>
      obtain ⟨r', hins, hnodes, hshape⟩ := ihr hgap
      obtain ⟨c', hr'⟩ := hshape.resolve_right (by simp)
      obtain ⟨t', c'', hf, ht', -⟩ := fixUp_black (a := a₀) (k := k) (d := d) hl hr'
      refine ⟨t', (insert_gt hgt hins).trans hf, ?_, Or.inl ⟨c'', ht'⟩⟩
      rw [nodes_fixUp hf, nodes_node, hnodes, List.append_assoc, List.cons_append]

/-- Without memory for the new node, it is written through a null pointer. -/
theorem insert_gap_none (data : Option V) (h : SearchGap cmp key t xs ys) :
    insert cmp none t key data = none := by
  induction h with
  | null => rfl
  | left hlt _ ih => rw [insert, if_pos hlt, ih, Option.bind_none]
  | right hgt _ ih => rw [insert, if_neg (by omega), if_pos hgt, ih, Option.bind_none]

/-! ## A stored key -/

/-- The tree with `data` at the node that the search ends at. -/
def setAt (cmp : K → K → Int) (key : K) (data : Option V) : RbNode K V → RbNode K V
  | null => null
  | node a c k d l r =>
    if cmp key k < 0 then node a c k d (setAt cmp key data l) r
    else if 0 < cmp key k then node a c k d l (setAt cmp key data r)
    else node a c k data l r

theorem LL.setAt (h : LL t c n) (cmp : K → K → Int) (key : K) (data : Option V) :
    LL (Rb.setAt cmp key data t) c n := by
  induction h with
  | leaf => exact .leaf
  | red hl hr ihl ihr =>
    rw [Rb.setAt]
    split
    · exact .red ihl hr
    · split
      · exact .red hl ihr
      · exact .red hl hr
  | black hl hr ihl ihr =>
    rw [Rb.setAt]
    split
    · exact .black ihl hr
    · split
      · exact .black hl ihr
      · exact .black hl hr

theorem nodes_setAt (data : Option V) (h : SearchAt cmp key t xs e ys) :
    nodes (setAt cmp key data t) = xs ++ (e.1, e.2.1, data) :: ys := by
  induction h with
  | here hz => rw [setAt, if_neg (by omega), if_neg (by omega), nodes_node]
  | left hlt _ ih => rw [setAt, if_pos hlt, nodes_node, ih, List.append_assoc, List.cons_append]
  | right hgt _ ih =>
    rw [setAt, if_neg (by omega), if_pos hgt, nodes_node, ih, List.append_assoc, List.cons_append]

/-- **A stored key** has its data replaced. -/
theorem insert_at (alloc : Option Addr) (data : Option V) (ht : LL t c n)
    (h : SearchAt cmp key t xs e ys) :
    insert cmp alloc t key data = some (setAt cmp key data t) := by
  have hfix : ∀ {a c k d} {l r : RbNode K V} {cl n}, LL l cl n → LL r false n →
      fixUp (node a c k d l r) = some (node a c k d l r) :=
    fun hl hr => fixUp_id hr.isRed_eq hl.redLeftLeft
  induction h generalizing c n with
  | here hz =>
    rw [insert_eq hz, setAt, if_neg (by omega), if_neg (by omega)]
    cases ht with
    | red hl hr => exact hfix hl hr
    | black hl hr => exact hfix hl hr
  | left hlt _ ih =>
    rw [setAt, if_pos hlt]
    cases ht with
    | red hl hr => exact (insert_lt hlt (ih hl)).trans (hfix (hl.setAt cmp key data) hr)
    | black hl hr => exact (insert_lt hlt (ih hl)).trans (hfix (hl.setAt cmp key data) hr)
  | right hgt _ ih =>
    rw [setAt, if_neg (by omega), if_pos hgt]
    cases ht with
    | red hl hr => exact (insert_gt hgt (ih hr)).trans (hfix hl (hr.setAt cmp key data))
    | black hl hr => exact (insert_gt hgt (ih hr)).trans (hfix hl (hr.setAt cmp key data))

/-! ## Data by key -/

/-- Only the node that the search ends at has its key. -/
theorem key_ne_of_at (h : At (fun e => cmp key e.2.1) (nodes t) xs e ys) (e' : Addr × K × Option V)
    (he : e' ∈ xs ∨ e' ∈ ys) : e'.2.1 ≠ e.2.1 := by
  intro hk
  have hz : cmp key e'.2.1 = 0 := by rw [hk, h.equal]
  rcases he with he | he
  · exact absurd (h.before e' he) (by omega)
  · exact absurd (h.after e' he) (by omega)

section Stored

variable [DecidableEq K]

/-- The same nodes with `data` stored wherever the key is `key`. -/
def setData (key : K) (data : Option V) : RbNode K V → RbNode K V
  | null => null
  | node a c k d l r =>
    node a c k (if k = key then data else d) (setData key data l) (setData key data r)

theorem setData_of_not_mem {t : RbNode K V} (h : ∀ e ∈ nodes t, e.2.1 ≠ key) :
    setData key data t = t := by
  induction t with
  | null => rfl
  | node a c k d l r ihl ihr =>
    rw [nodes_node] at h
    have hk : k ≠ key := h (a, k, d) (by simp)
    rw [setData, if_neg hk, ihl fun e he => h e (by simp [he]), ihr fun e he => h e (by simp [he])]

/-- In a tree in order, that node is the only one with its key. -/
theorem setAt_eq_setData (h : At (fun e => cmp key e.2.1) (nodes t) xs e ys) :
    setAt cmp key data t = setData e.2.1 data t := by
  induction t generalizing xs ys with
  | null => rfl
  | node a c k d l r ihl ihr =>
    rw [setAt, setData]
    rcases Int.lt_trichotomy (cmp key k) 0 with hlt | hz | hgt
    · obtain ⟨zs, rfl, hat⟩ := h.of_neg (m := (a, k, d)) hlt
      rw [if_pos hlt, ihl hat, if_neg (key_ne_of_at h (a, k, d) (by simp)),
        setData_of_not_mem (t := r) fun e' he' => key_ne_of_at h e' (by simp [he'])]
    · obtain ⟨rfl, rfl, rfl⟩ := h.of_zero (m := (a, k, d)) hz
      rw [if_neg (by omega), if_neg (by omega), if_pos rfl,
        setData_of_not_mem (t := l) fun e' he' => key_ne_of_at h e' (.inl he'),
        setData_of_not_mem (t := r) fun e' he' => key_ne_of_at h e' (.inr he')]
    · obtain ⟨zs, rfl, hat⟩ := h.of_pos (m := (a, k, d)) hgt
      rw [if_neg (by omega), if_pos hgt, ihr hat, if_neg (key_ne_of_at h (a, k, d) (by simp)),
        setData_of_not_mem (t := l) fun e' he' => key_ne_of_at h e' (by simp [he'])]

end Stored

end Resman.Rb
