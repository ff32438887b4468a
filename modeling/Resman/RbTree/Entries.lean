import Resman.RbTree.Order

/-!
# Where entries come from

Facts about any tree, sorted and balanced or not: an entry that is in it after an operation was
there before or was put there by the operation. They need no comparison laws, so they also hold
where the red-black invariants are lost.
-/

namespace Resman.Rb

open RbNode

variable {K V : Type} {cmp : K → K → Int}

theorem mem_traverse_of_find {t : RbNode K V} {key : K} {v : V} (h : find cmp t key = some v) :
    ∃ k, (k, some v) ∈ traverse t := by
  induction t with
  | null => cases h
  | node a c k d l r ihl ihr =>
    rw [find] at h
    simp only [traverse, List.mem_append, List.mem_cons]
    split at h
    · exact ⟨k, .inr (.inl (by rw [h]))⟩
    · split at h
      · obtain ⟨k', hk'⟩ := ihl h
        exact ⟨k', .inl hk'⟩
      · obtain ⟨k', hk'⟩ := ihr h
        exact ⟨k', .inr (.inr hk')⟩

theorem mem_traverse_insert {alloc : Option Addr} {t t' : RbNode K V} {key : K} {data : Option V}
    (h : insert cmp alloc t key data = some t') {e : K × Option V} (he : e ∈ traverse t') :
    e ∈ traverse t ∨ e.2 = data := by
  induction t generalizing t' with
  | null =>
    cases alloc with
    | none => cases h
    | some a =>
      obtain rfl := Option.some.inj h
      simp only [traverse, List.nil_append, List.mem_singleton] at he
      exact .inr (by rw [he])
  | node a c k d l r ihl ihr =>
    rw [insert] at h
    simp only [traverse, List.mem_append, List.mem_cons]
    split at h
    · obtain ⟨l', hl', h⟩ := Option.bind_eq_some_iff.1 h
      rw [traverse_fixUp h] at he
      simp only [traverse, List.mem_append, List.mem_cons] at he
      rcases he with he | he | he
      · exact (ihl hl' he).imp .inl id
      · exact .inl (.inr (.inl he))
      · exact .inl (.inr (.inr he))
    · split at h
      · obtain ⟨r', hr', h⟩ := Option.bind_eq_some_iff.1 h
        rw [traverse_fixUp h] at he
        simp only [traverse, List.mem_append, List.mem_cons] at he
        rcases he with he | he | he
        · exact .inl (.inl he)
        · exact .inl (.inr (.inl he))
        · exact (ihr hr' he).imp (fun h => .inr (.inr h)) id
      · rw [traverse_fixUp h] at he
        simp only [traverse, List.mem_append, List.mem_cons] at he
        rcases he with he | he | he
        · exact .inl (.inl he)
        · exact .inr (by rw [he])
        · exact .inl (.inr (.inr he))

theorem findMin_mem {t : RbNode K V} {a : Addr} {c : Bool} {k : K} {d : Option V}
    {l r : RbNode K V} (h : findMin t = node a c k d l r) : (k, d) ∈ traverse t := by
  cases t with
  | null => cases h
  | node =>
    obtain ⟨a', c', k', d', l', r', hmin, hhead⟩ := findMin_head (node _ _ _ _ _ _) rfl
    obtain ⟨-, -, rfl, rfl, -, -⟩ := RbNode.node.inj (hmin.symm.trans h)
    rw [traverse_eq]
    exact List.mem_map.2 ⟨_, List.mem_of_mem_head? hhead, rfl⟩

/-- An entry of a subtree that was put back and fixed up. -/
theorem mem_traverse_putBack {put : RbNode K V → RbNode K V}
    {o : Option (RbNode K V × List (Call K V))} {p : RbNode K V × List (Call K V)}
    (h : o.bind (fixUpWith put) = some p) {e : K × Option V} (he : e ∈ traverse p.1) :
    ∃ q, o = some q ∧ e ∈ traverse (put q.1) := by
  obtain ⟨q, hq, hfix⟩ := Option.bind_eq_some_iff.1 h
  obtain ⟨u, hu, rfl⟩ := Option.map_eq_some_iff.1 hfix
  rw [traverse_fixUp hu] at he
  exact ⟨q, hq, he⟩

theorem mem_traverse_delMin {del : Bool} {t t' : RbNode K V} {calls : List (Call K V)}
    (h : delMin del t = some (t', calls)) {e : K × Option V} (he : e ∈ traverse t') :
    e ∈ traverse t := by
  induction hn : countNodes t using Nat.strong_induction_on generalizing t t' calls with
  | _ n ih =>
    cases t with
    | null => rw [delMin] at h; cases h
    | node a c k d l r =>
      rw [delMin_node] at h
      split at h
      · obtain ⟨rfl, -⟩ := Prod.mk.inj (Option.some.inj h)
        cases he
      · split at h
        · next a' c' k' d' l' r' hpush =>
          have hcount := countNodes_pushLeft hpush
          obtain ⟨⟨l'', calls'⟩, hl', he⟩ := mem_traverse_putBack h he
          rw [← traverse_pushLeft hpush]
          simp only [traverse, List.mem_append, List.mem_cons] at he ⊢
          refine he.imp_left fun he => ih _ ?_ hl' he rfl
          rw [← hn, ← hcount]
          simp only [countNodes]
          omega
        · cases h

theorem mem_traverse_delete [DecidableEq K] {del : Bool} {key : K} {t t' : RbNode K V}
    {calls : List (Call K V)} (h : delete cmp del t key = some (t', calls)) {e : K × Option V}
    (he : e ∈ traverse t') : e ∈ traverse t := by
  induction hn : countNodes t using Nat.strong_induction_on generalizing t t' calls with
  | _ n ih =>
    cases t with
    | null =>
      rw [delete] at h
      obtain ⟨rfl, -⟩ := Prod.mk.inj (Option.some.inj h)
      exact he
    | node a c k d l r =>
      rw [delete_node] at h
      split at h
      · split at h
        · next a' c' k' d' l' r' hpush =>
          have hcount := countNodes_pushLeft hpush
          obtain ⟨⟨l'', calls'⟩, hl', he⟩ := mem_traverse_putBack h he
          rw [← traverse_pushLeft hpush]
          simp only [traverse, List.mem_append, List.mem_cons] at he ⊢
          refine he.imp_left fun he => ih _ ?_ hl' he rfl
          rw [← hn, ← hcount]
          simp only [countNodes]
          omega
        · cases h
      · obtain ⟨t₁, hlean, h⟩ := Option.bind_eq_some_iff.1 h
        rw [← traverse_leanRight hlean]
        have hcount₁ := countNodes_leanRight hlean
        split at h
        · obtain ⟨rfl, -⟩ := Prod.mk.inj (Option.some.inj h)
          cases he
        · split at h
          · next a' c' k' d' l' r' hpush =>
            rw [← traverse_pushRight hpush]
            have hcount := countNodes_pushRight hpush
            simp only [traverse, List.mem_append, List.mem_cons]
            split at h
            · split at h
              · cases h
              · next am cm km dm lm rm hmin =>
                obtain ⟨⟨r'', calls'⟩, hr', he⟩ := mem_traverse_putBack h he
                simp only [traverse, List.mem_append, List.mem_cons] at he
                rcases he with he | he | he
                · exact .inl he
                · exact .inr (.inr (he ▸ findMin_mem hmin))
                · exact .inr (.inr (mem_traverse_delMin hr' he))
            · obtain ⟨⟨r'', calls'⟩, hr', he⟩ := mem_traverse_putBack h he
              simp only [traverse, List.mem_append, List.mem_cons] at he
              refine he.imp_right fun he => he.imp_right fun he => ih _ ?_ hr' he rfl
              rw [← hn, ← hcount₁, ← hcount]
              simp only [countNodes]
              omega
          · cases h

end Resman.Rb
