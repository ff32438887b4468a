import Mathlib.Data.Set.Card
import Resman.RbTree.RedBlack

/-!
# The tree is a finite map

The abstract map of a run is read off its operations: `stored ops k` is what the last operation on
`k` left under it. `entries_of_run` says that the in-order sequence of the tree is that map;
`finiteMap_of_run` draws the consequences for `rb_find`, `rb_size`, `rb_foreach` and for an
insertion of a key that is already stored.
-/

namespace Resman.Rb

open RbNode
open Lib (StrictTotal Sorted put exec Along exec_snoc_induction along_true)

variable {K V : Type} [DecidableEq K]

def RbOp.key : RbOp K V → K
  | .insert _ k _ => k
  | .delete k => k

/-- What a run leaves under a key: the data of the last operation on it if that is an insertion,
nothing if there is none or it is a deletion. -/
def stored (ops : List (RbOp K V)) (k : K) : Option (Option V) :=
  match (ops.filter fun op => op.key = k).getLast? with
  | some (.insert _ _ d) => some d
  | _ => none

theorem stored_snoc_insert (ops : List (RbOp K V)) (a : Addr) (key : K) (d : Option V) (k : K) :
    stored (ops ++ [.insert a key d]) k = if key = k then some d else stored ops k := by
  by_cases h : key = k <;> simp [stored, RbOp.key, h]

theorem stored_snoc_delete (ops : List (RbOp K V)) (key k : K) :
    stored (ops ++ [.delete key]) k = if key = k then none else stored ops k := by
  by_cases h : key = k <;> simp [stored, RbOp.key, h]

/-! ## Search -/

section Find

variable {cmp : K → K → Int} {t : RbNode K V} {k : K}

omit [DecidableEq K] in
theorem find_of_mem (hc : StrictTotal cmp) {d : Option V} (hs : Sorted cmp (traverse t))
    (h : (k, d) ∈ traverse t) : find cmp t k = d := by
  rw [traverse_eq, List.mem_map] at h
  obtain ⟨e, he, heq⟩ := h
  obtain ⟨rfl, rfl⟩ := Prod.mk.inj heq
  obtain ⟨xs, ys, hsplit⟩ := List.append_of_mem he
  exact find_at (hc.weak.at_of_split (f := fun e : Addr × K × Option V => e.2.1)
    (inOrder_iff.2 hs) hsplit)

omit [DecidableEq K] in
theorem find_of_not_mem (hc : StrictTotal cmp) (h : k ∉ keys t) : find cmp t k = none :=
  find_none fun e he hz => h (mem_keys_iff.2 ⟨e, he, (hc.eq_of_zero hz).symm⟩)

end Find

/-! ## Runs -/

/-- **The sequence of the tree is the abstract map of the run.** -/
theorem entries_of_run {cmp : K → K → Int} (hc : StrictTotal cmp) (del : Bool)
    {ops : List (RbOp K V)} {rb : RbTree K V} (hops : Along rbStep Allowed ⟨null, cmp, del⟩ ops)
    (hrb : exec rbStep ⟨null, cmp, del⟩ ops = some rb) :
    WF rb ∧ rb.cmp = cmp ∧ ∀ k d, (k, d) ∈ traverse rb.root ↔ stored ops k = some d := by
  refine exec_snoc_induction
    (P := fun ops rb => WF rb ∧ rb.cmp = cmp ∧
      ∀ k d, (k, d) ∈ traverse rb.root ↔ stored ops k = some d)
    ⟨WF.create hc del, rfl, by simp [traverse, stored]⟩ ?_ hops hrb
  rintro ops rb op rb' - ⟨hwf, rfl, hmap⟩ hop hstep
  cases op with
  | insert a key d =>
    obtain ⟨rb'', hins, hwf', hcmp, htrav⟩ := rbInsert_spec hwf a key d
    obtain rfl : rb'' = rb' := Option.some.inj (hins.symm.trans hstep)
    refine ⟨hwf', hcmp, fun k d' => ?_⟩
    rw [htrav, Lib.mem_put hwf.total, hmap, stored_snoc_insert]
    by_cases hk : key = k
    · simp [hk, eq_comm]
    · simp [hk, Ne.symm hk]
  | delete key =>
    obtain ⟨rb'', calls, hdel, hwf', hcmp, htrav⟩ := rbDelete_spec hwf hop.1 hop.2
    obtain rfl : rb'' = rb' := by simpa [rbStep, hdel] using hstep
    refine ⟨hwf', hcmp, fun k d' => ?_⟩
    rw [htrav, Lib.mem_del, hmap, stored_snoc_delete]
    by_cases hk : key = k
    · simp [hk]
    · simp [hk, Ne.symm hk]

/-- **The tree is a finite map.** After every run of insertions and allowed deletions, `rb_find`
returns what the run left under the key and null otherwise, `rb_size` is the number of keys with
something under them, `rb_foreach` visits exactly these entries in strictly increasing order of
keys, and inserting one of these keys again, whatever the allocator does, only replaces its data. -/
theorem finiteMap_of_run {cmp : K → K → Int} (hc : StrictTotal cmp) (del : Bool)
    {ops : List (RbOp K V)} (hops : Along rbStep Allowed ⟨null, cmp, del⟩ ops) :
    ∃ rb, exec rbStep ⟨null, cmp, del⟩ ops = some rb ∧
      (∀ k, rbFind rb k = (stored ops k).join) ∧
      rbSize rb = Set.ncard {k | stored ops k ≠ none} ∧
      (rbForeach rb).Pairwise (fun e e' => cmp e.1 e'.1 < 0) ∧
      (∀ k d, (k, d) ∈ rbForeach rb ↔ stored ops k = some d) ∧
      ∀ alloc k d, stored ops k ≠ none →
        rbInsert rb alloc k d = some { rb with root := setData k d rb.root } := by
  obtain ⟨rb, hrb, -, -⟩ := run_wf hc del hops
  obtain ⟨hwf, rfl, hmap⟩ := entries_of_run hc del hops hrb
  have hkeys : ∀ k, k ∈ keys rb.root ↔ stored ops k ≠ none := by
    intro k
    rw [mem_keys, Option.ne_none_iff_exists']
    exact exists_congr fun d => hmap k d
  refine ⟨rb, hrb, fun k => ?_, ?_, hwf.sorted, hmap, fun alloc k d hk => ?_⟩
  · cases hst : stored ops k with
    | none => exact find_of_not_mem hc (by rw [hkeys, hst]; simp)
    | some d => exact find_of_mem hc hwf.sorted ((hmap k d).2 hst)
  · have hset : {k | stored ops k ≠ none} = ((keys rb.root).toFinset : Set K) := by
      ext k
      simp [hkeys]
    have hnodup : (keys rb.root).Nodup := hwf.sorted.nodup_keys hc
    rw [hset, Set.ncard_coe_finset, List.toFinset_card_of_nodup hnodup, keys, List.length_map,
      length_traverse]
    rfl
  · obtain ⟨xs, e, ys, rfl, hat⟩ := hwf.at_of_mem ((hkeys k).2 hk)
    exact (rbInsert_at hwf.weak alloc d hat).1

/-- Integer keys: the key `3` is inserted twice, and `7` is inserted and deleted. -/
theorem finiteMap_of_run_cmpint :
    let ops : List (RbOp NonnegKey Nat) :=
      [.insert 1 (.ofInt 7 (by decide)) (some 100), .insert 2 (.ofInt 3 (by decide)) none,
        .insert 3 (.ofInt 3 (by decide)) (some 300), .delete (.ofInt 7 (by decide))]
    ∃ rb, exec rbStep ⟨null, fun a b => cmpint a.1 b.1, false⟩ ops = some rb ∧
      (∀ k, rbFind rb k = (stored ops k).join) ∧
      rbSize rb = Set.ncard {k | stored ops k ≠ none} ∧
      (rbForeach rb).Pairwise (fun e e' => cmpint e.1.1 e'.1.1 < 0) ∧
      (∀ k d, (k, d) ∈ rbForeach rb ↔ stored ops k = some d) ∧
      ∀ alloc k d, stored ops k ≠ none →
        rbInsert rb alloc k d = some { rb with root := setData k d rb.root } :=
  finiteMap_of_run NonnegKey.cmpint_strictTotal false (by decide +kernel)

end Resman.Rb
