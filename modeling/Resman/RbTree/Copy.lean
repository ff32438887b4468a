import Resman.RbTree.Iterator

/-!
# `rb_copy`

`rb_copy` inserts the nodes that the iterator of `src` returns into `dest`, one after the other, and
stops when `rb_insert` returns -1. `iterator_of_run` says that the iterator and the traversal agree
and that the copy has the pairs of `src`.

`rb_insert` returns 0 and never -1: without memory for a new node `insert` writes through the null
pointer that it has got (`not_failsCleanly`), so the failure that `rb_copy` looks for does not
exist.
-/

namespace Resman.Rb

open RbNode
open Lib (At Gap WeakOrder exec Along)

variable {K V : Type}

/-- `rb_insert` with what it returns. -/
def rbInsertResult (rb : RbTree K V) (alloc : Option Addr) (key : K) (data : Option V) :
    Option (RbTree K V × Int) :=
  (rbInsert rb alloc key data).map (·, 0)

def rbInsertiResult (rb : RbTree (BitVec 64) V) (alloc : Option Addr) (key : BitVec 32)
    (data : Option V) :
    Option (RbTree (BitVec 64) V × Int) :=
  (rbInserti rb alloc key data).map (·, 0)

/-- The loop of `rb_copy`, for less than `fuel` nodes; `alloc i` is what the allocator returns to
the insertion in round `i`. -/
def copyLoop (alloc : Nat → Option Addr) :
    Nat → Nat → RbTree K V → IterTree K V → Option (RbTree K V × IterTree K V × Int)
  | 0, _, _, _ => none
  | fuel + 1, i, dest, src =>
    match rbNext src with
    | (null, src') => some (dest, src', 0)
    | (node _ _ k d _ _, src') =>
      (rbInsertResult dest (alloc i) k d).bind fun (dest', ret) =>
        if ret = -1 then some (dest', src', -1) else copyLoop alloc fuel (i + 1) dest' src'

def rbCopy (alloc : Nat → Option Addr) (fuel : Nat) (dest : RbTree K V) (src : IterTree K V) :
    Option (RbTree K V × IterTree K V × Int) :=
  copyLoop alloc fuel 0 (rbClear dest) (rbBegin src)

/-! ## Copying -/

variable {alloc : Nat → Option Addr} {fuel i : Nat} {dest dest' : RbTree K V}
  {src src' : IterTree K V} {L : List (Addr × K × Option V)}

theorem nextLoop_rb (rb : RbTree K V) (iter rstack : RbNode K V) (next : Addr → RbNode K V) :
    (nextLoop rb iter rstack next).2.rb = rb := by
  induction iter generalizing rstack next with
  | null => cases rstack <;> rfl
  | node a c k d l r ihl => exact ihl _ _

/-- The nodes still to come are after all that have been copied. -/
theorem copyLoop_enumerates (hL : Enumerates src L) (h : WeakWF dest)
    (hbefore : ∀ x ∈ nodes dest.root, ∀ y ∈ L, dest.cmp x.2.1 y.2.1 < 0)
    (hsorted : InOrder dest.cmp L) (halloc : ∀ i, (alloc i).isSome) (hfuel : L.length < fuel) :
    ∃ dest' src', copyLoop alloc fuel i dest src = some (dest', src', 0) ∧
      rbForeach dest' = rbForeach dest ++ L.map Prod.snd ∧ src'.rb = src.rb := by
  induction hL generalizing dest fuel i with
  | nil hnext =>
    obtain ⟨fuel, rfl⟩ : ∃ n, fuel = n + 1 := ⟨fuel - 1, by omega⟩
    exact ⟨dest, _, by rw [copyLoop, hnext], by simp, rfl⟩
  | @cons t t' u e L hnext hentry _ ih =>
    rw [List.length_cons] at hfuel
    obtain ⟨fuel, rfl⟩ : ∃ n, fuel = n + 1 := ⟨fuel - 1, by omega⟩
    obtain ⟨a, ha⟩ := Option.isSome_iff_exists.1 (halloc i)
    cases u with
    | null => cases hentry
    | node b c k d l r =>
      obtain rfl := Option.some.inj hentry
      have hgap : Gap (fun e => dest.cmp k e.2.1) (nodes dest.root) (nodes dest.root) [] :=
        ⟨(List.append_nil _).symm, fun x hx => h.order.swap.1 (hbefore x hx _ List.mem_cons_self),
          by simp⟩
      obtain ⟨root, hins, hnodes, hwf⟩ := rbInsert_gap h a d hgap
      obtain ⟨hk, hrest⟩ := List.pairwise_cons.1 hsorted
      have hbefore' : ∀ x ∈ nodes root, ∀ y ∈ L, dest.cmp x.2.1 y.2.1 < 0 := by
        intro x hx y hy
        rw [hnodes, List.mem_append, List.mem_singleton] at hx
        rcases hx with hx | rfl
        · exact hbefore x hx y (List.mem_cons_of_mem _ hy)
        · exact hk y hy
      obtain ⟨dest', src', hcopy, hforeach, hrb⟩ :=
        ih (i := i + 1) hwf hbefore' hrest (by omega : L.length < fuel)
      refine ⟨dest', src', ?_, ?_, hrb.trans ?_⟩
      · simp [copyLoop, hnext, rbInsertResult, ha, hins, hcopy]
      · rw [hforeach, rbForeach, rbForeach, traverse_eq, hnodes, traverse_eq, List.map_append,
          List.append_assoc]
        rfl
      · have hrb := nextLoop_rb t.rb t.iter t.rstack t.next
        rw [show nextLoop t.rb t.iter t.rstack t.next = _ from hnext] at hrb
        exact hrb

/-- **The copy** has the pairs of `src`, and the tree of `src` is as it was. -/
theorem rbCopy_spec {n : Nat} (hn : WeakWF src.rb) (hnodup : (addrs src.rb.root).Nodup)
    (hcmp : dest.cmp = src.rb.cmp) (halloc : ∀ i, (alloc i).isSome) (hfuel : rbSize src.rb < n) :
    ∃ dest' src', rbCopy alloc n dest src = some (dest', src', 0) ∧
      rbForeach dest' = rbForeach src.rb ∧
      src'.rb = src.rb := by
  have hempty : WeakWF (rbClear dest) := .create (hcmp ▸ hn.order) dest.del
  have hsorted : InOrder (rbClear dest).cmp (nodes src.rb.root) := by
    rw [show (rbClear dest).cmp = src.rb.cmp from hcmp]
    exact hn.sorted
  obtain ⟨dest', src', hcopy, hforeach, hrb⟩ :=
    copyLoop_enumerates (i := 0) (rbBegin_enumerates hnodup) hempty
    (fun x hx => by cases hx) hsorted halloc (by rwa [length_nodes])
  refine ⟨dest', src', hcopy, ?_, hrb⟩
  rw [hforeach, rbForeach, rbForeach, traverse_eq src.rb.root]
  rfl

/-- **The iterator and the traversal agree** in every tree that is reached, under any comparison and
whatever an earlier walk has left behind, and `rb_copy` into another tree with the same total order,
up to equivalence, copies the pairs. -/
theorem iterator_of_run [DecidableEq K] {cmp : K → K → Int} {del : Bool} {ops : List (RbOp K V)}
    {rb : RbTree K V} (hrun : exec rbStep ⟨null, cmp, del⟩ ops = some rb)
    (hfresh : Along rbStep FreshAlloc ⟨null, cmp, del⟩ ops) :
    rbForeach rb = (nodes rb.root).map Prod.snd ∧
      (∀ t : IterTree K V, t.rb = rb → Enumerates (rbBegin t) (nodes rb.root)) ∧
      (WeakOrder cmp → ∀ (dest : RbTree K V) (src : IterTree K V) (alloc : Nat →
        Option Addr) (fuel : Nat), dest.cmp = cmp → src.rb = rb → (∀ i, (alloc i).isSome) →
        rbSize rb < fuel →
        ∃ dest' src', rbCopy alloc fuel dest src = some (dest', src', 0) ∧
          rbForeach dest' = rbForeach rb ∧
          src'.rb = rb) := by
  have hnodup := run_nodup hrun hfresh
  refine ⟨traverse_eq _, ?_, ?_⟩
  · rintro t rfl
    exact rbBegin_enumerates hnodup
  · rintro hc dest src alloc fuel hdest rfl halloc hfuel
    obtain ⟨hwf, hcmp⟩ := run_weak hc hrun
    exact rbCopy_spec hwf hnodup (hdest.trans hcmp.symm) halloc hfuel

/-- A tree of three nodes. -/
theorem iterator_of_run_cmpaddr :
    ∃ rb, exec rbStep (⟨null, cmpaddr, false⟩ : RbTree (BitVec 64) Nat)
        [.insert 1 10 (some 100), .insert 2 30 none, .insert 3 20 (some 300)] = some rb ∧
      rbForeach rb = (nodes rb.root).map Prod.snd ∧
      (∀ t : IterTree (BitVec 64) Nat, t.rb = rb → Enumerates (rbBegin t) (nodes rb.root)) ∧
      (WeakOrder cmpaddr → ∀ (dest : RbTree (BitVec 64) Nat) (src : IterTree (BitVec 64) Nat)
        (alloc : Nat → Option Addr) (fuel : Nat), dest.cmp = cmpaddr → src.rb = rb →
        (∀ i, (alloc i).isSome) → rbSize rb < fuel →
        ∃ dest' src', rbCopy alloc fuel dest src = some (dest', src', 0) ∧
          rbForeach dest' = rbForeach rb ∧
          src'.rb = rb) := by
  have hrun : (exec rbStep (⟨null, cmpaddr, false⟩ : RbTree (BitVec 64) Nat)
      [.insert 1 10 (some 100), .insert 2 30 none, .insert 3 20 (some 300)]).isSome = true := by
    decide +kernel
  obtain ⟨rb, hrb⟩ := Option.isSome_iff_exists.1 hrun
  exact ⟨rb, hrb, iterator_of_run hrb (by decide +kernel)⟩

/-! ## Without memory -/

/-- The insertion into `rb` reports a failure and changes neither the stored
pairs nor the red-black shape. -/
def FailsCleanly (rb : RbTree K V) (result : Option (RbTree K V × Int)) : Prop :=
  ∃ rb', result = some (rb', -1) ∧ (∀ e, e ∈ rbForeach rb' ↔ e ∈ rbForeach rb) ∧
    (LeftLeaning rb.cmp rb.root → LeftLeaning rb'.cmp rb'.root)

/-- `rb_copy` has nothing to pass on. -/
theorem rbCopy_returns {ret : Int} (h : rbCopy alloc fuel dest src = some (dest', src', ret)) :
    ret = 0 := by
  have hloop : ∀ {fuel i dest src}, copyLoop alloc fuel i dest src = some (dest', src', ret) →
      ret = 0 := by
    intro fuel
    induction fuel with
    | zero => intro i dest src h; cases h
    | succ fuel ih =>
      intro i dest src h
      rw [copyLoop] at h
      split at h
      · obtain ⟨-, -, rfl⟩ : dest = dest' ∧ _ = src' ∧ (0 : Int) = ret := by simpa using h
        rfl
      · obtain ⟨⟨dest'', ret'⟩, hins, h⟩ := Option.bind_eq_some_iff.1 h
        obtain ⟨rb', -, heq⟩ := Option.map_eq_some_iff.1 hins
        obtain ⟨rfl, rfl⟩ := Prod.mk.inj heq
        exact ih (by simpa using h)
  exact hloop h

/-- **An insertion without memory never fails cleanly**: in every tree, reached or not, with any
comparison, the insertion of a new key dereferences the null pointer that the allocator returns, and
`rb_copy` never returns anything but 0. -/
theorem not_failsCleanly (rb : RbTree K V) {key : K} (data : Option V)
    (h : ∀ k ∈ keys rb.root, rb.cmp key k ≠ 0) :
    ¬ FailsCleanly rb (rbInsertResult rb none key data) ∧
      (∀ (rbi : RbTree (BitVec 64) V) (x : BitVec 32) (d : Option V),
        (∀ k ∈ keys rbi.root, rbi.cmp (int2ptr x) k ≠ 0) →
        ¬ FailsCleanly rbi (rbInsertiResult rbi none x d)) ∧
      ∀ (dest dest' : RbTree K V) (src src' : IterTree K V) (alloc : Nat → Option Addr)
        (fuel : Nat) (ret : Int), rbCopy alloc fuel dest src = some (dest', src', ret) →
        ret ≠ -1 := by
  refine ⟨?_, ?_, ?_⟩
  · rintro ⟨rb', hfail, -⟩
    rw [rbInsertResult, rbInsert_none data h] at hfail
    cases hfail
  · rintro rbi x d hx ⟨rb', hfail, -⟩
    rw [rbInsertiResult, rbInserti, rbInsert_none d hx] at hfail
    cases hfail
  · intro dest dest' src src' alloc fuel ret hcopy
    rw [rbCopy_returns hcopy]
    decide

/-- The key `20` below two others. -/
theorem not_failsCleanly_between :
    ¬ FailsCleanly
        (⟨node 2 false 30 none (node 1 true 10 (some 100) null null) null, cmpaddr, false⟩ :
        RbTree (BitVec 64) Nat) (rbInsertResult
          ⟨node 2 false 30 none (node 1 true 10 (some 100) null null) null, cmpaddr, false⟩
            none 20 none) ∧
      (∀ (rbi : RbTree (BitVec 64) Nat) (x : BitVec 32) (d : Option Nat),
        (∀ k ∈ keys rbi.root, rbi.cmp (int2ptr x) k ≠ 0) →
        ¬ FailsCleanly rbi (rbInsertiResult rbi none x d)) ∧
      ∀ (dest dest' : RbTree (BitVec 64) Nat) (src src' : IterTree (BitVec 64) Nat)
        (alloc : Nat → Option Addr) (fuel : Nat)
        (ret : Int), rbCopy alloc fuel dest src = some (dest', src', ret) → ret ≠ -1 :=
  not_failsCleanly _ none (by simp [keys, traverse, cmpaddr])

/-- The first insertion into an empty tree. -/
theorem not_failsCleanly_empty :
    ¬ FailsCleanly (rbCreate cmpaddr : RbTree (BitVec 64) Nat)
      (rbInsertResult (rbCreate cmpaddr) none 10 (some 100)) := by
  rintro ⟨rb', hfail, -⟩
  cases hfail

end Resman.Rb
