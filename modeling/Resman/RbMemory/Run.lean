import Resman.RbMemory.Exported

/-!
# Runs in memory

Trees are built and torn down in a memory that holds other things as well. `memStep` is a call of
`rb_insert`, `rb_delete` or `rb_clear` on a tree in memory, `treeStep` the same call on the tree as
a value.

`run_refines` puts the two in lockstep: whatever is in memory at the start, a run of calls goes
wrong in memory exactly when it goes wrong on the value, and otherwise the value stands in memory at
its end, with the same calls of the delete function and of `free` made, and nothing written to what
was in use before. `rbDestroy_leaks` draws up the account: what the tree has dropped without freeing
it is what is left.
-/

namespace Resman.RbMem

open Lib
open Rb (Addr addrs nodes)

variable {K V : Type} {h : Heap K V} {p : Option Addr} {t : Rb.RbNode K V} {fuel : Nat}
  {tr : Rb.RbTree K V}

/-- A call of `rb_insert` (with what `malloc` returns if it is called),
`rb_delete` or `rb_clear`. -/
inductive Op (K V : Type) where
  | insert (new : Option NewNode) (key : K) (data : Option V)
  | delete (key : K)
  | clear

/-- A tree and the calls of its delete function and of `free` so far. -/
structure Traced (K V : Type) where
  rb : Rb.RbTree K V
  calls : List (Rb.Call K V)

/-- Memory with a tree in it, and the calls so far. -/
structure Mem (K V : Type) where
  heap : Heap K V
  rb : RbTree K V
  calls : List (Rb.Call K V)

/-- A new tree. -/
def Traced.start (cmp : K → K → Int) (del : Bool) : Traced K V := ⟨⟨.null, cmp, del⟩, []⟩

/-- A new tree in memory. -/
def Mem.start (h₀ : Heap K V) (cmp : K → K → Int) (del : Bool) : Mem K V :=
  ⟨h₀, rbSetDeleteFunc (rbCreate cmp) del, []⟩

section Steps

variable [DecidableEq K]

def treeStep (s : Traced K V) : Op K V → Option (Traced K V)
  | .insert new key data => (Rb.rbInsert s.rb (new.map NewNode.addr) key data).map (⟨·, s.calls⟩)
  | .delete key => (Rb.rbDelete s.rb key).map fun x => ⟨x.1, s.calls ++ x.2⟩
  | .clear => some ⟨Rb.rbClear s.rb, s.calls ++ tornDown s.rb.del (Rb.delTree s.rb.root)⟩

def memStep (fuel : Nat) (s : Mem K V) : Op K V → Option (Mem K V)
  | .insert new key data =>
    (rbInsert fuel s.heap s.rb new key data).map fun y => ⟨y.1, y.2, s.calls⟩
  | .delete key => (rbDelete fuel s.heap s.rb key).map fun y => ⟨y.1, y.2.1, s.calls ++ y.2.2⟩
  | .clear => (rbClear fuel s.heap s.rb).map fun y => ⟨y.1, y.2.1, s.calls ++ y.2.2⟩

/-- `malloc` returns nothing that is in use. -/
def FreshMalloc (s : Mem K V) : Op K V → Prop
  | .insert new _ _ => Fresh s.heap new
  | _ => True

instance (s : Mem K V) : ∀ op, Decidable (FreshMalloc s op)
  | .insert none _ _ => isTrue fun _ h => by cases h
  | .insert (some n) _ _ =>
    decidable_of_iff ((s.heap n.addr).isNone = true) (by simp [FreshMalloc, Fresh])
  | .delete _ | .clear => isTrue trivial

end Steps

/-- The call `free(0)`. -/
def freesNull : Rb.Call K V → Bool
  | .free none => true
  | _ => false

/-- The value and the memory after the same calls, with `n` calls to come: the value stands in
memory, and beside its nodes only those are in use that were in use at the start, and those dropped
without being freed. -/
structure Related (fuel : Nat) (h₀ : Heap K V) (n : Nat) (s : Traced K V) (m : Mem K V) : Prop where
  same : SameTree m.heap m.rb s.rb
  calls : m.calls = s.calls
  shape : ∃ n, Rb.LL s.rb.root false n
  size : Rb.rbSize s.rb + n < fuel
  ledger : ∃ lost, Allocated (addrs s.rb.root ++ lost) h₀ m.heap ∧
    lost.length = s.calls.countP freesNull

/-! ## One call -/

/-- What an insertion does to the nodes of a tree: it has at most one more. -/
theorem rbInsert_grows {n : Nat} (hn : Rb.LL tr.root false n) {alloc : Option Addr}
    {key : K} {data : Option V} {tr' : Rb.RbTree K V}
    (hins : Rb.rbInsert tr alloc key data = some tr') :
    (∃ n, Rb.LL tr'.root false n) ∧ ∃ L :
    List Addr, L.length ≤ 1 ∧ (addrs tr'.root).Perm (L ++ addrs tr.root) := by
  rcases Rb.search_cases tr.cmp key tr.root with ⟨xs, e, ys, hat⟩ | ⟨xs, ys, hgap⟩
  · obtain rfl := Option.some.inj ((Rb.rbInsert_stored hn alloc data hat).symm.trans hins)
    refine ⟨⟨n, hn.setAt ..⟩, [], Nat.zero_le _, ?_⟩
    simp [addrs, Rb.nodes_setAt data hat, hat.split]
  · cases alloc with
    | none =>
      rw [Rb.rbInsert, Rb.insert_gap_none data hgap] at hins
      cases hins
    | some a =>
      obtain ⟨root, n', hins', hnodes, hn'⟩ := Rb.rbInsert_new hn a data hgap
      obtain rfl := Option.some.inj (hins'.symm.trans hins)
      refine ⟨⟨n', hn'⟩, [a], Nat.le_refl 1, ?_⟩
      rw [addrs, addrs, hnodes, hgap.split, List.map_append, List.map_cons, List.map_append]
      exact List.perm_middle

/-- What a deletion does to the nodes of a tree: one goes, and either it is freed or null is. -/
theorem rbDelete_drops [DecidableEq K] {n : Nat} (hn : Rb.LL tr.root false n) {key : K}
    {tr' : Rb.RbTree K V} {calls : List (Rb.Call K V)}
    (hdel : Rb.rbDelete tr key = some (tr', calls)) :
    (∃ n, Rb.LL tr'.root false n) ∧ ∃ a, (addrs tr.root).Perm (a :: addrs tr'.root) ∧
      (calls.countP freesNull = 0 ∧ .free (some a) ∈ calls ∨
        calls.countP freesNull = 1 ∧ .free (some a) ∉ calls) := by
  have h2 : 2 ≤ Rb.rbSize tr := by
    by_contra h2
    rw [Rb.rbDelete_last (by omega)] at hdel
    cases hdel
  obtain ⟨hends, hshape⟩ := Rb.rbDelete_ends hn h2 key
  refine ⟨(hshape tr' calls hdel).2, ?_⟩
  rw [hdel, Option.map_some] at hends
  generalize ho : some (nodes tr'.root, calls) = o at hends
  generalize Rb.ending tr.cmp tr.root key = b at hends
  cases hends with
  | @bottom xs e ys hsplit =>
    obtain ⟨hnodes, rfl⟩ := Prod.mk.inj (Option.some.inj ho)
    refine ⟨e.1, ?_, .inl ?_⟩
    · rw [addrs, addrs, hsplit, hnodes, List.map_append, List.map_cons, List.map_append]
      exact List.perm_middle
    · cases tr.del <;> simp [Rb.released, freesNull]
  | @inner xs e m ys hsplit =>
    obtain ⟨hnodes, rfl⟩ := Prod.mk.inj (Option.some.inj ho)
    refine ⟨m.1, ?_, .inr ?_⟩
    · simp only [addrs, hsplit, hnodes, List.map_append, List.map_cons]
      exact ((List.Perm.swap ..).append_left _).trans List.perm_middle
    · cases tr.del <;> simp [Rb.released, freesNull]
  | lost => cases ho

theorem length_addrs (t : Rb.RbNode K V) : (addrs t).length = Rb.countNodes t := by
  rw [addrs, List.length_map, Rb.length_nodes]

section Steps

variable {n : Nat} {h₀ : Heap K V} {s : Traced K V} {m : Mem K V}

theorem Related.insert (hr : Related fuel h₀ (n + 1) s m) {new : Option NewNode}
    (hnew : Fresh m.heap new) (key : K) (data : Option V) :
    Option.Rel (Related fuel h₀ n)
      ((Rb.rbInsert s.rb (new.map NewNode.addr) key data).map (⟨·, s.calls⟩))
      ((rbInsert fuel m.heap m.rb new key data).map fun y => ⟨y.1, y.2, m.calls⟩) := by
  obtain ⟨k, hk⟩ := hr.shape
  obtain ⟨lost, hled, hlost⟩ := hr.ledger
  have hsize := hr.size
  have hfuel : Rb.rbSize s.rb < fuel := by omega
  have hsim := rel_mono_of_eq (rbInsert_sim hr.same hnew hfuel key data)
    fun tr y heq _ hi => And.intro heq hi
  refine rel_map hsim fun tr y ⟨heq, hsame, hi⟩ => ?_
  obtain ⟨hshape, L, hL, hperm⟩ := rbInsert_grows hk heq
  have hlen := hperm.length_eq
  simp only [List.length_append, length_addrs] at hlen
  obtain ⟨-, hlostNodup, hdis⟩ := List.nodup_append.1 hled.nodup
  -- a node that has been dropped is still in use, so it is not the new one
  have hnot : ∀ a ∈ lost, a ∉ addrs tr.root := by
    intro a ha
    obtain ⟨x, hx⟩ := Option.ne_none_iff_exists'.1 (hled.used a (List.mem_append_right _ ha))
    exact hi.not_mem (hnew.not_mem hx) fun hat => hdis a hat a ha rfl
  have hsub : ∀ a ∈ addrs s.rb.root, a ∈ addrs tr.root := fun a ha =>
    hperm.mem_iff.2 (List.mem_append_right _ ha)
  refine ⟨hsame, hr.calls, hshape, ?_, lost, hled.step ?_ ?_ ?_ ?_ ?_, hlost⟩
  · simp only [Rb.rbSize] at hsize ⊢
    omega
  · exact List.nodup_append.2
      ⟨hsame.represents.nodup, hlostNodup, fun a ha b hb heq => hnot b hb (heq ▸ ha)⟩
  · intro a ha hna
    rw [List.mem_append, not_or] at hna
    have hat := (List.mem_append.1 ha).resolve_right hna.2
    obtain ⟨x, hx, rfl⟩ := Option.map_eq_some_iff.1
      (Option.mem_toList.1 ((List.mem_append.1 (hi.subset hat)).resolve_right hna.1))
    exact hnew x hx
  · intro a ha
    rcases List.mem_append.1 ha with ha | ha
    · exact hsame.represents.used ha
    · exact ne_of_eq_of_ne (hi.steps.frame a (hnot a ha)) (hled.used a (List.mem_append_right _ ha))
  · intro a ha hna
    rw [List.mem_append, not_or] at hna
    exact absurd ((List.mem_append.1 ha).resolve_right hna.2) fun hat => hna.1 (hsub a hat)
  · intro a _ hna
    exact hi.steps.frame a fun hat => hna (List.mem_append_left _ hat)

theorem Related.delete [DecidableEq K] (hr : Related fuel h₀ (n + 1) s m) (key : K) :
    Option.Rel (Related fuel h₀ n) ((Rb.rbDelete s.rb key).map fun x => ⟨x.1, s.calls ++ x.2⟩)
      ((rbDelete fuel m.heap m.rb key).map fun y => ⟨y.1, y.2.1, m.calls ++ y.2.2⟩) := by
  obtain ⟨k, hk⟩ := hr.shape
  obtain ⟨lost, hled, hlost⟩ := hr.ledger
  have hsize := hr.size
  have hfuel : Rb.rbSize s.rb < fuel := by omega
  have hsim := rel_mono_of_eq (rbDelete_sim hr.same hfuel key) fun x y heq _ hd => And.intro heq hd
  refine rel_map hsim fun ⟨tr, calls⟩ y ⟨heq, hsame, hd⟩ => ?_
  obtain ⟨hshape, a, hperm, hcalls⟩ := rbDelete_drops hk heq
  have hlen := hperm.length_eq
  simp only [List.length_cons, length_addrs] at hlen
  obtain ⟨hold, hlostNodup, hdis⟩ := List.nodup_append.1 hled.nodup
  obtain ⟨hat, -⟩ := List.nodup_cons.1 (hperm.nodup_iff.1 hold)
  have ha : a ∈ addrs s.rb.root := hperm.mem_iff.2 List.mem_cons_self
  have hsub : ∀ b ∈ addrs tr.root, b ∈ addrs s.rb.root := fun b hb =>
    hperm.mem_iff.2 (List.mem_cons_of_mem _ hb)
  have hsettled := hd.settled a ha hat
  have hnewCalls : m.calls ++ y.2.2 = s.calls ++ calls := by rw [hr.calls, hd.calls]
  have hsize' : Rb.rbSize tr + n < fuel := by
    simp only [Rb.rbSize] at hsize ⊢
    omega
  have hused : ∀ b ∈ addrs tr.root, y.1 b ≠ none := fun b hb => hsame.represents.used hb
  -- only the nodes of the tree are written, so what has been dropped before is left alone
  have hkept : ∀ b ∈ lost, y.1 b ≠ none := fun b hb =>
    ne_of_eq_of_ne (hd.steps.frame b fun hbt => hdis b hbt b hb rfl)
      (hled.used b (List.mem_append_right _ hb))
  have hoff : SameOff (addrs s.rb.root ++ lost) m.heap y.1 :=
    hd.steps.frame.mono (List.subset_append_left _ _)
  rcases hcalls with ⟨hcount, hfree⟩ | ⟨hcount, hfree⟩
  · have hnodup : (a :: (addrs tr.root ++ lost)).Nodup :=
      (hperm.append_right lost).nodup_iff.1 hled.nodup
    refine ⟨hsame, hnewCalls, hshape, hsize', lost,
      hled.shrink (List.nodup_cons.1 hnodup).2 ?_ ?_ ?_ hoff, ?_⟩
    · exact fun b hb => (hperm.append_right lost).mem_iff.2 (List.mem_cons_of_mem _ hb)
    · exact fun b hb => (List.mem_append.1 hb).elim (hused b) (hkept b)
    · intro b hb hnb
      obtain rfl := (List.mem_cons.1 ((hperm.append_right lost).mem_iff.1 hb)).resolve_right hnb
      exact hsettled.2 hfree
    · rw [List.countP_append, hcount, hlost]
      rfl
  · have hperm' : (addrs s.rb.root ++ lost).Perm (addrs tr.root ++ a :: lost) :=
      (hperm.append_right lost).trans List.perm_middle.symm
    refine ⟨hsame, hnewCalls, hshape, hsize', a :: lost,
      hled.shrink (hperm'.nodup_iff.1 hled.nodup) (fun b => hperm'.mem_iff.2) ?_ ?_ hoff, ?_⟩
    · intro b hb
      rcases List.mem_append.1 hb with hb | hb
      · exact hused b hb
      · rcases List.mem_cons.1 hb with rfl | hb
        · exact fun hnone => hfree (hsettled.1 hnone)
        · exact hkept b hb
    · exact fun b hb hnb => absurd (hperm'.mem_iff.1 hb) hnb
    · rw [List.countP_append, hcount, List.length_cons, hlost]

theorem Related.size_lt (hr : Related fuel h₀ n s m) : Rb.rbSize s.rb < fuel :=
  Nat.lt_of_le_of_lt (Nat.le_add_right _ n) hr.size

/-- A teardown frees every node of the tree. -/
theorem Related.tornDown (hr : Related fuel h₀ n s m) :
    ∃ h' lost, rbClear fuel m.heap m.rb =
        some (h', { m.rb with root := none }, RbMem.tornDown s.rb.del (Rb.delTree s.rb.root)) ∧
      rbDestroy fuel m.heap m.rb = some (h', RbMem.tornDown s.rb.del (Rb.delTree s.rb.root)) ∧
      Allocated lost h₀ h' ∧ lost.length = s.calls.countP freesNull := by
  obtain ⟨lost, hled, hlost⟩ := hr.ledger
  obtain ⟨h', hclear, hdestroy, hfreed, hoff⟩ := rbClear_spec hr.same hr.size_lt
  obtain ⟨-, hlostNodup, hdis⟩ := List.nodup_append.1 hled.nodup
  refine ⟨h', lost, hclear, hdestroy, hled.shrink hlostNodup (List.subset_append_right _ _) ?_ ?_
    (hoff.mono (List.subset_append_left _ _)), hlost⟩
  · exact fun a ha => ne_of_eq_of_ne (hoff a fun hat => hdis a hat a ha rfl)
      (hled.used a (List.mem_append_right _ ha))
  · exact fun a ha hna => hfreed a ((List.mem_append.1 ha).resolve_right hna)

/-- A teardown frees no null pointer. -/
theorem countP_tornDown (del : Bool) (L : List (Addr × K × Option V)) :
    (RbMem.tornDown del L).countP freesNull = 0 := by
  rw [List.countP_eq_zero]
  intro c hc
  obtain ⟨e, -, hc⟩ := List.mem_flatMap.1 hc
  cases del
  · obtain rfl : c = .free (some e.1) := by simpa using hc
    simp [freesNull]
  · obtain rfl | rfl : c = .del (some e) ∨ c = .free (some e.1) := by simpa using hc
    · simp [freesNull]
    · simp [freesNull]

/-- The value and the memory after the same calls: the tree that stands in memory is
the value, it answers as the value does, the same calls have been made, and what was in
use at the start is as it was. -/
structure Agrees (fuel : Nat) (h₀ : Heap K V) (s : Traced K V) (m : Mem K V) : Prop where
  same : SameTree m.heap m.rb s.rb
  calls : m.calls = s.calls
  kept : ∀ a, h₀ a ≠ none → m.heap a = h₀ a
  find : ∀ key, rbFind fuel m.heap m.rb key = some (Rb.rbFind s.rb key)
  size : rbSize fuel m.heap m.rb = some (Rb.rbSize s.rb)
  foreach : rbForeach fuel m.heap m.rb = some (Rb.rbForeach s.rb)

theorem Related.agrees (hr : Related fuel h₀ n s m) : Agrees fuel h₀ s m := by
  obtain ⟨lost, hled, -⟩ := hr.ledger
  refine ⟨hr.same, hr.calls, fun a => hled.kept, fun key => ?_,
    countNodes_eq hr.same.represents hr.size_lt, traverse_eq hr.same.represents hr.size_lt⟩
  rw [rbFind, hr.same.cmp]
  exact findLoop_eq hr.same.represents hr.size_lt

variable [DecidableEq K]

theorem Related.clear (hr : Related fuel h₀ (n + 1) s m) :
    Option.Rel (Related fuel h₀ n) (treeStep s .clear) (memStep fuel m .clear) := by
  obtain ⟨h', lost, hclear, -, hled, hlost⟩ := hr.tornDown
  rw [treeStep, memStep, hclear, Option.map_some]
  refine .some ⟨⟨represents_null, hr.same.cmp, hr.same.del⟩, ?_, ⟨0, .leaf⟩, ?_, lost, hled, ?_⟩
  · rw [hr.calls]
  · have hsize := hr.size
    simp only [Rb.rbSize, Rb.rbClear, Rb.countNodes] at hsize ⊢
    omega
  · rw [List.countP_append, countP_tornDown, hlost]
    rfl

theorem Related.step (hr : Related fuel h₀ (n + 1) s m) (op : Op K V) (hop : FreshMalloc m op) :
    Option.Rel (Related fuel h₀ n) (treeStep s op) (memStep fuel m op) := by
  cases op with
  | insert new key data => exact hr.insert hop key data
  | delete key => exact hr.delete key
  | clear => exact hr.clear

/-! ## Whole runs -/

theorem exec_related {cmp : K → K → Int} {del : Bool} {ops : List (Op K V)}
    (hfuel : ops.length < fuel)
    (hfresh : Along (memStep fuel) FreshMalloc (.start h₀ cmp del) ops) :
    Option.Rel (Related fuel h₀ 0) (exec treeStep (.start cmp del) ops)
      (exec (memStep fuel) (.start h₀ cmp del) ops) := by
  have hstart : Related fuel h₀ ops.length (.start cmp del) (.start h₀ cmp del) :=
    ⟨⟨represents_null, rfl, rfl⟩, rfl, ⟨0, .leaf⟩,
      by simpa [Traced.start, Rb.rbSize, Rb.countNodes] using hfuel, [], .refl h₀, rfl⟩
  exact exec_rel (fun _ _ _ op hr hop => hr.step op hop) hstart hfresh

/-- **Refinement.** Whatever is in memory at the start, a run of calls on a new tree
dereferences no null pointer and no node out of use exactly when the run on the value goes
through, and then the two agree. -/
theorem run_refines {cmp : K → K → Int} {del : Bool} {ops : List (Op K V)}
    (hfuel : ops.length < fuel)
    (hfresh : Along (memStep fuel) FreshMalloc (.start h₀ cmp del) ops) :
    Option.Rel (Agrees fuel h₀) (exec treeStep (.start cmp del) ops)
      (exec (memStep fuel) (.start h₀ cmp del) ops) :=
  rel_mono (exec_related hfuel hfresh) fun _ _ hr => hr.agrees

/-- Three keys are inserted beside a node of another tree, one of them again,
and the root is deleted. -/
theorem run_refines_cmpaddr :
    Option.Rel
      (Agrees 6 (Function.update (fun _ => none) 7 (some ⟨false, 5, none, none, none, some 9⟩)))
        (exec treeStep (.start Rb.cmpaddr true : Traced (BitVec 64) Nat)
          [.insert (some ⟨1, some 4⟩) 10 (some 100), .insert (some ⟨2, none⟩) 20 none,
            .insert (some ⟨3, none⟩) 30 none,
          .insert none 20 (some 200), .delete 20])
      (exec (memStep 6) (.start
        (Function.update (fun _ => none) 7 (some ⟨false, 5, none, none, none, some 9⟩))
          Rb.cmpaddr true)
        [.insert (some ⟨1, some 4⟩) 10 (some 100), .insert (some ⟨2, none⟩) 20 none,
          .insert (some ⟨3, none⟩) 30 none, .insert none 20 (some 200), .delete 20]) :=
  run_refines (by decide) (by decide +kernel)

/-- **What a tree leaks.** When a run has gone through, `rb_destroy` does too, and then exactly as
many addresses are still in use that were not at the start as there were calls of `free` with null.
Everything else is as it was. -/
theorem rbDestroy_leaks {cmp : K → K → Int} {del : Bool} {ops : List (Op K V)}
    (hfuel : ops.length < fuel) (hfresh : Along (memStep fuel) FreshMalloc (.start h₀ cmp del) ops)
    (hrun : exec (memStep fuel) (.start h₀ cmp del) ops = some m) :
    ∃ h' calls lost, rbDestroy fuel m.heap m.rb = some (h', calls) ∧ Allocated lost h₀ h' ∧
      lost.length = (m.calls ++ calls).countP freesNull ∧
      (h' = h₀ ↔ ∀ c ∈ m.calls ++ calls, freesNull c = false) := by
  obtain ⟨s, -, hr⟩ := Rel.of_right (hrun ▸ exec_related hfuel hfresh)
  obtain ⟨h', lost, -, hdestroy, hled, hlost⟩ := hr.tornDown
  have hcount : lost.length =
      (m.calls ++ tornDown s.rb.del (Rb.delTree s.rb.root)).countP freesNull := by
    rw [List.countP_append, countP_tornDown, hr.calls, hlost]
    rfl
  refine ⟨h', _, lost, hdestroy, hled, hcount, ?_⟩
  rw [hled.eq_iff, ← List.length_eq_zero_iff, hcount, List.countP_eq_zero]
  simp

/-- The deletion of the root drops the node of its successor. -/
theorem rbDestroy_leaks_cmpaddr :
    ∃ m : Mem (BitVec 64) Nat, exec (memStep 5) (.start (fun _ => none) Rb.cmpaddr false)
        [.insert (some ⟨1, none⟩) 10 (some 100), .insert (some ⟨2, none⟩) 20 none,
          .insert (some ⟨3, some 3⟩) 30 none, .delete 20] = some m ∧
      ∃ h' calls lost, rbDestroy 5 m.heap m.rb = some (h', calls) ∧
        Allocated lost (fun _ => none) h' ∧
        lost.length = (m.calls ++ calls).countP freesNull ∧
        (h' = (fun _ => none) ↔ ∀ c ∈ m.calls ++ calls, freesNull c = false) := by
  have hrun : (exec (memStep 5) (.start (fun _ => none) Rb.cmpaddr false : Mem (BitVec 64) Nat)
      [.insert (some ⟨1, none⟩) 10 (some 100), .insert (some ⟨2, none⟩) 20 none,
        .insert (some ⟨3, some 3⟩) 30 none, .delete 20]).isSome = true := by
    decide +kernel
  obtain ⟨m, hm⟩ := Option.isSome_iff_exists.1 hrun
  exact ⟨m, hm, rbDestroy_leaks (by decide) (by decide +kernel) hm⟩

end Steps

end Resman.RbMem
