import Resman.Lib.Ledger
import Resman.RbTree.FoundKey

/-!
# The allocator of a tree

`rb_set_allocator` gives a tree its functions `alloc` and `free`. `insert` calls the first, `delete`
and `del_min` the second, but `del_tree` calls the `free` of the C library whatever has been set.
`memStep` records the calls of the tree's own two functions along a run, `libc` being true when the
second is the C library's.

`pairs_iff` is the exact condition for the record to be paired: a deletion that ends above the
bottom frees null instead of the node it drops, and a teardown frees nothing by the tree's own
function. It holds of every comparison, since the left-leaning shape does (`memStep_shape`).
-/

namespace Resman.Rb

open RbNode
open Lib (MemCall Paired Owes exec Along exec_append exec_snoc exec_cons_eq_some along_cons)

variable {K V : Type}

/-! ## Calls of the allocator -/

/-- `rb->alloc` is called where `insert` meets a null pointer. -/
def callsAlloc (cmp : K → K → Int) : RbNode K V → K → Bool
  | null, _ => true
  | node _ _ k _ l r, key =>
    if cmp key k < 0 then callsAlloc cmp l key
    else if 0 < cmp key k then callsAlloc cmp r key else false

/-- `del_tree`: the nodes that `free` is called on, each after its subtrees and
after the delete function. -/
def delTree : RbNode K V → List (Addr × K × Option V)
  | null => []
  | node a _ k d l r => delTree l ++ delTree r ++ [(a, k, d)]

/-- `rb_destroy` -/
def rbDestroy (rb : RbTree K V) : List (Addr × K × Option V) := delTree rb.root

/-- The calls of the tree's free function among those of `delete`. -/
def treeFrees (calls : List (Call K V)) : List (MemCall Addr) :=
  calls.filterMap fun
    | .free ptr => some (.free ptr)
    | .del _ => none

/-- The same when the C library's `free` is called on nodes. -/
def libcFrees (libc : Bool) (freed : List (Addr × K × Option V)) : List (MemCall Addr) :=
  if libc then freed.map fun e => .free (some e.1) else []

/-- A call of `rb_insert` (with the address that the allocator returns),
`rb_delete` or `rb_clear`. -/
inductive MemOp (K V : Type) where
  | insert (addr : Addr) (key : K) (data : Option V)
  | delete (key : K)
  | clear

/-- A tree and the calls of its allocator so far. -/
structure Recorded (K V : Type) where
  rb : RbTree K V
  trace : List (MemCall Addr)

section Steps

variable [DecidableEq K]

def memStep (libc : Bool) (s : Recorded K V) : MemOp K V → Option (Recorded K V)
  | .insert a k d =>
    (rbInsert s.rb (some a) k d).map fun rb =>
      ⟨rb, s.trace ++ if callsAlloc s.rb.cmp s.rb.root k then [.alloc a] else []⟩
  | .delete k => (rbDelete s.rb k).map fun p => ⟨p.1, s.trace ++ treeFrees p.2⟩
  | .clear => some ⟨rbClear s.rb, s.trace ++ libcFrees libc (delTree s.rb.root)⟩

/-- The run goes through, and with the final `rb_destroy` its record is paired. -/
def Pairs (libc : Bool) (rb : RbTree K V) (ops : List (MemOp K V)) : Prop :=
  ∃ s, exec (memStep libc) ⟨rb, []⟩ ops = some s ∧
    Paired (s.trace ++ libcFrees libc (rbDestroy s.rb))

/-- Keys are deleted only while several are stored. -/
def SeveralStored (s : Recorded K V) : MemOp K V → Prop
  | .delete _ => 2 ≤ rbSize s.rb
  | _ => True

/-- A deletion ends at a node without a right child. -/
def EndsAtBottom (s : Recorded K V) : MemOp K V → Prop
  | .delete k => ending s.rb.cmp s.rb.root k = .bottom
  | _ => True

instance (s : Recorded K V) : ∀ op, Decidable (SeveralStored s op)
  | .insert .. | .clear => isTrue trivial
  | .delete _ => inferInstanceAs (Decidable (2 ≤ rbSize s.rb))

instance (s : Recorded K V) : ∀ op, Decidable (EndsAtBottom s op)
  | .insert .. | .clear => isTrue trivial
  | .delete k => inferInstanceAs (Decidable (ending s.rb.cmp s.rb.root k = .bottom))

def MemOp.inserts : MemOp K V → Bool
  | .insert .. => true
  | _ => false

end Steps

/-! ## Addresses -/

/-- The addresses of the nodes from left to right. -/
def addrs (t : RbNode K V) : List Addr := (nodes t).map Prod.fst

theorem SearchGap.callsAlloc {cmp : K → K → Int} {key : K} {t : RbNode K V}
    {xs ys : List (Addr × K × Option V)} (h : SearchGap cmp key t xs ys) :
    Rb.callsAlloc cmp t key = true := by
  induction h with
  | null => rfl
  | left hlt _ ih => rw [Rb.callsAlloc, if_pos hlt, ih]
  | right hgt _ ih => rw [Rb.callsAlloc, if_neg (by omega), if_pos hgt, ih]

theorem SearchAt.callsAlloc {cmp : K → K → Int} {key : K} {t : RbNode K V}
    {xs ys : List (Addr × K × Option V)} {e : Addr × K × Option V}
    (h : SearchAt cmp key t xs e ys) :
    Rb.callsAlloc cmp t key = false := by
  induction h with
  | here hz => rw [Rb.callsAlloc, if_neg (by omega), if_neg (by omega)]
  | left hlt _ ih => rw [Rb.callsAlloc, if_pos hlt, ih]
  | right hgt _ ih => rw [Rb.callsAlloc, if_neg (by omega), if_pos hgt, ih]

theorem delTree_perm (t : RbNode K V) : ((delTree t).map Prod.fst).Perm (addrs t) := by
  refine List.Perm.map _ ?_
  induction t with
  | null => exact .refl _
  | node a c k d l r ihl ihr =>
    rw [delTree, nodes_node, List.append_assoc]
    refine ihl.append ?_
    exact (ihr.append_right _).trans (List.perm_append_singleton _ _)

variable {rb : RbTree K V} {n : Nat}

/-- `rb_insert` adds the address that it has allocated, if any. -/
theorem rbInsert_addrs (hn : LL rb.root false n) (a : Addr) (key : K) (data : Option V) :
    ∃ root n', rbInsert rb (some a) key data = some { rb with root } ∧ LL root false n' ∧
      addrs root ≠ [] ∧
      (addrs root).Perm ((if callsAlloc rb.cmp rb.root key then [a] else []) ++ addrs rb.root) := by
  rcases search_cases rb.cmp key rb.root with ⟨xs, e, ys, hat⟩ | ⟨xs, ys, hgap⟩
  · have hnodes := nodes_setAt data hat
    refine ⟨_, n, rbInsert_stored hn (some a) data hat, hn.setAt .., by simp [addrs, hnodes], ?_⟩
    rw [hat.callsAlloc]
    simp [addrs, hnodes, hat.split]
  · obtain ⟨root, n', hins, hnodes, hn'⟩ := rbInsert_new hn a data hgap
    refine ⟨root, n', hins, hn', by simp [addrs, hnodes], ?_⟩
    rw [hgap.callsAlloc, addrs, addrs, hnodes, hgap.split, List.map_append,
      List.map_cons, List.map_append]
    exact List.perm_middle

/-! ## What a tree owes -/

/-- The tree owes its own nodes, and those that a teardown has given to another function than its
own. `inserted` says that something has been inserted. -/
def Accounted (libc inserted : Bool) (s : Recorded K V) : Prop :=
  (∃ n, LL s.rb.root false n) ∧ ∃ lost, Owes s.trace (addrs s.rb.root ++ lost) ∧
    (libc = true → lost = []) ∧ (libc = false → inserted = true → addrs s.rb.root ++ lost ≠ [])

/-- The teardown settles the account if it calls the right function. -/
theorem Accounted.paired_iff {libc inserted : Bool} {s : Recorded K V}
    (h : Accounted libc inserted s) (hins : inserted = true) :
    Paired (s.trace ++ libcFrees libc (rbDestroy s.rb)) ↔ libc = true := by
  obtain ⟨-, lost, howes, hlibc, hne⟩ := h
  cases libc with
  | true =>
    obtain rfl := hlibc rfl
    have hfrees := (howes.perm ((delTree_perm s.rb.root).symm.append_right [])).frees
    rw [List.map_map] at hfrees
    exact ⟨fun _ => rfl, fun _ => hfrees.paired_iff.2 rfl⟩
  | false =>
    rw [libcFrees, if_neg (by decide), List.append_nil, howes.paired_iff]
    exact ⟨fun hnil => absurd hnil (hne rfl hins), by simp⟩

/-! ## Runs -/

section Runs

variable [DecidableEq K] {libc : Bool} {s s' : Recorded K V} {op : MemOp K V}
  {ops : List (MemOp K V)}

/-- A deletion that ends at the bottom frees the node that goes. -/
theorem rbDelete_addrs (hn : LL rb.root false n) (h2 : 2 ≤ rbSize rb) {key : K}
    (hend : ending rb.cmp rb.root key = .bottom) :
    ∃ rb' calls a n', rbDelete rb key = some (rb', calls) ∧ LL rb'.root false n' ∧
      treeFrees calls = [.free (some a)] ∧ addrs rb'.root ≠ [] ∧
      (addrs rb.root).Perm (a :: addrs rb'.root) := by
  obtain ⟨hends, hshape⟩ := rbDelete_ends hn h2 key
  have hsize : 2 ≤ (addrs rb.root).length := by
    rw [addrs, List.length_map, length_nodes]
    exact h2
  rw [hend] at hends
  cases hdel : rbDelete rb key with
  | none => rw [hdel, Option.map_none] at hends; cases hends
  | some p =>
    obtain ⟨-, n', hn'⟩ := hshape p.1 p.2 hdel
    rw [hdel, Option.map_some] at hends
    generalize ho : some (nodes p.1.root, p.2) = o at hends
    cases hends with
    | @bottom xs e ys hsplit =>
      obtain ⟨hnodes, hcalls⟩ := Prod.mk.inj (Option.some.inj ho)
      have hperm : (addrs rb.root).Perm (e.1 :: addrs p.1.root) := by
        rw [addrs, addrs, hsplit, hnodes, List.map_append, List.map_cons, List.map_append]
        exact List.perm_middle
      refine ⟨p.1, p.2, e.1, n', rfl, hn', ?_, fun hnil => ?_, hperm⟩
      · rw [hcalls, released]
        cases rb.del <;> rfl
      · have hlen := hperm.length_eq
        rw [hnil, List.length_singleton] at hlen
        omega

/-- In a tree in order, the deletion of a key that compares equal to a stored one ends at the bottom
when the node of that one has no right child. -/
theorem endsAtBottom_iff (h : WeakWF s.rb) {key : K}
    (hk : ∃ k ∈ keys s.rb.root, s.rb.cmp key k = 0) :
    EndsAtBottom s (.delete key) ↔ foundAtBottom s.rb.cmp s.rb.root key = true := by
  obtain ⟨xs, e, ys, hat⟩ := h.at_of_equal hk
  rw [EndsAtBottom, ending_of_at (h.order.self key) hat]
  cases foundAtBottom s.rb.cmp s.rb.root key with
  | true => simp
  | false => by_cases hkey : key = e.2.1 <;> simp [hkey]

/-- Any other deletion that goes through frees null. -/
theorem rbDelete_frees_null (hn : LL rb.root false n) (h2 : 2 ≤ rbSize rb) {key : K}
    (hend : ending rb.cmp rb.root key ≠ .bottom) {rb' : RbTree K V} {calls : List (Call K V)}
    (hdel : rbDelete rb key = some (rb', calls)) : .free none ∈ treeFrees calls := by
  obtain ⟨hends, -⟩ := rbDelete_ends hn h2 key
  rw [hdel, Option.map_some] at hends
  generalize ho : some (nodes rb'.root, calls) = o at hends
  generalize ending rb.cmp rb.root key = b at hends hend
  cases hends with
  | bottom => exact absurd rfl hend
  | inner =>
    obtain ⟨-, hcalls⟩ := Prod.mk.inj (Option.some.inj ho)
    rw [hcalls, released]
    cases rb.del <;> simp [treeFrees]
  | lost => cases ho

/-- The left-leaning shape is kept under every comparison. -/
theorem memStep_shape (h : ∃ n, LL s.rb.root false n) (hs : memStep libc s op = some s') :
    ∃ n, LL s'.rb.root false n := by
  obtain ⟨n, hn⟩ := h
  cases op with
  | insert a k d =>
    obtain ⟨root, n', hins, hn', -⟩ := rbInsert_addrs hn a k d
    rw [memStep, hins] at hs
    obtain rfl := Option.some.inj hs
    exact ⟨n', hn'⟩
  | delete k =>
    obtain ⟨p, hdel, rfl⟩ := Option.map_eq_some_iff.1 hs
    by_cases h2 : 2 ≤ rbSize s.rb
    · exact ((rbDelete_ends hn h2 k).2 p.1 p.2 hdel).2
    · rw [rbDelete_last (by omega)] at hdel
      cases hdel
  | clear =>
    obtain rfl := Option.some.inj hs
    exact ⟨0, .leaf⟩

theorem memStep_trace (hs : memStep libc s op = some s') : s.trace <+: s'.trace := by
  cases op with
  | insert a k d =>
    obtain ⟨rb', -, rfl⟩ := Option.map_eq_some_iff.1 hs
    exact List.prefix_append _ _
  | delete k =>
    obtain ⟨p, -, rfl⟩ := Option.map_eq_some_iff.1 hs
    exact List.prefix_append _ _
  | clear =>
    obtain rfl := Option.some.inj hs
    exact List.prefix_append _ _

theorem memStep_accounted {inserted : Bool} (h : Accounted libc inserted s)
    (h2 : SeveralStored s op) (hend : EndsAtBottom s op) :
    ∃ s', memStep libc s op = some s' ∧ Accounted libc (inserted || op.inserts) s' := by
  obtain ⟨⟨n, hn⟩, lost, howes, hlibc, hne⟩ := h
  cases op with
  | insert a k d =>
    obtain ⟨root, n', hins, hn', hroot, hperm⟩ := rbInsert_addrs hn a k d
    refine ⟨⟨{ s.rb with root }, _⟩, by rw [memStep, hins, Option.map_some],
      ⟨n', hn'⟩, lost, ?_, hlibc, fun _ _ => by simp [hroot]⟩
    refine Owes.perm ?_ (hperm.append_right lost).symm
    cases callsAlloc s.rb.cmp s.rb.root k with
    | true => exact howes.alloc a
    | false => simpa using howes
  | delete k =>
    obtain ⟨rb', calls, a, n', hdel, hn', hfrees, hroot, hperm⟩ := rbDelete_addrs hn h2 hend
    refine ⟨⟨rb', s.trace ++ [.free (some a)]⟩, by rw [memStep, hdel, Option.map_some, hfrees],
      ⟨n', hn'⟩, lost, ?_, hlibc, fun _ _ => by simp [hroot]⟩
    exact (howes.perm (hperm.append_right lost)).free
  | clear =>
    refine ⟨_, rfl, ⟨0, .leaf⟩, ?_⟩
    cases libc with
    | true =>
      obtain rfl := hlibc rfl
      refine ⟨[], ?_, fun _ => rfl, by simp⟩
      have hfrees := (howes.perm ((delTree_perm s.rb.root).symm.append_right [])).frees
      rwa [List.map_map] at hfrees
    | false =>
      refine ⟨addrs s.rb.root ++ lost, ?_, by simp,
        fun _ hins => hne rfl (by simpa [MemOp.inserts] using hins)⟩
      simpa [libcFrees, rbClear, addrs, nodes] using howes

theorem exec_accounted {inserted : Bool} (h : Accounted libc inserted s)
    (hops : Along (memStep libc) (fun s op => SeveralStored s op ∧ EndsAtBottom s op) s ops) :
    ∃ s', exec (memStep libc) s ops = some s' ∧
      Accounted libc (inserted || ops.any MemOp.inserts) s' := by
  induction ops generalizing s inserted with
  | nil => exact ⟨s, rfl, by simpa using h⟩
  | cons op ops ih =>
    obtain ⟨⟨h2, hend⟩, hrest⟩ := along_cons.1 hops
    obtain ⟨m, hm, hacc⟩ := memStep_accounted h h2 hend
    obtain ⟨s', hs', hacc'⟩ := ih hacc (hrest m hm)
    refine ⟨s', exec_cons_eq_some.2 ⟨m, hm, hs'⟩, ?_⟩
    rwa [Bool.or_assoc, ← List.any_cons] at hacc'

/-- Without insertions nothing is ever stored. -/
theorem exec_of_no_insert (hnull : s.rb.root = null)
    (h2 : Along (memStep libc) SeveralStored s ops) (hno : ops.any MemOp.inserts = false) :
    exec (memStep libc) s ops = some s := by
  induction ops with
  | nil => rfl
  | cons op ops ih =>
    obtain ⟨hop, hrest⟩ := along_cons.1 h2
    rw [List.any_cons, Bool.or_eq_false_iff] at hno
    cases op with
    | insert a k d => cases hno.1
    | delete k =>
      rw [SeveralStored, rbSize, hnull, countNodes] at hop
      omega
    | clear =>
      have hs : memStep libc s .clear = some s := by
        obtain ⟨⟨root, cmp, del⟩, trace⟩ := s
        obtain rfl : root = null := hnull
        simp [memStep, rbClear, delTree, libcFrees]
      exact exec_cons_eq_some.2 ⟨s, hs, ih (hrest s hs) hno.2⟩

/-- **Allocator pairing.** A run of insertions, deletions and clearings, ended by the teardown,
pairs the calls of the tree's allocator exactly when it inserts nothing, or the tree's free function
is the C library's and every deletion ends at a node without a right child. -/
theorem pairs_iff {cmp : K → K → Int} {del : Bool}
    (h2 : Along (memStep libc) SeveralStored ⟨⟨null, cmp, del⟩, []⟩ ops) :
    Pairs libc ⟨null, cmp, del⟩ ops ↔ ops.any MemOp.inserts = false ∨
      libc = true ∧ Along (memStep libc) EndsAtBottom ⟨⟨null, cmp, del⟩, []⟩ ops := by
  have h0 : Accounted libc false (⟨⟨null, cmp, del⟩, []⟩ : Recorded K V) :=
    ⟨⟨0, .leaf⟩, [], Lib.owes_nil, fun _ => rfl, by simp⟩
  have hrun : Along (memStep libc) EndsAtBottom ⟨⟨null, cmp, del⟩, []⟩ ops →
      ∃ s, exec (memStep libc) ⟨⟨null, cmp, del⟩, []⟩ ops = some s ∧
        Accounted libc (ops.any MemOp.inserts) s := fun hend => by
    simpa using exec_accounted h0 (h2.and hend)
  constructor
  · rintro ⟨s, hs, hpaired⟩
    cases hins : ops.any MemOp.inserts with
    | false => exact .inl rfl
    | true =>
      have hend : Along (memStep libc) EndsAtBottom ⟨⟨null, cmp, del⟩, []⟩ ops := by
        refine Lib.along_iff_forall.2 fun pre op m hpre hm => ?_
        have hop := Lib.along_iff_forall.1 h2 pre op m hpre hm
        obtain ⟨rest, rfl⟩ := hpre
        rw [exec_append, Option.bind_eq_some_iff] at hs
        obtain ⟨m', hm', hrest⟩ := hs
        obtain ⟨m₀, hm₀, hstep⟩ := exec_snoc.1 hm'
        obtain rfl := Option.some.inj (hm.symm.trans hm₀)
        cases op with
        | insert => trivial
        | clear => trivial
        | delete k =>
          by_contra hend
          obtain ⟨n, hn⟩ := Lib.exec_invariant'
            (I := fun m : Recorded K V => ∃ n, LL m.rb.root false n)
            ⟨0, .leaf⟩ (fun _ _ _ => memStep_shape) hm
          obtain ⟨p, hdel, rfl⟩ := Option.map_eq_some_iff.1 hstep
          have hnull := rbDelete_frees_null hn hop hend hdel
          have hpre := Lib.exec_invariant'
            (I := fun x : Recorded K V => m.trace ++ treeFrees p.2 <+: x.trace)
            List.prefix_rfl (fun _ _ _ hx hs => hx.trans (memStep_trace hs)) hrest
          refine Lib.not_paired_of_null ?_ hpaired
          exact List.mem_append_left _ (hpre.subset (List.mem_append_right _ hnull))
      obtain ⟨s', hs', hacc⟩ := hrun hend
      obtain rfl := Option.some.inj (hs.symm.trans hs')
      exact .inr ⟨(hacc.paired_iff hins).1 hpaired, hend⟩
  · rintro (hno | ⟨hlibc, hend⟩)
    · refine ⟨_, exec_of_no_insert rfl h2 hno, ?_⟩
      cases libc <;> exact rfl
    · obtain ⟨s, hs, hacc⟩ := hrun hend
      cases hins : ops.any MemOp.inserts with
      | true => exact ⟨s, hs, (hacc.paired_iff hins).2 hlibc⟩
      | false =>
        refine ⟨_, exec_of_no_insert rfl h2 hins, ?_⟩
        cases libc <;> exact rfl

end Runs

/-- Three keys are inserted, and two of them deleted before the teardown. -/
theorem pairs_iff_cmpaddr :
    Pairs true (⟨null, cmpaddr, false⟩ : RbTree (BitVec 64) Nat)
        [.insert 1 10 (some 100), .insert 2 20 none, .insert 3 30 none, .delete 30, .delete 10] ↔
      List.any [.insert 1 10 (some 100), .insert 2 20 none, .insert 3 30 none,
        .delete 30, .delete 10]
          (MemOp.inserts (K := BitVec 64) (V := Nat)) = false ∨
        true = true ∧ Along (memStep true) EndsAtBottom ⟨⟨null, cmpaddr, false⟩, []⟩
          [.insert 1 10 (some 100), .insert 2 20 none, .insert 3 30 none, .delete 30, .delete 10] :=
  pairs_iff (by decide +kernel)

/-- With functions of its own a tree of one node is torn down by the C library's `free`; with that
function set, the deletion of the root of three nodes frees null and keeps a node. -/
theorem not_pairs :
    ¬ Pairs false (⟨null, cmpaddr, false⟩ : RbTree (BitVec 64) Nat) [.insert 1 10 (some 100)] ∧
      ¬ Pairs true (⟨null, cmpaddr, false⟩ : RbTree (BitVec 64) Nat)
        [.insert 1 10 (some 100), .insert 2 20 none, .insert 3 30 none, .delete 20] := by
  constructor
  · rintro ⟨s, hs, hpaired⟩
    have hnot : (exec (memStep false) (⟨⟨null, cmpaddr, false⟩, []⟩ : Recorded (BitVec 64) Nat)
        [.insert 1 10 (some 100)]).all
          (fun s => !decide (Paired (s.trace ++ libcFrees false (rbDestroy s.rb)))) = true := by
      decide +kernel
    rw [hs] at hnot
    simp [hpaired] at hnot
  · rintro ⟨s, hs, hpaired⟩
    have hnot : (exec (memStep true) (⟨⟨null, cmpaddr, false⟩, []⟩ : Recorded (BitVec 64) Nat)
        [.insert 1 10 (some 100), .insert 2 20 none, .insert 3 30 none, .delete 20]).all
          (fun s => !decide (Paired (s.trace ++ libcFrees true (rbDestroy s.rb)))) = true := by
      decide +kernel
    rw [hs] at hnot
    simp [hpaired] at hnot

end Resman.Rb
