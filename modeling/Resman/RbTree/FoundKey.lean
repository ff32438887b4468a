import Resman.RbTree.RedBlack
import Resman.Win32.Path

/-!
# How `delete` finds its key

`delete` compares its key with the keys of the nodes, but above the bottom it takes a node for the
right one only if it has the very key pointer. `deletesEqual_iff` says for which keys that makes no
difference, and `callsDelOnce_iff` says for which the delete function is called on the node that
goes: at the bottom it is, above it `del_min` calls it on null.

The trees are those that any run of insertions and deletions reaches, under a comparison in which
different pointers may compare equal (`run_weak`). `rbInit` and `rbSetCompareFunc` say which
comparison a tree has.
-/

namespace Resman.Rb

open RbNode
open Lib (At Gap WeakOrder StrictTotal exec exec_invariant')

variable {K V : Type}

/-! ## The comparison of a tree -/

/-- What `rb_create` is given: one of the constants of `rbtree.h`, or a function. -/
inductive CmpFunc where
  | addr
  | int
  | string
  | user (func : BitVec 64 → BitVec 64 → Int)

/-- `rb_init`; `text` are the strings in memory. A function is not looked at. -/
def rbInit (text : BitVec 64 → Win32.Text) : CmpFunc → RbTree (BitVec 64) V
  | .int => rbCreate cmpint
  | .string => rbCreate fun ap bp => Win32.strcmp (text ap) (text bp)
  | .addr | .user _ => rbCreate cmpaddr

def rbSetCompareFunc (rb : RbTree K V) (func : K → K → Int) : RbTree K V := { rb with cmp := func }

def rbSetDeleteFunc (rb : RbTree K V) : RbTree K V := { rb with del := true }

/-- A new tree with its comparison set is the empty tree under that comparison,
whatever it was created with. -/
theorem rbSetCompareFunc_rbInit (text : BitVec 64 → Win32.Text) (c : CmpFunc)
    (func : BitVec 64 → BitVec 64 → Int) :
    rbSetCompareFunc (rbInit (V := V) text c) func = rbCreate func := by
  cases c <;> rfl

/-- Keys compared through a function to ordered values are in order up to equivalence. -/
theorem weakOrder_comap {A : Type} {cmp : A → A → Int} (hc : StrictTotal cmp) (f : K → A) :
    WeakOrder fun a b => cmp (f a) (f b) where
  self _ := hc.self _
  swap := hc.swap
  trans := hc.trans
  congr := hc.weak.congr

/-- `RB_KEY_STRING` compares by a total order up to the equality of strings. -/
theorem rbInit_string (text : BitVec 64 → Win32.Text) :
    WeakOrder (rbInit (V := V) text .string).cmp :=
  weakOrder_comap Win32.strcmp_strictTotal text

/-! ## Runs -/

variable {cmp : K → K → Int} {del : Bool} {rb rb' : RbTree K V} {ops : List (RbOp K V)} {key : K}

/-- A key that compares equal to a stored one cuts the nodes there. -/
theorem WeakWF.at_of_equal (h : WeakWF rb) (hk : ∃ k ∈ keys rb.root, rb.cmp key k = 0) :
    ∃ xs e ys, At (fun a => rb.cmp key a.2.1) (nodes rb.root) xs e ys := by
  refine (h.at_or_gap key).resolve_right ?_
  rintro ⟨xs, ys, hgap⟩
  obtain ⟨k, hk, hz⟩ := hk
  obtain ⟨e, he, rfl⟩ := mem_keys_iff.1 hk
  exact hgap.ne_zero he hz

/-- The key pointer of the node that a search ends at is the one that is
searched for, if that is stored. -/
theorem WeakWF.mem_keys_iff (h : WeakWF rb) {xs ys : List (Addr × K × Option V)}
    {e : Addr × K × Option V} (hat : At (fun a => rb.cmp key a.2.1) (nodes rb.root) xs e ys) :
    key ∈ keys rb.root ↔ key = e.2.1 := by
  rw [Rb.mem_keys_iff]
  constructor
  · rintro ⟨e', he', rfl⟩
    rw [hat.eq_of_zero he' (h.order.self _)]
  · exact fun hk => ⟨e, hat.mem, hk.symm⟩

variable [DecidableEq K]

theorem rbStep_weak (h : WeakWF rb) {op : RbOp K V} (hstep : rbStep rb op = some rb') :
    WeakWF rb' ∧ rb'.cmp = rb.cmp := by
  cases op with
  | insert a k d =>
    rcases h.at_or_gap k with ⟨xs, e, ys, hat⟩ | ⟨xs, ys, hgap⟩
    · obtain ⟨hins, -, hwf⟩ := rbInsert_at h (some a) d hat
      obtain rfl := Option.some.inj (hins.symm.trans hstep)
      exact ⟨hwf, rfl⟩
    · obtain ⟨root, hins, -, hwf⟩ := rbInsert_gap h a d hgap
      obtain rfl := Option.some.inj (hins.symm.trans hstep)
      exact ⟨hwf, rfl⟩
  | delete k =>
    obtain ⟨⟨rb'', calls⟩, hdel, rfl⟩ := Option.map_eq_some_iff.1 hstep
    obtain ⟨hat, h2⟩ := rbDelete_found h hdel
    obtain ⟨xs, e, ys, hat⟩ := hat
    obtain ⟨hwf, hroot⟩ := (rbDelete_removes h h2 hat).2 rb'' calls hdel
    exact ⟨hwf, by rw [hroot]⟩

theorem run_weak (hc : WeakOrder cmp) (hrun : exec rbStep ⟨null, cmp, del⟩ ops = some rb) :
    WeakWF rb ∧ rb.cmp = cmp :=
  exec_invariant' (I := fun rb => WeakWF rb ∧ rb.cmp = cmp) ⟨.create hc del, rfl⟩
    (fun _ _ _ hm hs => ⟨(rbStep_weak hm.1 hs).1, (rbStep_weak hm.1 hs).2.trans hm.2⟩) hrun

/-! ## Keys that compare equal -/

/-- `rb_delete` removes the entry that compares equal, the one that `rb_find` returns the data of,
and keeps all others. -/
def DeletesEqual (rb : RbTree K V) (key : K) : Prop :=
  ∃ rb' calls xs k d ys, rbDelete rb key = some (rb', calls) ∧ rb.cmp key k = 0 ∧
    rbForeach rb = xs ++ (k, d) :: ys ∧ rbForeach rb' = xs ++ ys ∧ rbFind rb key = d ∧
    rbFind rb' key = none

/-- **Deletion by comparison.** In every tree of at least two entries that a run reaches,
`rb_delete` of a key that compares equal to a stored one removes that entry exactly when it is the
stored key pointer itself or the node has no right child. -/
theorem deletesEqual_iff (hc : WeakOrder cmp) (hrun : exec rbStep ⟨null, cmp, del⟩ ops = some rb)
    (h2 : 2 ≤ rbSize rb) (hk : ∃ k ∈ keys rb.root, cmp key k = 0) :
    DeletesEqual rb key ↔ key ∈ keys rb.root ∨ foundAtBottom cmp rb.root key = true := by
  obtain ⟨hwf, rfl⟩ := run_weak hc hrun
  obtain ⟨xs, e, ys, hat⟩ := hwf.at_of_equal hk
  obtain ⟨hrem, hshape⟩ := rbDelete_removes hwf h2 hat
  rw [hwf.mem_keys_iff hat]
  have hgood : ∀ rb' calls zs, rbDelete rb key = some (rb', calls) → nodes rb'.root = xs ++ zs →
      zs.map Prod.snd = ys.map Prod.snd → DeletesEqual rb key := by
    intro rb' calls zs hdel hnodes hzs
    have hroot := (hshape rb' calls hdel).2
    have hzs' : ∀ z ∈ zs, rb.cmp key z.2.1 < 0 := by
      intro z hz
      obtain ⟨y, hy, heq⟩ := List.mem_map.1 (hzs ▸ List.mem_map_of_mem (f := Prod.snd) hz)
      rw [← heq]
      exact hat.after y hy
    refine ⟨rb', calls, xs.map Prod.snd, e.2.1, e.2.2, ys.map Prod.snd, hdel, hat.equal,
      ?_, ?_, find_at hat, ?_⟩
    · rw [rbForeach, traverse_eq, hat.split, List.map_append, List.map_cons]
    · rw [rbForeach, traverse_eq, hnodes, List.map_append, hzs]
    · rw [rbFind, hroot]
      refine find_none fun z hz => ?_
      rw [hnodes, List.mem_append] at hz
      rcases hz with hz | hz
      · exact (hat.before z hz).ne'
      · exact (hzs' z hz).ne
  cases hdel : rbDelete rb key with
  | none =>
    rw [hdel, Option.map_none] at hrem
    have hbad : ¬ DeletesEqual rb key := by
      rintro ⟨rb', calls, -, -, -, -, hdel', -⟩
      cases hdel.symm.trans hdel'
    generalize foundAtBottom rb.cmp rb.root key = b at hrem
    cases hrem with
    | other hne => simp [hbad, hne]
  | some p =>
    rw [hdel, Option.map_some] at hrem
    generalize foundAtBottom rb.cmp rb.root key = b at hrem
    generalize ho : some (nodes p.1.root, p.2) = o at hrem
    cases hrem with
    | bottom =>
      obtain ⟨hnodes, -⟩ := Prod.mk.inj (Option.some.inj ho)
      exact ⟨fun _ => .inr rfl, fun _ => hgood p.1 p.2 ys hdel hnodes rfl⟩
    | inner hkey hys =>
      obtain ⟨hnodes, -⟩ := Prod.mk.inj (Option.some.inj ho)
      exact ⟨fun _ => .inl hkey, fun _ => hgood p.1 p.2 _ hdel hnodes (by rw [hys]; rfl)⟩
    | other => cases ho

/-- Strings in memory: `"a"` below the address 20, then `"b"`, from 30 on `"c"`. -/
def letters (p : BitVec 64) : Win32.Text :=
  if p < 20 then ['a'] else if p < 30 then ['b'] else ['c']

/-- The tree of three of them. -/
theorem letters_run : ∃ rb, exec rbStep ⟨null, (rbInit (V := Nat) letters .string).cmp, false⟩
      [.insert 1 10 (some 100), .insert 2 20 (some 200), .insert 3 30 (some 300)] = some rb ∧
    rb.cmp = (rbInit (V := Nat) letters .string).cmp ∧
    rb.root = node 2 false 20 (some 200) (node 1 false 10 (some 100) null null)
      (node 3 false 30 (some 300) null null) := by
  have hrun : (exec rbStep ⟨null, (rbInit (V := Nat) letters .string).cmp, false⟩
      [.insert 1 10 (some 100), .insert 2 20 (some 200), .insert 3 30 (some 300)]).map RbTree.root =
        some (node 2 false 20 (some 200) (node 1 false 10 (some 100) null null)
          (node 3 false 30 (some 300) null null)) := by
    decide +kernel
  obtain ⟨rb, hrb, hroot⟩ := Option.map_eq_some_iff.1 hrun
  exact ⟨rb, hrb, (run_weak (rbInit_string _) hrb).2, hroot⟩

/-- The first is deleted through another pointer to the same characters. -/
theorem deletesEqual_string :
    ∃ rb, exec rbStep ⟨null, (rbInit (V := Nat) letters .string).cmp, false⟩
        [.insert 1 10 (some 100), .insert 2 20 (some 200), .insert 3 30 (some 300)] = some rb ∧
      (DeletesEqual rb 11 ↔
        11 ∈ keys rb.root ∨ foundAtBottom (rbInit (V := Nat) letters .string).cmp rb.root 11 =
          true) := by
  obtain ⟨rb, hrb, -, hroot⟩ := letters_run
  refine ⟨rb, hrb, deletesEqual_iff (rbInit_string letters) hrb ?_ ?_⟩
  · rw [rbSize, hroot]
    decide
  · rw [hroot]
    exact ⟨10, by simp [keys, traverse], by decide +kernel⟩

/-- The second is at an inner node: `rb_find` finds it through another pointer, and its deletion
through that pointer reads a null pointer. -/
theorem deletesEqual_inner :
    ∃ rb, exec rbStep ⟨null, (rbInit (V := Nat) letters .string).cmp, false⟩
        [.insert 1 10 (some 100), .insert 2 20 (some 200), .insert 3 30 (some 300)] = some rb ∧
      rbFind rb 21 = some 200 ∧ ¬ DeletesEqual rb 21 := by
  obtain ⟨⟨root, cmp, del⟩, hrb, hcmp, hroot⟩ := letters_run
  subst hcmp hroot
  have hfind : find (rbInit (V := Nat) letters .string).cmp (node 2 false 20 (some 200)
      (node 1 false 10 (some 100) null null) (node 3 false 30 (some 300) null null)) 21 =
        some 200 := by
    decide +kernel
  refine ⟨_, hrb, hfind, ?_⟩
  rintro ⟨rb', calls, -, -, -, -, hdel, -⟩
  have hnone : ∀ del, (rbDelete (⟨node 2 false 20 (some 200) (node 1 false 10 (some 100) null null)
      (node 3 false 30 (some 300) null null), (rbInit (V := Nat) letters .string).cmp, del⟩ :
        RbTree (BitVec 64) Nat) 21).isNone = true := by
    decide +kernel
  have hnone := hnone del
  rw [hdel] at hnone
  cases hnone

/-! ## The delete function -/

/-- What the delete function is called on. -/
def delCalls (calls : List (Call K V)) : List (Option (Addr × K × Option V)) :=
  calls.filterMap fun
    | .del e => some e
    | .free _ => none

/-- `rb_delete` calls the delete function once, on the node that has the key and its data. -/
def CallsDelOnce (rb : RbTree K V) (key : K) : Prop :=
  ∃ rb' calls a d, rbDelete rb key = some (rb', calls) ∧ (a, key, d) ∈ nodes rb.root ∧
    delCalls calls = [some (a, key, d)]

/-- **The delete function** is called once, on the node of the key, exactly when
that node has no right child. -/
theorem callsDelOnce_iff (hc : WeakOrder cmp) (hrun : exec rbStep ⟨null, cmp, del⟩ ops = some rb)
    (h2 : 2 ≤ rbSize rb) (hk : key ∈ keys rb.root) :
    CallsDelOnce (rbSetDeleteFunc rb) key ↔ foundAtBottom cmp rb.root key = true := by
  obtain ⟨hwf, rfl⟩ := run_weak hc hrun
  obtain ⟨xs, e, ys, hat⟩ := hwf.at_of_equal ⟨key, hk, hwf.order.self key⟩
  obtain rfl : key = e.2.1 := (hwf.mem_keys_iff hat).1 hk
  have hwf' : WeakWF (rbSetDeleteFunc rb) := ⟨hwf.order, hwf.sorted, hwf.shape⟩
  obtain ⟨hrem, -⟩ := rbDelete_removes hwf' h2 hat
  show _ ↔ foundAtBottom (rbSetDeleteFunc rb).cmp (rbSetDeleteFunc rb).root e.2.1 = true
  generalize foundAtBottom (rbSetDeleteFunc rb).cmp (rbSetDeleteFunc rb).root e.2.1 = b at hrem ⊢
  cases hdel : rbDelete (rbSetDeleteFunc rb) e.2.1 with
  | none =>
    rw [hdel, Option.map_none] at hrem
    cases hrem with
    | other hne => exact absurd rfl hne
  | some p =>
    rw [hdel, Option.map_some] at hrem
    generalize ho : some (nodes p.1.root, p.2) = o at hrem
    cases hrem with
    | bottom =>
      obtain ⟨-, hcalls⟩ := Prod.mk.inj (Option.some.inj ho)
      refine ⟨fun _ => rfl, fun _ => ⟨p.1, p.2, e.1, e.2.2, hdel, hat.mem, ?_⟩⟩
      rw [hcalls]
      rfl
    | inner =>
      obtain ⟨-, hcalls⟩ := Prod.mk.inj (Option.some.inj ho)
      refine ⟨?_, fun h => by cases h⟩
      rintro ⟨rb', calls, a, d, hdel', -, honce⟩
      obtain ⟨-, rfl⟩ := Prod.mk.inj (Option.some.inj (hdel.symm.trans hdel'))
      simp [hcalls, delCalls, released, rbSetDeleteFunc] at honce
    | other => cases ho

/-- Three keys, the first of them deleted. -/
theorem callsDelOnce_bottom :
    ∃ rb, exec rbStep (⟨null, cmpaddr, false⟩ : RbTree (BitVec 64) Nat)
        [.insert 1 10 (some 100), .insert 2 20 none, .insert 3 30 (some 300)] = some rb ∧
      (CallsDelOnce (rbSetDeleteFunc rb) 10 ↔ foundAtBottom cmpaddr rb.root 10 = true) := by
  have hrun : (exec rbStep (⟨null, cmpaddr, false⟩ : RbTree (BitVec 64) Nat)
      [.insert 1 10 (some 100), .insert 2 20 none, .insert 3 30 (some 300)]).map
        (fun rb => (rbSize rb, decide (10 ∈ keys rb.root))) = some (3, true) := by
    decide +kernel
  obtain ⟨rb, hrb, heq⟩ := Option.map_eq_some_iff.1 hrun
  obtain ⟨hsize, hk⟩ := Prod.mk.inj heq
  exact ⟨rb, hrb, callsDelOnce_iff cmpaddr_strictTotal.weak hrb (by omega) (of_decide_eq_true hk)⟩

/-- The key of the root is deleted: the delete function is called on null. -/
theorem callsDelOnce_inner :
    ∃ rb, exec rbStep (⟨null, cmpaddr, false⟩ : RbTree (BitVec 64) Nat)
        [.insert 1 10 (some 100), .insert 2 20 none, .insert 3 30 (some 300)] = some rb ∧
      20 ∈ keys rb.root ∧ ¬ CallsDelOnce (rbSetDeleteFunc rb) 20 := by
  have hrun : (exec rbStep (⟨null, cmpaddr, false⟩ : RbTree (BitVec 64) Nat)
      [.insert 1 10 (some 100), .insert 2 20 none, .insert 3 30 (some 300)]).map
        (fun rb => (decide (20 ∈ keys rb.root), (rbDelete (rbSetDeleteFunc rb) 20).map Prod.snd)) =
      some (true, some [.del none, .free none]) := by
    decide +kernel
  obtain ⟨rb, hrb, heq⟩ := Option.map_eq_some_iff.1 hrun
  obtain ⟨hkey, hcalls⟩ := Prod.mk.inj heq
  refine ⟨rb, hrb, of_decide_eq_true hkey, ?_⟩
  rintro ⟨rb', calls, a, d, hdel, -, honce⟩
  rw [hdel] at hcalls
  obtain rfl := Option.some.inj hcalls
  cases honce

end Resman.Rb
