import Resman.RbTree.Allocator
import Resman.RbTree.IntKeys

/-!
# Integer keys over the full range

`cmpint` subtracts two `int` values, and when the difference is not one (`NoOverflow`) its sign is
the wrong one. A search that passes such a key goes the wrong way. `intMap_iff` is the exact
condition for the tree to be a map in the order of the integers: no insertion passes such a key,
since a key on the wrong side of another stays there for ever, and no search for a key with data
does in the tree that is left.

`cmpsigned` is the order of the integers. As long as the condition holds it compares as `cmpint`
does along every path (`Fits`), and the run is one of a tree with that comparison (`exec_fits`).
-/

namespace Resman.Rb

open RbNode
open Lib (StrictTotal WeakOrder Sorted exec Along exec_cons_eq_some along_cons)

variable {V : Type}

/-! ## The comparison -/

/-- Pointers in the order of signed numbers. -/
def cmpsigned (a b : BitVec 64) : Int := a.toInt - b.toInt

theorem cmpsigned_strictTotal : StrictTotal cmpsigned where
  eq_of_zero := by
    intro a b h
    rw [cmpsigned] at h
    exact BitVec.toInt_inj.1 (by omega)
  self a := by rw [cmpsigned]; omega
  swap := by
    intro a b
    rw [cmpsigned, cmpsigned]
    omega
  trans := by
    intro a b c h₁ h₂
    rw [cmpsigned] at *
    omega

/-- The difference of two keys is an `int`. -/
def NoOverflow (a b : BitVec 64) : Prop := -2 ^ 31 ≤ cmpsigned a b ∧ cmpsigned a b < 2 ^ 31

instance (a : BitVec 64) : DecidablePred (NoOverflow a) := fun b =>
  inferInstanceAs (Decidable (-2 ^ 31 ≤ cmpsigned a b ∧ cmpsigned a b < 2 ^ 31))

/-- `INT2PTR` keeps a number. -/
theorem toInt_int2ptr (x : BitVec 32) : (int2ptr x).toInt = x.toInt :=
  BitVec.toInt_signExtend_of_le (by omega)

/-- The wrapped difference is the difference, or it has the wrong sign. -/
theorem cmpint_wraps (x y : BitVec 32) :
    (NoOverflow (int2ptr x) (int2ptr y) ∧
      cmpint (int2ptr x) (int2ptr y) = cmpsigned (int2ptr x) (int2ptr y)) ∨
      ¬ NoOverflow (int2ptr x) (int2ptr y) ∧
        (0 < cmpsigned (int2ptr x) (int2ptr y) ∧ cmpint (int2ptr x) (int2ptr y) < 0 ∨
          cmpsigned (int2ptr x) (int2ptr y) < 0 ∧ 0 < cmpint (int2ptr x) (int2ptr y)) := by
  have hx := BitVec.toInt_lt (x := x)
  have hx' := BitVec.le_toInt (x := x)
  have hy := BitVec.toInt_lt (x := y)
  have hy' := BitVec.le_toInt (x := y)
  rw [NoOverflow, cmpsigned, toInt_int2ptr, toInt_int2ptr, cmpint, ptr2int_int2ptr, ptr2int_int2ptr,
    BitVec.toInt_sub, Int.bmod_def]
  omega

/-! ## The path of a search -/

/-- The search for a key, as the code makes it, compares it without overflow. -/
def Fits (key : BitVec 64) (t : RbNode (BitVec 64) V) : Prop := OnPath cmpint key (NoOverflow key) t

instance (key : BitVec 64) (t : RbNode (BitVec 64) V) : Decidable (Fits key t) :=
  inferInstanceAs (Decidable (OnPath cmpint key (NoOverflow key) t))

/-- All keys are integers. -/
def IntNodes (xs : List (Addr × BitVec 64 × Option V)) : Prop := ∀ e ∈ xs, ∃ x, e.2.1 = int2ptr x

section Path

variable {x : BitVec 32} {t : RbNode (BitVec 64) V}

theorem Fits.onPath (h : Fits (int2ptr x) t) (ht : IntNodes (nodes t)) :
    OnPath cmpint (int2ptr x) (fun k => cmpint (int2ptr x) k = cmpsigned (int2ptr x) k) t := by
  refine h.imp fun e he hfit => ?_
  obtain ⟨y, hy⟩ := ht e he
  rw [hy] at hfit ⊢
  rcases cmpint_wraps x y with ⟨-, heq⟩ | ⟨hnot, -⟩
  · exact heq
  · exact absurd hfit hnot

/-- **A search that overflows** in a sorted tree finds nothing, and it ends on
the wrong side of a key. -/
theorem search_overflow (h : ¬ Fits (int2ptr x) t) (ht : IntNodes (nodes t))
    (hs : InOrder cmpsigned (nodes t)) :
    ∃ xs ys, SearchGap cmpint (int2ptr x) t xs ys ∧
      ((∃ e ∈ xs, cmpsigned (int2ptr x) e.2.1 < 0) ∨
        ∃ e ∈ ys, 0 < cmpsigned (int2ptr x) e.2.1) := by
  have hc := cmpsigned_strictTotal
  induction t with
  | null => exact absurd trivial h
  | node a c k d l r ihl ihr =>
    obtain ⟨y, rfl⟩ := ht (a, k, d) (by simp [nodes])
    have htl : IntNodes (nodes l) := fun e he => ht e (by simp [nodes, he])
    have htr : IntNodes (nodes r) := fun e he => ht e (by simp [nodes, he])
    obtain ⟨hsl, hrest, hlt⟩ := List.pairwise_append.1 hs
    obtain ⟨hgt, hsr⟩ := List.pairwise_cons.1 hrest
    -- on the wrong side no key is equal
    have hgap : ∀ {u : RbNode (BitVec 64) V}, IntNodes (nodes u) →
        (∀ e ∈ nodes u, cmpsigned (int2ptr x) e.2.1 ≠ 0) →
        ∃ xs ys, SearchGap cmpint (int2ptr x) u xs ys := by
      intro u hu hne
      refine (search_cases cmpint (int2ptr x) u).resolve_left ?_
      rintro ⟨xs, e, ys, hat⟩
      obtain ⟨z, hz⟩ := hu e hat.mem
      have heq : x = z := cmpint_int2ptr_eq_zero.1 (hz ▸ hat.equal)
      exact hne e hat.mem (by rw [hz, heq]; exact cmpsigned_strictTotal.self _)
    rcases cmpint_wraps x y with ⟨hfit, heq⟩ | ⟨-, ⟨hpos, hneg⟩ | ⟨hneg, hpos⟩⟩
    · rcases Int.lt_trichotomy (cmpint (int2ptr x) (int2ptr y)) 0 with hlt₀ | hz | hgt₀
      · have hl : ¬ Fits (int2ptr x) l := fun hl => h ⟨hfit, by rw [if_pos hlt₀]; exact hl⟩
        obtain ⟨xs, ys, hsearch, hwrong⟩ := ihl hl htl hsl
        refine ⟨xs, _, .left hlt₀ hsearch, hwrong.imp_right ?_⟩
        rintro ⟨e, he, hpos⟩
        exact ⟨e, List.mem_append_left _ he, hpos⟩
      · exact absurd ⟨hfit, by rw [if_neg (by omega), if_neg (by omega)]; trivial⟩ h
      · have hr : ¬ Fits (int2ptr x) r := fun hr =>
          h ⟨hfit, by rw [if_neg (by omega), if_pos hgt₀]; exact hr⟩
        obtain ⟨xs, ys, hsearch, hwrong⟩ := ihr hr htr hsr
        refine ⟨_, ys, .right hgt₀ hsearch, hwrong.imp_left ?_⟩
        rintro ⟨e, he, hneg⟩
        exact ⟨e, List.mem_append_right _ (List.mem_cons_of_mem _ he), hneg⟩
    · have hl : ∀ e ∈ nodes l, cmpsigned (int2ptr x) e.2.1 ≠ 0 := fun e he =>
        (hc.swap.1 (hc.trans (hlt e he _ List.mem_cons_self) (hc.swap.2 hpos))).ne'
      obtain ⟨xs, ys, hsearch⟩ := hgap htl hl
      exact ⟨xs, _, .left hneg hsearch, .inr ⟨(a, int2ptr y, d), by simp, hpos⟩⟩
    · have hr : ∀ e ∈ nodes r, cmpsigned (int2ptr x) e.2.1 ≠ 0 := fun e he =>
        (hc.trans hneg (hgt e he)).ne
      obtain ⟨xs, ys, hsearch⟩ := hgap htr hr
      exact ⟨_, ys, .right hpos hsearch, .inl ⟨(a, int2ptr y, d), by simp, hneg⟩⟩

end Path

/-! ## Runs -/

/-- A call of `rb_inserti`. -/
def intStep (rb : RbTree (BitVec 64) V) (e : Addr × BitVec 32 × Option V) :
    Option (RbTree (BitVec 64) V) :=
  rbInserti rb (some e.1) e.2.1 e.2.2

/-- The same calls as calls of `rb_insert`. -/
def intOps (ins : List (Addr × BitVec 32 × Option V)) : List (RbOp (BitVec 64) V) :=
  ins.map fun e => .insert e.1 (int2ptr e.2.1) e.2.2

/-- The keys that `rb_foreach` visits are in strictly increasing order as integers. -/
def Increasing (rb : RbTree (BitVec 64) V) : Prop :=
  ((rbForeach rb).map fun e => (ptr2int e.1).toInt).Pairwise (· < ·)

/-- After these insertions the tree is the map of the last data under each key. -/
def IntMap (ins : List (Addr × BitVec 32 × Option V)) : Prop :=
  ∃ rb, exec intStep (rbCreate cmpint) ins = some rb ∧ Increasing rb ∧
    ∀ x d, stored (intOps ins) (int2ptr x) = some d → rbFindi rb x = d

/-- A tree whose order is that of the integers. -/
structure IntOrder (rb : RbTree (BitVec 64) V) : Prop where
  cmp : rb.cmp = cmpint
  ints : IntNodes (nodes rb.root)
  wf : WF { rb with cmp := cmpsigned }

section Runs

variable {rb rb' : RbTree (BitVec 64) V} {e : Addr × BitVec 32 × Option V}
  {ins : List (Addr × BitVec 32 × Option V)}

theorem IntOrder.create : IntOrder (rbCreate cmpint : RbTree (BitVec 64) V) where
  cmp := rfl
  ints e he := by cases he
  wf := WF.create cmpsigned_strictTotal false

theorem IntOrder.increasing (h : IntOrder rb) : Increasing rb := by
  rw [Increasing, List.pairwise_map]
  refine h.wf.sorted.imp_of_mem fun {e e'} he he' hlt => ?_
  have hint : ∀ e ∈ traverse rb.root, (ptr2int e.1).toInt = e.1.toInt := by
    intro e he
    rw [traverse_eq, List.mem_map] at he
    obtain ⟨n, hn, rfl⟩ := he
    obtain ⟨x, hx⟩ := h.ints n hn
    rw [hx, ptr2int_int2ptr, toInt_int2ptr]
  have hlt' : cmpsigned e.1 e'.1 < 0 := hlt
  rw [hint e he, hint e' he']
  rw [cmpsigned] at hlt'
  omega

/-- An insertion that fits is one in the order of the integers. -/
theorem intStep_fits (h : IntOrder rb) (hfit : Fits (int2ptr e.2.1) rb.root)
    (hs : intStep rb e = some rb') :
    IntOrder rb' ∧ rbStep { rb with cmp := cmpsigned } (.insert e.1 (int2ptr e.2.1) e.2.2) =
      some { rb' with cmp := cmpsigned } := by
  have hins : insert rb.cmp (some e.1) rb.root (int2ptr e.2.1) e.2.2 =
      insert cmpsigned (some e.1) rb.root (int2ptr e.2.1) e.2.2 := by
    rw [h.cmp]
    exact insert_congr _ _ (hfit.onPath h.ints)
  simp only [intStep, rbInserti, rbInsert, hins, bind, Option.bind_eq_some_iff] at hs
  obtain ⟨t, ht, u, hu, heq⟩ := hs
  obtain rfl := Option.some.inj heq
  have hstep : rbInsert { rb with cmp := cmpsigned } (some e.1) (int2ptr e.2.1) e.2.2 =
      some { root := u, cmp := cmpsigned, del := rb.del } := by
    simp [rbInsert, ht, hu]
  obtain ⟨rb'', hstep', hwf, -, htrav⟩ := rbInsert_spec h.wf e.1 (int2ptr e.2.1) e.2.2
  obtain rfl := Option.some.inj (hstep'.symm.trans hstep)
  refine ⟨⟨h.cmp, fun n hn => ?_, hwf⟩, hstep⟩
  have hmem : n.2 ∈ traverse u := by
    rw [traverse_eq]
    exact List.mem_map_of_mem hn
  rw [show traverse u = _ from htrav, Lib.mem_put cmpsigned_strictTotal] at hmem
  rcases hmem with heq | ⟨hold, -⟩
  · exact ⟨e.2.1, by rw [heq]⟩
  · rw [traverse_eq, List.mem_map] at hold
    obtain ⟨m, hm, hmn⟩ := hold
    obtain ⟨y, hy⟩ := h.ints m hm
    exact ⟨y, by rw [← hmn, hy]⟩

/-- **The run in the order of the integers.** -/
theorem exec_fits (h : IntOrder rb)
    (hfit : Along intStep (fun rb e => Fits (int2ptr e.2.1) rb.root) rb ins)
    (hrun : exec intStep rb ins = some rb') :
    IntOrder rb' ∧ exec rbStep { rb with cmp := cmpsigned } (intOps ins) =
      some { rb' with cmp := cmpsigned } := by
  induction ins generalizing rb with
  | nil =>
    obtain rfl := Option.some.inj hrun
    exact ⟨h, rfl⟩
  | cons e ins ih =>
    obtain ⟨m, hm, hrest⟩ := exec_cons_eq_some.1 hrun
    obtain ⟨he, hfit'⟩ := along_cons.1 hfit
    obtain ⟨hI, hstep⟩ := intStep_fits h he hm
    obtain ⟨hI', hexec⟩ := ih hI (hfit' m hm) hrest
    exact ⟨hI', exec_cons_eq_some.2 ⟨_, hstep, hexec⟩⟩

/-- An insertion keeps the nodes in their order, whatever the comparison. -/
theorem intStep_sublist (h : ∃ n, LL rb.root false n) :
    ∃ rb', intStep rb e = some rb' ∧ (∃ n, LL rb'.root false n) ∧
      (keys rb.root).Sublist (keys rb'.root) := by
  obtain ⟨n, hn⟩ := h
  rcases search_cases rb.cmp (int2ptr e.2.1) rb.root with ⟨xs, e', ys, hat⟩ | ⟨xs, ys, hgap⟩
  · refine ⟨_, rbInsert_stored hn (some e.1) e.2.2 hat, ⟨n, hn.setAt ..⟩, ?_⟩
    rw [keys_eq_map, keys_eq_map, nodes_setAt _ hat, hat.split]
    simp
  · obtain ⟨root, n', hins, hnodes, hn'⟩ := rbInsert_new hn e.1 e.2.2 hgap
    refine ⟨_, hins, ⟨n', hn'⟩, ?_⟩
    rw [keys_eq_map, keys_eq_map, hnodes, hgap.split]
    exact ((List.sublist_cons_self _ ys).append_left xs).map _

theorem increasing_iff : Increasing rb ↔
    ((keys rb.root).map fun k => (ptr2int k).toInt).Pairwise (· < ·) := by
  rw [Increasing, keys, List.map_map]
  rfl

/-- **An insertion that overflows** puts its key on the wrong side of another. -/
theorem intStep_overflow (h : IntOrder rb) (hfit : ¬ Fits (int2ptr e.2.1) rb.root)
    (hs : intStep rb e = some rb') :
    ¬ Increasing rb' := by
  obtain ⟨n, hn⟩ : ∃ n, LL rb.root false n := h.wf.shape
  obtain ⟨xs, ys, hgap, hwrong⟩ := search_overflow hfit h.ints h.wf.weak.sorted
  rw [← h.cmp] at hgap
  obtain ⟨root, n', hins, hnodes, -⟩ := rbInsert_new hn e.1 e.2.2 hgap
  obtain rfl := Option.some.inj (hins.symm.trans hs)
  rw [increasing_iff, keys_eq_map, hnodes, List.map_map, List.pairwise_map]
  intro hinc
  obtain ⟨-, hrest, hbefore⟩ := List.pairwise_append.1 hinc
  have hint : ∀ n ∈ xs ++ ys, (ptr2int n.2.1).toInt = n.2.1.toInt := by
    intro n hn
    obtain ⟨y, hy⟩ := h.ints n (hgap.split ▸ hn)
    rw [hy, ptr2int_int2ptr, toInt_int2ptr]
  rcases hwrong with ⟨n, hnx, hneg⟩ | ⟨n, hny, hpos⟩
  · have hlt := hbefore n hnx _ List.mem_cons_self
    simp only [Function.comp, hint n (List.mem_append_left _ hnx), ptr2int_int2ptr] at hlt
    rw [cmpsigned, toInt_int2ptr] at hneg
    omega
  · have hlt := (List.pairwise_cons.1 hrest).1 n hny
    simp only [Function.comp, hint n (List.mem_append_right _ hny), ptr2int_int2ptr] at hlt
    rw [cmpsigned, toInt_int2ptr] at hpos
    omega

/-- A key that was out of order stays so. -/
theorem Increasing.of_exec (hinc : Increasing rb') (h : ∃ n, LL rb.root false n)
    (hrun : exec intStep rb ins = some rb') :
    Increasing rb := by
  have hsub := Lib.exec_invariant' (I := fun m : RbTree (BitVec 64) V =>
      (∃ n, LL m.root false n) ∧ (keys rb.root).Sublist (keys m.root)) ⟨h, .refl _⟩ (by
    rintro m e m' ⟨hm, hsub⟩ hs
    obtain ⟨m'', hs', hm', hsub'⟩ := intStep_sublist (e := e) hm
    obtain rfl := Option.some.inj (hs'.symm.trans hs)
    exact ⟨hm', hsub.trans hsub'⟩) hrun
  rw [increasing_iff] at hinc ⊢
  exact hinc.sublist (hsub.2.map _)

/-- What a search finds in a tree in the order of the integers. -/
theorem IntOrder.find (h : IntOrder rb) {x : BitVec 32} {d : Option V}
    (hmem : (int2ptr x, d) ∈ traverse rb.root) :
    rbFindi rb x = if Fits (int2ptr x) rb.root then d else none := by
  rw [rbFindi, rbFind, h.cmp]
  split
  · next hfit =>
    rw [find_congr (hfit.onPath h.ints)]
    exact find_of_mem cmpsigned_strictTotal h.wf.sorted hmem
  · next hfit =>
    obtain ⟨xs, ys, hgap, -⟩ := search_overflow hfit h.ints h.wf.weak.sorted
    exact hgap.find

theorem allowed_intOps (rb : RbTree (BitVec 64) V) (ins : List (Addr × BitVec 32 × Option V)) :
    Along rbStep Allowed rb (intOps ins) := by
  refine Lib.along_iff_forall.2 fun pre op m hpre _ => ?_
  have hop : op ∈ intOps ins := hpre.subset (by simp)
  obtain ⟨e, -, rfl⟩ := List.mem_map.1 hop
  trivial

/-- Every insertion goes through. -/
theorem exec_intStep (ins : List (Addr × BitVec 32 × Option V)) :
    ∃ rb, exec intStep (rbCreate cmpint) ins = some rb := by
  have hstep : ∀ (m : RbTree (BitVec 64) V) e, (∃ n, LL m.root false n) → True →
      ∃ m', intStep m e = some m' ∧ ∃ n, LL m'.root false n :=
    fun m e hm _ => (intStep_sublist hm).imp fun _ h => ⟨h.1, h.2.1⟩
  exact Lib.exec_total (C := fun _ _ => True) hstep ⟨0, .leaf⟩ (Lib.along_true _ ins)

/-- The keys are in order at the end exactly when no insertion has compared across an overflow. -/
theorem increasing_iff_fits (hrb : exec intStep (rbCreate cmpint) ins = some rb) :
    Increasing rb ↔ Along intStep (fun rb e => Fits (int2ptr e.2.1) rb.root)
      (rbCreate cmpint) ins := by
  have hall : (∀ pre m, pre <+: ins → exec intStep (rbCreate cmpint) pre = some m → Increasing m) ↔
      _ :=
    Lib.forall_prefix_iff_along (D := fun _ _ => True) (I := IntOrder) (fun _ h => h.increasing)
      (fun _ _ _ h _ hfit hs => (intStep_fits h hfit hs).1)
      (fun _ _ _ h _ hfit hs => intStep_overflow h hfit hs) .create (Lib.along_true _ ins) hrb
  rw [← hall]
  constructor
  · intro hinc pre m hpre hm
    obtain ⟨rest, rfl⟩ := hpre
    rw [Lib.exec_append, hm, Option.bind_some] at hrb
    refine hinc.of_exec ?_ hrb
    exact Lib.exec_invariant' (I := fun m : RbTree (BitVec 64) V => ∃ n, LL m.root false n)
      ⟨0, .leaf⟩ (fun m e m' hm hs => by
        obtain ⟨m'', hs', hm', -⟩ := intStep_sublist (e := e) hm
        exact Option.some.inj (hs'.symm.trans hs) ▸ hm') hm
  · exact fun hall => hall ins rb List.prefix_rfl hrb

/-- Then a search finds the last data, unless it compares across an overflow itself. -/
theorem find_stored (hrb : exec intStep (rbCreate cmpint) ins = some rb) (hinc : Increasing rb)
    {x : BitVec 32} {d : Option V} (hst : stored (intOps ins) (int2ptr x) = some d) :
    rbFindi rb x = if Fits (int2ptr x) rb.root then d else none := by
  obtain ⟨hI, hexec⟩ := exec_fits .create ((increasing_iff_fits hrb).1 hinc) hrb
  obtain ⟨-, -, hmap⟩ := entries_of_run cmpsigned_strictTotal false (allowed_intOps _ ins) hexec
  exact hI.find ((hmap _ _).2 hst)

/-- **Integer keys.** A sequence of insertions into a tree of `RB_KEY_INT` ends in the map of the
last data under each integer, visited in increasing order, exactly when no insertion compares its
key, on the path of its search, with one whose distance is not an `int`, and no search for a key
with data does in the end. -/
theorem intMap_iff :
    IntMap ins ↔ Along intStep (fun rb e => Fits (int2ptr e.2.1) rb.root) (rbCreate cmpint) ins ∧
      ∀ rb, exec intStep (rbCreate cmpint) ins = some rb →
        ∀ x v, stored (intOps ins) (int2ptr x) = some (some v) → Fits (int2ptr x) rb.root := by
  constructor
  · rintro ⟨rb, hrb, hinc, hlook⟩
    refine ⟨(increasing_iff_fits hrb).1 hinc, fun rb' hrb' x v hst => ?_⟩
    obtain rfl := Option.some.inj (hrb.symm.trans hrb')
    by_contra hfit
    have hnone := (find_stored hrb hinc hst).symm.trans (hlook x _ hst)
    rw [if_neg hfit] at hnone
    cases hnone
  · rintro ⟨halong, hlook⟩
    obtain ⟨rb, hrb⟩ := exec_intStep ins
    have hinc := (increasing_iff_fits hrb).2 halong
    refine ⟨rb, hrb, hinc, fun x d hst => ?_⟩
    rw [find_stored hrb hinc hst]
    split
    · rfl
    · next hfit =>
      cases d with
      | none => rfl
      | some v => exact absurd (hlook rb hrb x v hst) hfit

end Runs

/-- `INT_MIN` is inserted after 1, and goes to the right of it. -/
theorem not_intMap_min : ¬ IntMap [(1, 1, some 100), (2, BitVec.intMin 32, some 200)] := by
  rintro ⟨rb, hrb, hinc, -⟩
  have hkeys :
      (exec intStep (rbCreate cmpint) [(1, 1, some 100), (2, BitVec.intMin 32, some 200)]).map
      (fun rb => (rbForeach rb).map fun e => (ptr2int e.1).toInt) = some [1, -2 ^ 31] := by
    decide +kernel
  rw [hrb, Option.map_some, Option.some.injEq] at hkeys
  rw [Increasing, hkeys] at hinc
  revert hinc
  decide

end Resman.Rb
