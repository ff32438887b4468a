import Resman.RbMemory.Run

/-!
# The iterator in memory

`rb_next` keeps its stack in the nodes themselves, linked by their field `next`, so it writes to the
tree that it walks. Nothing else reads that field: `Relinked` is all that a walk does to memory, and
the tree stands as before.

`rbBegin_walks` says that the calls of `rb_next` return the nodes from left to right, whatever the
fields `next` hold at the start and whatever happens between the calls to the memory that is not the
tree's.
-/

namespace Resman.RbMem

open Lib
open Rb (Addr addrs nodes)

variable {K V : Type} {h h' h'' : Heap K V} {p : Option Addr} {t : Rb.RbNode K V}
  {S T : List Addr} {fuel : Nat}

/-! ## Links -/

/-- At most the fields `next` of the nodes at `S` have been written. -/
structure Relinked (S : List Addr) (h h' : Heap K V) : Prop where
  off : SameOff S h h'
  links : ∀ a n, h a = some n → ∃ next, h' a = some { n with next }

namespace Relinked

theorem refl (S : List Addr) (h : Heap K V) : Relinked S h h :=
  ⟨.refl S h, fun _ n ha => ⟨n.next, ha⟩⟩

theorem trans (hr : Relinked S h h') (hr' : Relinked S h' h'') : Relinked S h h'' := by
  refine ⟨hr.off.trans hr'.off, fun a n ha => ?_⟩
  obtain ⟨next, ha'⟩ := hr.links a n ha
  obtain ⟨next', ha''⟩ := hr'.links a _ ha'
  exact ⟨next', ha''⟩

theorem mono (hr : Relinked S h h') (hST : S ⊆ T) : Relinked T h h' := ⟨hr.off.mono hST, hr.links⟩

theorem write {a : Addr} {n : RbNode K V} (ha : h a = some n) (next : Option Addr) :
    Relinked [a] h (Function.update h a (some { n with next })) := by
  refine ⟨.update (List.mem_singleton_self a) _, fun b m hb => ?_⟩
  by_cases hba : b = a
  · subst hba
    obtain rfl := Option.some.inj (ha.symm.trans hb)
    exact ⟨next, Function.update_self ..⟩
  · exact ⟨m.next, (Function.update_of_ne hba ..).trans hb⟩

end Relinked

/-- A tree stands whatever its nodes are linked to. -/
theorem Represents.relink (hh : Represents h p t) (hr : Relinked S h h') : Represents h' p t := by
  have hholds : ∀ {t : Rb.RbNode K V}, Holds h t → Holds h' t := by
    intro t
    induction t with
    | null => exact id
    | node a c k d l r ihl ihr =>
      rintro ⟨⟨next, ha⟩, hl, hr'⟩
      exact ⟨hr.links a _ ha, ihl hl, ihr hr'⟩
  exact ⟨hh.root, hholds hh.holds, hh.nodup⟩

/-! ## The stack -/

/-- The nodes that a stack in memory still has to return: for each node on it, itself
and then its right subtree. -/
inductive Stacked (h : Heap K V) : Option Addr → List Addr → Prop
  | nil : Stacked h none []
  | cons {a n r L} : h a = some n → Represents h n.right r → Stacked h n.next L →
      Stacked h (some a) (a :: addrs r ++ L)

variable {L : List Addr}

theorem Stacked.write (hs : Stacked h p L) {a : Addr} {n : RbNode K V}
    (ha : h a = some n) (hL : a ∉ L) (next : Option Addr) :
    Stacked (Function.update h a (some { n with next })) p L := by
  induction hs with
  | nil => exact .nil
  | @cons b m r L hb hr _ ih =>
    simp only [List.cons_append, List.mem_cons, List.mem_append, not_or] at hL
    exact .cons ((Function.update_of_ne (Ne.symm hL.1) ..).trans hb)
      (hr.relink (.write ha next)) (ih hL.2.2)

theorem Stacked.frame (hs : Stacked h p L) (hsame : ∀ a ∈ L, h' a = h a) : Stacked h' p L := by
  induction hs with
  | nil => exact .nil
  | @cons b m r L hb hr _ ih =>
    simp only [List.cons_append, List.mem_cons, List.mem_append] at hsame
    exact .cons ((hsame b (.inl rfl)).trans hb)
      ⟨hr.root, hr.holds.frame fun a ha => hsame a (.inr (.inl ha)), hr.nodup⟩
      (ih fun a ha => hsame a (.inr (.inr ha)))

/-! ## Walking -/

/-- **One call of `rb_next`** returns the first of the nodes that are left: those below `rb->iter`,
and then those that the stack holds. -/
theorem rbNext_spec {rb : RbTree K V} (hiter : Represents h rb.iter t)
    (hstack : Stacked h rb.rstack L) (hnodup : (addrs t ++ L).Nodup)
    (hfuel : Rb.countNodes t < fuel) :
    (addrs t ++ L = [] ∧ rbNext fuel h rb = some (h, rb, none)) ∨
      ∃ a M h' rb' t', addrs t ++ L = a :: (addrs t' ++ M) ∧
        rbNext fuel h rb = some (h', rb', some a) ∧
        Represents h' rb'.iter t' ∧ Stacked h' rb'.rstack M ∧ Relinked (addrs t) h h' := by
  induction t generalizing h rb L fuel with
  | null =>
    obtain ⟨fuel, rfl⟩ : ∃ n, fuel = n + 1 := ⟨fuel - 1, by omega⟩
    obtain ⟨root, cmp, del, rstack, iter⟩ := rb
    obtain rfl : iter = none := hiter.root
    cases hstack with
    | nil => exact .inl ⟨rfl, rfl⟩
    | @cons a n r L ha hr hL =>
      refine .inr ⟨a, L, h, ⟨root, cmp, del, n.next, n.right⟩, r, rfl, ?_, hr, hL, .refl _ _⟩
      simp only [rbNext, ha, Option.bind_eq_bind, Option.bind_some]
      rfl
  | node a c k d l r ihl =>
    obtain ⟨fuel, rfl⟩ : ∃ n, fuel = n + 1 := ⟨fuel - 1, by omega⟩
    obtain ⟨root, cmp, del, rstack, iter⟩ := rb
    obtain ⟨rfl : iter = some a, ho⟩ := represents_node.1 hiter
    obtain ⟨next, ha⟩ := ho.read
    rw [Rb.countNodes] at hfuel
    have hsplit : addrs (.node a c k d l r) ++ L = addrs l ++ (a :: addrs r ++ L) := by
      rw [addrs_node, List.append_assoc]
    rw [hsplit] at hnodup ⊢
    -- the node is pushed: its link is written, and it waits on the stack with its right subtree
    have hw := Relinked.write ha rstack
    have haL : a ∉ L := by
      have hright := (List.nodup_append.1 hnodup).2.1
      simp only [List.cons_append, List.nodup_cons, List.mem_append, not_or] at hright
      exact hright.1.2
    have hpush : Stacked _ (some a) (a :: addrs r ++ L) :=
      .cons (Function.update_self a (some ⟨c, k, d, RbMem.root l, RbMem.root r, rstack⟩) h)
        (ho.right.relink hw) (hstack.write ha haL rstack)
    have hloop : rbNext (fuel + 1) h ⟨root, cmp, del, rstack, some a⟩ =
        rbNext fuel (Function.update h a (some ⟨c, k, d, RbMem.root l, RbMem.root r, rstack⟩))
          ⟨root, cmp, del, some a, RbMem.root l⟩ := by
      simp only [rbNext, Store.modify_some ha, Option.bind_eq_bind, Option.bind_some,
        Function.update_self]
    rw [hloop]
    have hleft : Represents _ (⟨root, cmp, del, some a, RbMem.root l⟩ : RbTree K V).iter l :=
      ho.left.relink hw
    rcases ihl hleft hpush hnodup (show Rb.countNodes l < fuel by omega) with ⟨hnil, -⟩ |
      ⟨b, M, h', rb', t', hcons, hnext, hiter', hstack', hr'⟩
    · simp at hnil
    · exact .inr ⟨b, M, h', rb', t', hcons, hnext, hiter', hstack',
        (hw.mono (by simp)).trans (hr'.mono (by simp))⟩

/-- Successive calls of `rb_next` return these nodes and then null. They write to nothing but the
links of the nodes `S`, and may find the rest of the memory changed each time. -/
inductive Walks (fuel : Nat) (S : List Addr) : Heap K V → RbTree K V → List Addr → Prop
  | nil {h rb} : rbNext fuel h rb = some (h, rb, none) → Walks fuel S h rb []
  | cons {h h' rb rb' a L} : rbNext fuel h rb = some (h', rb', some a) → Relinked S h h' →
      (∀ h'', (∀ b ∈ S, h'' b = h' b) → Walks fuel S h'' rb' L) → Walks fuel S h rb (a :: L)

theorem walks_of_stacked {N : List Addr} (rb : RbTree K V) (hiter : Represents h rb.iter t)
    (hstack : Stacked h rb.rstack L) (hN : addrs t ++ L = N) (hnodup : N.Nodup) (hS : N ⊆ S)
    (hfuel : N.length < fuel) : Walks fuel S h rb N := by
  induction N generalizing h rb t L with
  | nil =>
    have hcount : Rb.countNodes t < fuel := by
      rw [← length_addrs, (List.append_eq_nil_iff.1 hN).1]
      exact hfuel
    rcases rbNext_spec hiter hstack (hN ▸ hnodup) hcount with
      ⟨-, hnext⟩ | ⟨a, M, h', rb', t', hcons, -⟩
    · exact .nil hnext
    · rw [hN] at hcons
      cases hcons
  | cons a N ih =>
    have hcount : Rb.countNodes t < fuel := by
      have hlen := congrArg List.length hN
      rw [List.length_append, length_addrs] at hlen
      omega
    rcases rbNext_spec hiter hstack (hN ▸ hnodup) hcount with ⟨hnil, -⟩ |
      ⟨b, M, h', rb', t', hcons, hnext, hiter', hstack', hr⟩
    · rw [hN] at hnil
      cases hnil
    · rw [hN] at hcons
      obtain ⟨rfl, rfl⟩ := List.cons_eq_cons.1 hcons
      have hsub : addrs t ⊆ S := fun b hb => hS (hN ▸ List.mem_append_left L hb)
      have hrest : addrs t' ++ M ⊆ S := fun b hb => hS (List.mem_cons_of_mem _ hb)
      refine .cons hnext (hr.mono hsub) fun h'' hsame => ?_
      have hiter'' : Represents h'' rb'.iter t' :=
        ⟨hiter'.root, hiter'.holds.frame fun b hb => hsame b (hrest (List.mem_append_left _ hb)),
          hiter'.nodup⟩
      have hstack'' := hstack'.frame fun b hb => hsame b (hrest (List.mem_append_right _ hb))
      exact ih rb' hiter'' hstack'' rfl (List.nodup_cons.1 hnodup).2 hrest (Nat.lt_of_succ_lt hfuel)

theorem walks_of_represents {rb : RbTree K V} (hh : Represents h rb.root t)
    (hfuel : Rb.countNodes t < fuel) :
    Walks fuel (addrs t) h (rbBegin rb) (addrs t) :=
  walks_of_stacked (rbBegin rb) hh .nil (List.append_nil _) hh.nodup (List.Subset.refl _)
    (by rwa [length_addrs])

/-- A call of `rb_next` writes to links, whatever the tree is. -/
theorem rbNext_relinks {rb rb' : RbTree K V} {r : Option Addr}
    (h₀ : rbNext fuel h rb = some (h', rb', r)) :
    (∃ S, Relinked S h h') ∧ rb'.root = rb.root := by
  induction fuel generalizing h rb with
  | zero => cases h₀
  | succ fuel ih =>
    unfold rbNext at h₀
    split at h₀
    · obtain ⟨rfl, rfl, -⟩ : h = h' ∧ rb = rb' ∧ none = r := by simpa using h₀
      exact ⟨⟨[], .refl _ _⟩, rfl⟩
    · next a hiter =>
      simp only [Option.bind_eq_bind, Option.bind_eq_some_iff] at h₀
      obtain ⟨h₁, hmodify, n, -, hrest⟩ := h₀
      obtain ⟨⟨S, hS⟩, hroot⟩ := ih hrest
      cases ha : h a with
      | none => simp [Store.modify, ha] at hmodify
      | some m =>
        rw [Store.modify_some ha] at hmodify
        obtain rfl := Option.some.inj hmodify
        refine ⟨⟨a :: S, ?_⟩, hroot⟩
        exact ((Relinked.write ha rb.rstack).mono (by simp)).trans
          (hS.mono (List.subset_cons_self a S))
    · next a hiter hstack =>
      obtain ⟨n, -, h₀⟩ := Option.bind_eq_some_iff.1 h₀
      obtain ⟨rfl, rfl, -⟩ : h = h' ∧ { rb with rstack := n.next, iter := n.right } = rb' ∧
          some a = r := by
        simpa using h₀
      exact ⟨⟨[], .refl _ _⟩, rfl⟩

/-- **The iterator in memory.** After any run of calls, wherever an earlier walk has
stopped and whatever it has left in the links, `rb_begin` and `rb_next` return the nodes of
the tree from left to right. -/
theorem rbBegin_walks [DecidableEq K] {h₀ : Heap K V} {cmp : K → K → Int} {del : Bool}
    {ops : List (Op K V)} {m : Mem K V} (hfuel : ops.length < fuel)
    (hfresh : Along (memStep fuel) FreshMalloc (.start h₀ cmp del) ops)
    (hrun : exec (memStep fuel) (.start h₀ cmp del) ops = some m) {rb : RbTree K V}
    (hroot : rb.root = m.rb.root) (hr : Relinked S m.heap h) :
    ∃ s, exec treeStep (.start cmp del) ops = some s ∧
      Walks fuel (addrs s.rb.root) h (rbBegin rb) (addrs s.rb.root) := by
  obtain ⟨s, hs, hrel⟩ := Rel.of_right (hrun ▸ exec_related hfuel hfresh)
  have hh : Represents h rb.root s.rb.root := hroot ▸ hrel.same.represents.relink hr
  exact ⟨s, hs, walks_of_represents hh hrel.size_lt⟩

/-- Three insertions. -/
def insertsThree : List (Op (BitVec 64) Nat) :=
  [.insert (some ⟨1, none⟩) 10 (some 100), .insert (some ⟨2, some 8⟩) 20 none,
    .insert (some ⟨3, none⟩) 30 none]

/-- A walk is given up after its first node, when it has linked two, and another one begins. -/
theorem rbBegin_walks_insertsThree :
    ∃ m h rb, exec (memStep 4) (.start (fun _ => none) Rb.cmpaddr false) insertsThree = some m ∧
      rbNext 4 m.heap (rbBegin m.rb) = some (h, rb, some 1) ∧
      ∃ s, exec treeStep (.start Rb.cmpaddr false) insertsThree = some s ∧
        Walks 4 (addrs s.rb.root) h (rbBegin rb) (addrs s.rb.root) := by
  have hrun :
      ((exec (memStep 4) (.start (fun _ => none) Rb.cmpaddr false) insertsThree).any fun m =>
        (rbNext 4 m.heap (rbBegin m.rb)).any fun x => x.2.2 = some 1) = true := by
    decide +kernel
  obtain ⟨m, hm, hrun⟩ := (Option.any_eq_true _ _).1 hrun
  obtain ⟨⟨h, rb, r⟩, hnext, hr⟩ := (Option.any_eq_true _ _).1 hrun
  obtain rfl : r = some 1 := of_decide_eq_true hr
  obtain ⟨⟨S, hS⟩, hroot⟩ := rbNext_relinks hnext
  exact ⟨m, h, rb, hm, hnext, rbBegin_walks (by decide) (by decide +kernel) hm hroot hS⟩

end Resman.RbMem
