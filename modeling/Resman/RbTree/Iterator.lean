import Resman.RbTree.Allocator

/-!
# The iterator

`rb_begin` and `rb_next` walk a tree with an explicit stack: `rstack` is its top, and each node on
it links to the one below by its field `next`. That field is not part of a tree here; `IterTree`
holds the links of all nodes beside the tree, by address. The tree does not change during a walk, so
a pointer into it is the subtree there.

`rbBegin_enumerates` says that the calls of `rb_next` return the nodes from left to right, whatever
an earlier walk has left in the links. That needs different nodes to have different addresses, which
an allocator that returns no address in use guarantees along every run (`run_nodup`).
-/

namespace Resman.Rb

open RbNode
open Lib (exec Along exec_invariant)

variable {K V : Type}

structure IterTree (K V : Type) where
  rb : RbTree K V
  rstack : RbNode K V
  iter : RbNode K V
  next : Addr → RbNode K V

def rbBegin (t : IterTree K V) : IterTree K V := { t with rstack := null, iter := t.rb.root }

/-- The loop of `rb_next`: while there is a node, it is pushed and its left child is next; then the
top of the stack is popped and returned. -/
def nextLoop (rb : RbTree K V) :
    RbNode K V → RbNode K V → (Addr → RbNode K V) → RbNode K V × IterTree K V
  | node a c k d l r, rstack, next =>
    nextLoop rb l (node a c k d l r) (Function.update next a rstack)
  | null, node a c k d l r, next => (node a c k d l r, ⟨rb, next a, r, next⟩)
  | null, null, next => (null, ⟨rb, null, null, next⟩)

def rbNext (t : IterTree K V) : RbNode K V × IterTree K V := nextLoop t.rb t.iter t.rstack t.next

/-- A node by address, key and data. -/
def RbNode.entry : RbNode K V → Option (Addr × K × Option V)
  | null => none
  | node a _ k d _ _ => some (a, k, d)

/-- Successive calls return these nodes, and then null for ever. -/
inductive Enumerates : IterTree K V → List (Addr × K × Option V) → Prop
  | nil {t} : rbNext t = (null, t) → Enumerates t []
  | cons {t t' u e L} : rbNext t = (u, t') → u.entry = some e → Enumerates t' L →
      Enumerates t (e :: L)

/-! ## The stack -/

/-- The nodes that a stack still has to return: for each node on it, itself and
then its right subtree. -/
inductive Pending (next : Addr → RbNode K V) : RbNode K V → List (Addr × K × Option V) → Prop
  | nil : Pending next null []
  | cons {a c k d l r L} : Pending next (next a) L →
      Pending next (node a c k d l r) ((a, k, d) :: nodes r ++ L)

variable {next : Addr → RbNode K V} {rb : RbTree K V} {rstack iter : RbNode K V}
  {L : List (Addr × K × Option V)}

/-- A link of a node that is not on the stack may change. -/
theorem Pending.update (h : Pending next rstack L) {a : Addr} (ha : a ∉ L.map Prod.fst)
    (u : RbNode K V) :
    Pending (Function.update next a u) rstack L := by
  induction h with
  | nil => exact .nil
  | @cons b c k d l r L _ ih =>
    simp only [List.cons_append, List.map_cons, List.map_append, List.mem_cons,
      List.mem_append, not_or] at ha
    have hb : Function.update next a u b = next b := Function.update_of_ne (Ne.symm ha.1) ..
    exact .cons (by rw [hb]; exact ih ha.2.2)

/-- **One call** returns the first of the nodes that are left. -/
theorem nextLoop_spec (rb : RbTree K V) (h : Pending next rstack L)
    (hnodup : ((nodes iter ++ L).map Prod.fst).Nodup) :
    (nodes iter ++ L = [] ∧ nextLoop rb iter rstack next = (null, ⟨rb, null, null, next⟩)) ∨
      ∃ e M u t', nodes iter ++ L = e :: (nodes t'.iter ++ M) ∧
        nextLoop rb iter rstack next = (u, t') ∧
        u.entry = some e ∧ t'.rb = rb ∧ Pending t'.next t'.rstack M := by
  induction iter generalizing rstack next L with
  | null =>
    cases h with
    | nil => exact .inl ⟨rfl, rfl⟩
    | @cons a c k d l r L hL => exact .inr ⟨(a, k, d), L, _, _, rfl, rfl, rfl, rfl, hL⟩
  | node a c k d l r ihl =>
    have hsplit : nodes (node a c k d l r) ++ L = nodes l ++ ((a, k, d) :: nodes r ++ L) := by
      rw [nodes_node, List.append_assoc]
    rw [hsplit] at hnodup ⊢
    have ha : a ∉ L.map Prod.fst := by
      simp only [List.map_append, List.map_cons, List.cons_append, List.nodup_append,
        List.nodup_cons, List.mem_append, not_or] at hnodup
      exact hnodup.2.1.1.2
    have hpush : Pending (Function.update next a rstack) (node a c k d l r)
        ((a, k, d) :: nodes r ++ L) := by
      refine .cons ?_
      rw [Function.update_self]
      exact h.update ha rstack
    rcases ihl hpush hnodup with ⟨hnil, -⟩ | hcall
    · simp at hnil
    · exact .inr hcall

theorem enumerates_of_pending {t : IterTree K V} (h : Pending t.next t.rstack L)
    (hnodup : ((nodes t.iter ++ L).map Prod.fst).Nodup) : Enumerates t (nodes t.iter ++ L) := by
  generalize hN : nodes t.iter ++ L = N at hnodup
  induction N generalizing t L with
  | nil =>
    rcases nextLoop_spec t.rb h (hN ▸ hnodup) with ⟨hnil, hnext⟩ | ⟨e, M, u, t', hcons, -⟩
    · obtain ⟨hiter, rfl⟩ := List.append_eq_nil_iff.1 hnil
      have hnull : t.iter = null ∧ t.rstack = null := by
        constructor
        · cases ht : t.iter with
          | null => rfl
          | node => rw [ht] at hiter; simp [nodes] at hiter
        · cases hs : t.rstack with
          | null => rfl
          | node => rw [hs] at h; cases h
      obtain ⟨rb, rstack, iter, next⟩ := t
      obtain ⟨rfl, rfl⟩ := hnull
      exact .nil hnext
    · rw [hN] at hcons
      cases hcons
  | cons e N ih =>
    rcases nextLoop_spec t.rb h (hN ▸ hnodup) with
      ⟨hnil, -⟩ | ⟨e', M, u, t', hcons, hnext, hentry, -, hM⟩
    · rw [hN] at hnil
      cases hnil
    · rw [hN] at hcons
      obtain ⟨rfl, hrest⟩ := List.cons_eq_cons.1 hcons
      rw [List.map_cons] at hnodup
      exact .cons hnext hentry (ih hM hrest.symm (List.nodup_cons.1 hnodup).2)

/-- **The iterator** returns the nodes from left to right, wherever an earlier walk has stopped. -/
theorem rbBegin_enumerates {t : IterTree K V} (h : (addrs t.rb.root).Nodup) :
    Enumerates (rbBegin t) (nodes t.rb.root) := by
  have henum := enumerates_of_pending (t := rbBegin t) (L := []) .nil (by rwa [List.append_nil])
  rwa [List.append_nil] at henum

/-! ## Addresses along a run -/

section Runs

variable [DecidableEq K]

/-- What the allocator returns is not in use. -/
def FreshAlloc (rb : RbTree K V) : RbOp K V → Prop
  | .insert a k _ => callsAlloc rb.cmp rb.root k = true → a ∉ addrs rb.root
  | .delete _ => True

instance (rb : RbTree K V) : ∀ op, Decidable (FreshAlloc rb op)
  | .insert a k _ =>
    inferInstanceAs (Decidable (callsAlloc rb.cmp rb.root k = true → a ∉ addrs rb.root))
  | .delete _ => isTrue trivial

/-- No node of the tree is new, so no two addresses become one. -/
theorem rbDelete_nodup {n : Nat} (hn : LL rb.root false n)
    (hnodup : (addrs rb.root).Nodup) {key : K} {rb' : RbTree K V} {calls : List (Call K V)}
    (hdel : rbDelete rb key = some (rb', calls)) :
    (∃ n, LL rb'.root false n) ∧ (addrs rb'.root).Nodup := by
  have h2 : 2 ≤ rbSize rb := by
    by_contra h2
    rw [rbDelete_last (by omega)] at hdel
    cases hdel
  obtain ⟨hends, hshape⟩ := rbDelete_ends hn h2 key
  refine ⟨(hshape rb' calls hdel).2, ?_⟩
  rw [hdel, Option.map_some] at hends
  generalize ho : some (nodes rb'.root, calls) = o at hends
  generalize ending rb.cmp rb.root key = b at hends
  cases hends with
  | bottom hsplit =>
    rw [addrs, (Prod.mk.inj (Option.some.inj ho)).1]
    rw [addrs, hsplit] at hnodup
    exact hnodup.sublist (((List.sublist_cons_self _ _).append_left _).map _)
  | inner hsplit =>
    rw [addrs, (Prod.mk.inj (Option.some.inj ho)).1]
    rw [addrs, hsplit] at hnodup
    refine hnodup.sublist ?_
    simp only [List.map_append, List.map_cons]
    exact ((List.sublist_cons_self _ _).cons_cons _).append_left _
  | lost => cases ho

theorem run_nodup {cmp : K → K → Int} {del : Bool} {ops : List (RbOp K V)}
    (hrun : exec rbStep ⟨null, cmp, del⟩ ops = some rb)
    (hfresh : Along rbStep FreshAlloc ⟨null, cmp, del⟩ ops) :
    (addrs rb.root).Nodup := by
  have h0 : (∃ n, LL (null : RbNode K V) false n) ∧ (addrs (null : RbNode K V)).Nodup :=
    ⟨⟨0, .leaf⟩, List.nodup_nil⟩
  refine (exec_invariant (I := fun rb : RbTree K V => (∃ n, LL rb.root false n) ∧
    (addrs rb.root).Nodup) h0 ?_ hfresh hrun).2
  rintro rb op rb' ⟨⟨n, hn⟩, hnodup⟩ hop hstep
  cases op with
  | insert a k d =>
    obtain ⟨root, n', hins, hn', -, hperm⟩ := rbInsert_addrs hn a k d
    obtain rfl := Option.some.inj (hins.symm.trans hstep)
    refine ⟨⟨n', hn'⟩, hperm.nodup_iff.2 ?_⟩
    cases hcall : callsAlloc rb.cmp rb.root k with
    | true => exact List.nodup_cons.2 ⟨hop hcall, hnodup⟩
    | false => exact hnodup
  | delete k =>
    obtain ⟨p, hdel, rfl⟩ := Option.map_eq_some_iff.1 hstep
    exact rbDelete_nodup hn hnodup hdel

end Runs

end Resman.Rb
