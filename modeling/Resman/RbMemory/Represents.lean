import Resman.Lib.Lockstep
import Resman.RbMemory.Basic

/-!
# Trees that are stood for in memory

`Represents h p t`: from the pointer `p` on, the nodes in memory are those of the tree `t`, at
different addresses. So a node has one owner, and what is done to one subtree leaves the others
alone (`Represents.frame`); this is what lets `Resman.Rb` take a tree as a value.

Each helper of `rbtree.c` on memory does what the function of the same name does on trees, `Steps`
says how far: the result stands for the resulting tree, and only the nodes of the tree have changed.
-/

namespace Resman.RbMem

open Lib
open Rb (Addr addrs nodes)

variable {K V : Type}

/-- The pointer to a tree. -/
def root : Rb.RbNode K V → Option Addr
  | .null => none
  | .node a .. => some a

/-- The nodes of the tree are in memory. -/
def Holds (h : Heap K V) : Rb.RbNode K V → Prop
  | .null => True
  | .node a c k d l r =>
    (∃ next, h a = some ⟨c, k, d, root l, root r, next⟩) ∧ Holds h l ∧ Holds h r

structure Represents (h : Heap K V) (p : Option Addr) (t : Rb.RbNode K V) : Prop where
  root : p = root t
  holds : Holds h t
  nodup : (addrs t).Nodup

/-- The result of an operation that may write at the addresses `S`: it stands for the tree, whose
nodes are among these. -/
structure Steps (S : List Addr) (h : Heap K V) (t : Rb.RbNode K V) (r : Heap K V × Option Addr) :
    Prop where
  represents : Represents r.1 r.2 t
  frame : SameOff S h r.1
  subset : addrs t ⊆ S

section Addresses

variable (a : Addr) (c : Bool) (k : K) (d : Option V) (l r : Rb.RbNode K V)

@[simp] theorem root_null : root (.null : Rb.RbNode K V) = none := rfl

@[simp] theorem root_node : root (.node a c k d l r) = some a := rfl

@[simp] theorem addrs_null : addrs (.null : Rb.RbNode K V) = [] := rfl

@[simp] theorem addrs_node : addrs (.node a c k d l r) = addrs l ++ a :: addrs r := by
  rw [addrs, Rb.nodes_node, List.map_append, List.map_cons]
  rfl

end Addresses

variable {h h' : Heap K V} {p : Option Addr} {t t' u : Rb.RbNode K V} {S T : List Addr}

theorem addrs_congr (hn : nodes t' = nodes t) : addrs t' = addrs t := by
  rw [addrs, addrs, hn]

/-! ## Owning the nodes -/

theorem represents_null : Represents h none (.null : Rb.RbNode K V) :=
  ⟨rfl, trivial, List.nodup_nil⟩

theorem Holds.frame (hh : Holds h t) (hsame : ∀ a ∈ addrs t, h' a = h a) : Holds h' t := by
  induction t with
  | null => trivial
  | node a c k d l r ihl ihr =>
    obtain ⟨⟨next, ha⟩, hl, hr⟩ := hh
    simp only [addrs_node, List.mem_append, List.mem_cons] at hsame
    refine ⟨⟨next, ?_⟩, ihl hl fun b hb => hsame b (.inl hb),
      ihr hr fun b hb => hsame b (.inr (.inr hb))⟩
    rw [hsame a (.inr (.inl rfl)), ha]

/-- **The frame rule**: a tree stands in memory as long as nothing is written to its nodes. -/
theorem Represents.frame (hh : Represents h p t) (hS : SameOff S h h')
    (hdis : ∀ a ∈ addrs t, a ∉ S) :
    Represents h' p t :=
  ⟨hh.root, hh.holds.frame fun a ha => hS a (hdis a ha), hh.nodup⟩

/-- A tree stands while another node is written. -/
theorem Represents.frame_write {a : Addr} (hh : Represents h p t) (hs : SameOff [a] h h')
    (ha : a ∉ addrs t) :
    Represents h' p t :=
  hh.frame hs fun _ hb hba => ha (List.mem_singleton.1 hba ▸ hb)

/-- A node in memory with a subtree on either side. -/
structure Owns (h : Heap K V) (a : Addr) (c : Bool) (k : K) (d : Option V) (l r : Rb.RbNode K V) :
    Prop where
  read : ∃ next, h a = some ⟨c, k, d, root l, root r, next⟩
  left : Represents h (root l) l
  right : Represents h (root r) r
  not_left : a ∉ addrs l
  not_right : a ∉ addrs r
  disjoint : ∀ b ∈ addrs l, b ∉ addrs r

section Node

variable {a : Addr} {c : Bool} {k : K} {d : Option V} {l r : Rb.RbNode K V}

theorem represents_node :
    Represents h p (.node a c k d l r) ↔ p = some a ∧ Owns h a c k d l r := by
  constructor
  · rintro ⟨rfl, ⟨hread, hl, hr⟩, hnodup⟩
    rw [addrs_node, List.nodup_append] at hnodup
    obtain ⟨hnl, hnr, hdis⟩ := hnodup
    obtain ⟨har, hnr⟩ := List.nodup_cons.1 hnr
    exact ⟨rfl, hread, ⟨rfl, hl, hnl⟩, ⟨rfl, hr, hnr⟩,
      fun ha => hdis a ha a List.mem_cons_self rfl, har,
      fun b hb hbr => hdis b hb b (List.mem_cons_of_mem _ hbr) rfl⟩
  · rintro ⟨rfl, ho⟩
    refine ⟨rfl, ⟨ho.read, ho.left.holds, ho.right.holds⟩, ?_⟩
    rw [addrs_node, List.nodup_append]
    refine ⟨ho.left.nodup, List.nodup_cons.2 ⟨ho.not_right, ho.right.nodup⟩,
      fun b hb b' hb' heq => ?_⟩
    subst heq
    rcases List.mem_cons.1 hb' with rfl | hb'
    · exact ho.not_left hb
    · exact ho.disjoint b hb hb'

theorem Represents.owns (hh : Represents h p (.node a c k d l r)) : Owns h a c k d l r :=
  (represents_node.1 hh).2

theorem Owns.represents (ho : Owns h a c k d l r) : Represents h (some a) (.node a c k d l r) :=
  represents_node.2 ⟨rfl, ho⟩

/-- An address that is not in use is not that of a node. -/
theorem Represents.not_mem (hh : Represents h p t) {b : Addr} (hb : h b = none) : b ∉ addrs t := by
  have hmem : ∀ {t : Rb.RbNode K V}, Holds h t → b ∉ addrs t := by
    intro t
    induction t with
    | null => exact fun _ => List.not_mem_nil
    | node a c k d l r ihl ihr =>
      rintro ⟨⟨next, ha⟩, hl, hr⟩ hmem
      rw [addrs_node, List.mem_append, List.mem_cons] at hmem
      rcases hmem with hmem | rfl | hmem
      · exact ihl hl hmem
      · rw [hb] at ha
        cases ha
      · exact ihr hr hmem
  exact hmem hh.holds

theorem Represents.used (hh : Represents h p t) {b : Addr} (hb : b ∈ addrs t) :
    h b ≠ none := fun hnone =>
  hh.not_mem hnone hb

end Node

/-! ## Composing steps -/

theorem Steps.refl (hh : Represents h p t) : Steps (addrs t) h t (h, p) :=
  ⟨hh, .refl _ _, List.Subset.refl _⟩

theorem Steps.mono {r : Heap K V × Option Addr} (hs : Steps S h t r) (hST : S ⊆ T) :
    Steps T h t r :=
  ⟨hs.represents, hs.frame.mono hST, List.Subset.trans hs.subset hST⟩

theorem Steps.trans {r r' : Heap K V × Option Addr} (hs : Steps S h t r)
    (hs' : Steps (addrs t) r.1 t' r') :
    Steps S h t' r' :=
  ⟨hs'.represents, hs.frame.trans (hs'.frame.mono hs.subset),
    List.Subset.trans hs'.subset hs.subset⟩

/-- One operation after another. -/
theorem Steps.bind {x : Option (Rb.RbNode K V)} {y : Option (Heap K V × Option Addr)}
    {f : Rb.RbNode K V → Option (Rb.RbNode K V)}
    {g : Heap K V × Option Addr → Option (Heap K V × Option Addr)} (hx : Option.Rel (Steps S h) x y)
    (hf : ∀ t r, Represents r.1 r.2 t → Option.Rel (Steps (addrs t) r.1) (f t) (g r)) :
    Option.Rel (Steps S h) (x.bind f) (y.bind g) :=
  rel_bind hx fun t r hs => rel_mono (hf t r hs.represents) fun _ _ hs' => hs.trans hs'

/-! ## Putting a subtree back -/

section Put

variable {a : Addr} {c : Bool} {k : K} {d : Option V} {l r : Rb.RbNode K V}
  {x : Heap K V × Option Addr}

/-- The colour, the key and the data of a node are assigned. -/
theorem Owns.assign (ho : Owns h a c k d l r) {c' : Bool} {k' : K} {d' : Option V}
    {f : RbNode K V → RbNode K V}
    (hf : ∀ next, f ⟨c, k, d, RbMem.root l, RbMem.root r, next⟩ =
      ⟨c', k', d', RbMem.root l, RbMem.root r, next⟩) :
    ∃ h', h.modify (some a) f = some h' ∧
      Steps (addrs l ++ a :: addrs r) h (.node a c' k' d' l r) (h', some a) := by
  obtain ⟨next, hread⟩ := ho.read
  obtain ⟨h', hw, hread', hs⟩ := Store.modify_spec f hread
  rw [hf] at hread'
  refine ⟨h', hw, Owns.represents ⟨⟨next, hread'⟩, ho.left.frame_write hs ho.not_left,
    ho.right.frame_write hs ho.not_right, ho.not_left, ho.not_right, ho.disjoint⟩,
      hs.mono (by simp), ?_⟩
  rw [addrs_node]
  exact List.Subset.refl _

/-- `tree->left` is assigned what an operation on the left subtree has returned. -/
theorem Owns.putLeft (ho : Owns h a c k d l r) (hs : Steps S h t x) (ha : a ∉ S)
    (hr : ∀ b ∈ addrs r, b ∉ S) :
    ∃ h', x.1.modify (some a) (fun n => { n with left := x.2 }) = some h' ∧ SameOff [a] x.1 h' ∧
      Steps (S ++ a :: addrs r) h (.node a c k d t r) (h', some a) := by
  obtain ⟨next, hread⟩ := ho.read
  obtain ⟨h', hw, hread', hs'⟩ :=
    Store.modify_spec (fun n => { n with left := x.2 }) ((hs.frame a ha).trans hread)
  have hat : a ∉ addrs t := fun hmem => ha (hs.subset hmem)
  refine ⟨h', hw, hs', Owns.represents ⟨⟨next, ?_⟩, ?_, ?_, hat, ho.not_right, ?_⟩, ?_, ?_⟩
  · rw [← hs.represents.root]
    exact hread'
  · rw [← hs.represents.root]
    exact hs.represents.frame_write hs' hat
  · exact (ho.right.frame hs.frame hr).frame_write hs' ho.not_right
  · exact fun b hb hbr => hr b hbr (hs.subset hb)
  · exact (hs.frame.mono (by simp)).trans (hs'.mono (by simp))
  · rw [addrs_node]
    exact List.append_subset.2 ⟨List.Subset.trans hs.subset (by simp), by simp⟩

/-- `tree->right` is assigned what an operation on the right subtree has returned. -/
theorem Owns.putRight (ho : Owns h a c k d l r) (hs : Steps S h t x) (ha : a ∉ S)
    (hl : ∀ b ∈ addrs l, b ∉ S) :
    ∃ h', x.1.modify (some a) (fun n => { n with right := x.2 }) = some h' ∧ SameOff [a] x.1 h' ∧
      Steps (addrs l ++ a :: S) h (.node a c k d l t) (h', some a) := by
  obtain ⟨next, hread⟩ := ho.read
  obtain ⟨h', hw, hread', hs'⟩ :=
    Store.modify_spec (fun n => { n with right := x.2 }) ((hs.frame a ha).trans hread)
  have hat : a ∉ addrs t := fun hmem => ha (hs.subset hmem)
  refine ⟨h', hw, hs', Owns.represents ⟨⟨next, ?_⟩, ?_, ?_, ho.not_left, hat, ?_⟩, ?_, ?_⟩
  · rw [← hs.represents.root]
    exact hread'
  · exact (ho.left.frame hs.frame hl).frame_write hs' ho.not_left
  · rw [← hs.represents.root]
    exact hs.represents.frame_write hs' hat
  · exact fun b hb hbt => hl b hb (hs.subset hbt)
  · exact (hs.frame.mono (by simp)).trans (hs'.mono (by simp))
  · rw [addrs_node]
    exact List.append_subset.2 ⟨by simp, List.cons_subset.2
      ⟨by simp, List.Subset.trans hs.subset (by simp)⟩⟩

end Put

end Resman.RbMem
