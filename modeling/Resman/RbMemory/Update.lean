import Resman.RbMemory.Helpers

/-!
# Insertion and deletion in memory

`insert_sim`, `delMin_sim`, `delete_sim`: with fuel for every node, a recursion in memory and the
one on the tree that stands there have both no result, or both one, and then the new tree stands in
memory. The only addresses written are those of the tree and of the new node. The fuel is never what
is missing.
-/

namespace Resman.RbMem

open Lib
open Rb (Addr addrs nodes)

variable {K V : Type} {h : Heap K V} {p : Option Addr} {t u : Rb.RbNode K V} {S : List Addr}

/-! ## Insertion -/

/-- The address of a new node, if there is one. -/
def newAddrs (new : Option NewNode) : List Addr := (new.map NewNode.addr).toList

/-- What `malloc` returns is not in use. -/
def Fresh (h : Heap K V) (new : Option NewNode) : Prop := ∀ n ∈ new, h n.addr = none

theorem Fresh.not_mem {new : Option NewNode} (hnew : Fresh h new) {a : Addr} {n : RbNode K V}
    (ha : h a = some n) :
    a ∉ newAddrs new := by
  intro hmem
  obtain ⟨m, hm, rfl⟩ := Option.map_eq_some_iff.1 (Option.mem_toList.1 hmem)
  rw [hnew m hm] at ha
  cases ha

theorem Fresh.disjoint {new : Option NewNode} (hnew : Fresh h new) (hh : Represents h p t) :
    ∀ a ∈ addrs t, a ∉ newAddrs new := by
  intro a ha hmem
  obtain ⟨m, hm, rfl⟩ := Option.map_eq_some_iff.1 (Option.mem_toList.1 hmem)
  exact hh.not_mem (hnew m hm) ha

/-- The subtree that an operation has returned is put back, and the tree is fixed up. -/
theorem fixLeft_sim {a : Addr} {c : Bool} {k : K} {d : Option V} {l r t' : Rb.RbNode K V}
    {x : Heap K V × Option Addr} (ho : Owns h a c k d l r) (hs : Steps (addrs t') h t' x)
    (ha : a ∉ addrs t') (hr : ∀ b ∈ addrs r, b ∉ addrs t') :
    Option.Rel (fun u y => Steps (addrs u) h u y ∧ addrs u = addrs t' ++ a :: addrs r)
      (Rb.fixUp (.node a c k d t' r))
      ((x.1.modify (some a) fun n => { n with left := x.2 }).bind fun h => fixUp h (some a)) := by
  obtain ⟨h', hput, -, hs'⟩ := ho.putLeft hs ha hr
  rw [hput, Option.bind_some]
  refine rel_mono_of_eq (fixUp_sim hs'.represents) fun u y heq _ hs'' => ?_
  have haddrs : addrs u = addrs t' ++ a :: addrs r :=
    (addrs_congr (Rb.nodes_fixUp heq)).trans (addrs_node ..)
  exact ⟨haddrs ▸ hs'.trans hs'', haddrs⟩

theorem fixRight_sim {a : Addr} {c : Bool} {k : K} {d : Option V} {l r t' : Rb.RbNode K V}
    {x : Heap K V × Option Addr} (ho : Owns h a c k d l r) (hs : Steps (addrs t') h t' x)
    (ha : a ∉ addrs t') (hl : ∀ b ∈ addrs l, b ∉ addrs t') :
    Option.Rel (fun u y => Steps (addrs u) h u y ∧ addrs u = addrs l ++ a :: addrs t')
      (Rb.fixUp (.node a c k d l t'))
      ((x.1.modify (some a) fun n => { n with right := x.2 }).bind fun h => fixUp h (some a)) := by
  obtain ⟨h', hput, -, hs'⟩ := ho.putRight hs ha hl
  rw [hput, Option.bind_some]
  refine rel_mono_of_eq (fixUp_sim hs'.represents) fun u y heq _ hs'' => ?_
  have haddrs : addrs u = addrs l ++ a :: addrs t' :=
    (addrs_congr (Rb.nodes_fixUp heq)).trans (addrs_node ..)
  exact ⟨haddrs ▸ hs'.trans hs'', haddrs⟩

/-- What an insertion comes to: the new tree stands in memory, only its nodes are written, and they
are those of the tree before with at most the new one. -/
structure Inserts (new : Option NewNode) (h : Heap K V) (t t' : Rb.RbNode K V)
    (r : Heap K V × Option Addr) :
    Prop where
  steps : Steps (addrs t') h t' r
  subset : addrs t' ⊆ newAddrs new ++ addrs t

/-- A node that is not the new one and not in the tree is not in the tree afterwards. -/
theorem Inserts.not_mem {new : Option NewNode} {t' : Rb.RbNode K V} {r : Heap K V × Option Addr}
    (hi : Inserts new h t t' r) {a : Addr} (hnew : a ∉ newAddrs new) (ha : a ∉ addrs t) :
    a ∉ addrs t' := fun hmem =>
  (List.mem_append.1 (hi.subset hmem)).elim hnew ha

/-- **Insertion in memory** is insertion into the tree. -/
theorem insert_sim {cmp : K → K → Int} {new : Option NewNode} {key : K}
    {data : Option V} {fuel : Nat} (hnew : Fresh h new) (hh : Represents h p t)
    (hfuel : Rb.countNodes t < fuel) :
    Option.Rel (Inserts new h t) (Rb.insert cmp (new.map NewNode.addr) t key data)
      (insert cmp new fuel h p key data) := by
  induction t generalizing p fuel with
  | null =>
    obtain ⟨fuel, rfl⟩ : ∃ n, fuel = n + 1 := ⟨fuel - 1, by omega⟩
    obtain ⟨rfl, -, -⟩ := hh
    cases new with
    | none => exact .none
    | some node =>
      have halloc := Store.alloc_eq (n := ⟨true, key, data, none, none, node.next⟩) (hnew node rfl)
      simp only [root_null, insert, Option.bind_eq_bind, Option.bind_some, halloc]
      refine .some
        ⟨⟨represents_node.2 ⟨rfl,
          ⟨⟨node.next, Function.update_self ..⟩, represents_null, represents_null,
        List.not_mem_nil, List.not_mem_nil, fun b hb => ?_⟩⟩, .update (by simp) _,
          List.Subset.refl _⟩,
        by simp [newAddrs]⟩
      cases hb
  | node a c k d l r ihl ihr =>
    obtain ⟨fuel, rfl⟩ : ∃ n, fuel = n + 1 := ⟨fuel - 1, by omega⟩
    rw [Rb.countNodes] at hfuel
    obtain ⟨rfl, ho⟩ := represents_node.1 hh
    obtain ⟨next, hread⟩ := ho.read
    have ha := hnew.not_mem hread
    simp only [insert, Option.bind_eq_bind, hread, Option.bind_some]
    rw [Rb.insert]
    refine rel_ite (fun _ => ?_) fun _ => rel_ite (fun _ => ?_) fun _ => ?_
    · refine rel_bind (ihl ho.left (by omega)) fun l' x hi => ?_
      have hr : ∀ b ∈ addrs r, b ∉ addrs l' := fun b hb =>
        hi.not_mem (hnew.disjoint ho.right b hb) fun hbl => ho.disjoint b hbl hb
      refine rel_mono (fixLeft_sim ho hi.steps (hi.not_mem ha ho.not_left) hr)
        fun u y hu => ⟨hu.1, fun b hb => ?_⟩
      have hb' := @hi.subset b
      simp only [hu.2, addrs_node, List.mem_append, List.mem_cons] at hb hb' ⊢
      tauto
    · refine rel_bind (ihr ho.right (by omega)) fun r' x hi => ?_
      have hl : ∀ b ∈ addrs l, b ∉ addrs r' := fun b hb =>
        hi.not_mem (hnew.disjoint ho.left b hb) (ho.disjoint b hb)
      refine rel_mono (fixRight_sim ho hi.steps (hi.not_mem ha ho.not_right) hl)
        fun u y hu => ⟨hu.1, fun b hb => ?_⟩
      have hb' := @hi.subset b
      simp only [hu.2, addrs_node, List.mem_append, List.mem_cons] at hb hb' ⊢
      tauto
    · obtain ⟨h', hw, hs⟩ := ho.assign (f := fun n => { n with data }) (fun _ => rfl)
      rw [hw, Option.bind_some]
      refine rel_mono_of_eq (fixUp_sim hs.represents) fun u y heq _ hs' => ?_
      have haddrs : addrs u = addrs l ++ a :: addrs r :=
        (addrs_congr (Rb.nodes_fixUp heq)).trans (addrs_node ..)
      refine ⟨haddrs ▸ hs.trans hs', ?_⟩
      rw [haddrs, addrs_node]
      exact List.subset_append_right _ _

/-! ## Deletion -/

/-- The result of a deletion, with the calls that are made: the nodes that the tree has lost are out
of use if they have been freed, and only then. -/
structure StepsCalls (S : List Addr) (h : Heap K V) (x : Rb.RbNode K V × List (Rb.Call K V))
    (y : Heap K V × Option Addr × List (Rb.Call K V)) : Prop where
  steps : Steps S h x.1 (y.1, y.2.1)
  calls : y.2.2 = x.2
  settled : ∀ a ∈ S, a ∉ addrs x.1 → (y.1 a = none ↔ .free (some a) ∈ x.2)

theorem Steps.transCalls {r : Heap K V × Option Addr} (hs : Steps S h t r) (hS : addrs t = S)
    {x : Option (Rb.RbNode K V × List (Rb.Call K V))}
    {y : Option (Heap K V × Option Addr × List (Rb.Call K V))}
    (hxy : Option.Rel (StepsCalls (addrs t) r.1) x y) : Option.Rel (StepsCalls S h) x y :=
  rel_mono hxy fun _ _ hs' => ⟨hs.trans hs'.steps, hs'.calls, fun a ha => hs'.settled a (hS ▸ ha)⟩

/-- What `free` leaves at the address of a pointer. -/
def freed (h : Heap K V) : Option Addr → Heap K V
  | none => h
  | some a => Function.update h a none

theorem release_some (del : Bool) {a : Addr} {n : RbNode K V} (hread : h a = some n) :
    release del h (some a) = some (freed h (some a),
      (if del then [.del (some (a, n.key, n.data))] else []) ++ [.free (some a)]) := by
  simp only [release, entry, hread, Option.map_some, Option.bind_eq_bind, Option.bind_some,
    Store.free_some hread]
  rfl

theorem release_eq (del : Bool) (hh : Represents h p t) :
    release del h p = some (freed h p, Rb.release del t) := by
  cases t with
  | null =>
    obtain ⟨rfl, -, -⟩ := hh
    rfl
  | node a c k d l r =>
    obtain ⟨rfl, ho⟩ := represents_node.1 hh
    obtain ⟨next, hread⟩ := ho.read
    exact release_some del hread

theorem sameOff_freed (hh : Represents h p t) : SameOff (addrs t) h (freed h p) := by
  cases t with
  | null =>
    obtain ⟨rfl, -, -⟩ := hh
    exact .refl _ _
  | node a c k d l r =>
    obtain ⟨rfl, -⟩ := represents_node.1 hh
    exact .update (by simp) _

/-- Only the root of a tree is freed when the tree is released. -/
theorem freed_eq_none (del : Bool) (hh : Represents h p t) {a : Addr} (ha : h a ≠ none) :
    freed h p a = none ↔ .free (some a) ∈ Rb.release del t := by
  cases t with
  | null =>
    obtain ⟨rfl, -, -⟩ := hh
    cases del <;> simp [freed, Rb.release, ha]
  | node b c k d l r =>
    obtain ⟨rfl, -⟩ := represents_node.1 hh
    by_cases hab : a = b
    · subst hab
      cases del <;> simp [freed, Rb.release]
    · cases del <;> simp [freed, Rb.release, ha, hab]

/-- A subtree is released and null takes the place of the tree. -/
theorem stepsCalls_release (del : Bool) {q : Option Addr} (hh : Represents h p t)
    (hq : Represents h q u) (hsub : addrs u ⊆ addrs t) :
    StepsCalls (addrs t) h (.null, Rb.release del u) (freed h q, none, Rb.release del u) :=
  ⟨⟨represents_null, (sameOff_freed hq).mono hsub, List.nil_subset _⟩, rfl,
    fun _ ha _ => freed_eq_none del hq fun hnone => hh.not_mem hnone ha⟩

section FixUpWith

variable {a : Addr} {c : Bool} {k : K} {d : Option V} {l r : Rb.RbNode K V}
  {x : Rb.RbNode K V × List (Rb.Call K V)} {y : Heap K V × Option Addr × List (Rb.Call K V)}

theorem fixLeftWith_sim (ho : Owns h a c k d l r) (hs : StepsCalls (addrs l) h x y) :
    Option.Rel (StepsCalls (addrs (.node a c k d l r)) h)
      (Rb.fixUpWith (fun l => .node a c k d l r) x)
      (fixUpWith (fun l n => { n with left := l }) (some a) y) := by
  obtain ⟨h₁, hw, hsame, hs₁⟩ :=
    ho.putLeft hs.steps ho.not_left fun b hb hbl => ho.disjoint b hbl hb
  simp only [Rb.fixUpWith, fixUpWith, hw, Option.bind_eq_bind, Option.bind_some, Option.map_eq_bind]
  refine rel_bind_of_eq (fixUp_sim hs₁.represents) fun t' z heq _ hs₂ => ?_
  have haddrs := addrs_congr (Rb.nodes_fixUp heq)
  refine .some ⟨(hs₁.trans hs₂).mono (by simp), hs.calls, fun b hb hbt => ?_⟩
  rw [haddrs] at hbt
  have hkept : z.1 b = h₁ b := hs₂.frame b hbt
  simp only [addrs_node, List.mem_append, List.mem_cons, not_or] at hb hbt
  rw [hkept, hsame b (by simp [hbt.2.1])]
  exact hs.settled b (by tauto) hbt.1

theorem fixRightWith_sim (ho : Owns h a c k d l r) (hs : StepsCalls (addrs r) h x y) :
    Option.Rel (StepsCalls (addrs (.node a c k d l r)) h)
      (Rb.fixUpWith (fun r => .node a c k d l r) x)
      (fixUpWith (fun r n => { n with right := r }) (some a) y) := by
  obtain ⟨h₁, hw, hsame, hs₁⟩ := ho.putRight hs.steps ho.not_right ho.disjoint
  simp only [Rb.fixUpWith, fixUpWith, hw, Option.bind_eq_bind, Option.bind_some, Option.map_eq_bind]
  refine rel_bind_of_eq (fixUp_sim hs₁.represents) fun t' z heq _ hs₂ => ?_
  have haddrs := addrs_congr (Rb.nodes_fixUp heq)
  refine .some ⟨(hs₁.trans hs₂).mono (by simp), hs.calls, fun b hb hbt => ?_⟩
  rw [haddrs] at hbt
  have hkept : z.1 b = h₁ b := hs₂.frame b hbt
  simp only [addrs_node, List.mem_append, List.mem_cons, not_or] at hb hbt
  rw [hkept, hsame b (by simp [hbt.2.1])]
  exact hs.settled b (by tauto) hbt.2.2

end FixUpWith

theorem isNone_eq (hh : Represents h p t) : p.isNone = t.isNull := by
  obtain ⟨rfl, -, -⟩ := hh
  cases t <;> rfl

/-- The case that the result of a step is a node. -/
def onNode {β : Type} (f : Addr → Bool → K → Option V → Rb.RbNode K V → Rb.RbNode K V → Option β) :
    Option (Rb.RbNode K V) → Option β
  | some (.node a c k d l r) => f a c k d l r
  | _ => none

/-- After a step the work goes on at the root, if there is one. -/
theorem onNode_sim {β γ : Type} {Q : β → γ → Prop} {x : Option (Rb.RbNode K V)}
    {y : Option (Heap K V × Option Addr)}
    {f : Addr → Bool → K → Option V → Rb.RbNode K V → Rb.RbNode K V → Option β}
    {g : Heap K V × Option Addr → Option γ} (hxy : Option.Rel (Steps S h) x y)
    (hnull : ∀ h', g (h', none) = none)
    (hnode : ∀ a c k d l r h', x = some (.node a c k d l r) →
      Steps S h (.node a c k d l r) (h', some a) →
      Owns h' a c k d l r → Option.Rel Q (f a c k d l r) (g (h', some a))) :
    Option.Rel Q (onNode f x) (y.bind g) := by
  cases hxy with
  | none => exact .none
  | @some t z hs =>
    obtain ⟨h', p'⟩ := z
    have hh : Represents h' p' t := hs.represents
    cases t with
    | null =>
      obtain ⟨rfl, -, -⟩ := hh
      rw [Option.bind_some, root_null, hnull]
      exact .none
    | node a c k d l r =>
      obtain ⟨rfl, ho⟩ := represents_node.1 hh
      exact hnode a c k d l r h' rfl hs ho

/-- **`del_min` in memory**. -/
theorem delMin_sim (del : Bool) {fuel : Nat} (hh : Represents h p t)
    (hfuel : Rb.countNodes t < fuel) :
    Option.Rel (StepsCalls (addrs t) h) (Rb.delMin del t) (delMin del fuel h p) := by
  induction fuel generalizing h p t with
  | zero => omega
  | succ fuel ih =>
    cases t with
    | null =>
      obtain ⟨rfl, -, -⟩ := hh
      rw [Rb.delMin]
      exact .none
    | node a c k d l r =>
      obtain ⟨rfl, ho⟩ := represents_node.1 hh
      obtain ⟨next, hread⟩ := ho.read
      rw [Rb.delMin_node]
      simp only [delMin, Store.load_some, hread, Option.bind_eq_bind, Option.bind_some,
        isNone_eq ho.left]
      refine rel_ite (fun _ => ?_) fun _ => ?_
      · simp only [release_eq del ho.left, Option.bind_some]
        exact .some (stepsCalls_release del hh ho.left (by simp))
      · refine onNode_sim (pushLeft_sim hh) (fun _ => rfl) fun a' c' k' d' l' r' h' heq hs ho' =>
          hs.transCalls (addrs_congr (Rb.nodes_pushLeft heq)) ?_
        have hsize := Rb.countNodes_pushLeft heq
        simp only [Rb.countNodes] at hsize hfuel
        obtain ⟨next', hread'⟩ := ho'.read
        simp only [Store.load_some, hread', Option.bind_some]
        exact rel_bind (ih ho'.left (by omega)) fun x y hxy => fixLeftWith_sim ho' hxy

/-- The node that `find_min` leads to has the key and the data of the leftmost node. -/
theorem findMin_sim {fuel : Nat} (hh : Represents h p t) (hfuel : Rb.countNodes t < fuel) :
    (t = .null ∧ (findMin fuel h p).bind h.load = none) ∨
      ∃ a c k d l r m, Rb.findMin t = .node a c k d l r ∧ (findMin fuel h p).bind h.load = some m ∧
        m.key = k ∧
        m.data = d := by
  induction t generalizing p fuel with
  | null =>
    obtain ⟨rfl, -, -⟩ := hh
    exact .inl ⟨rfl, rfl⟩
  | node a c k d l r ihl =>
    obtain ⟨fuel, rfl⟩ : ∃ n, fuel = n + 1 := ⟨fuel - 1, by omega⟩
    obtain ⟨rfl, ho⟩ := represents_node.1 hh
    obtain ⟨next, hread⟩ := ho.read
    rw [Rb.countNodes] at hfuel
    simp only [findMin, findMinLoop, hread, Option.bind_eq_bind, Option.bind_some]
    cases l with
    | null =>
      refine .inr ⟨a, c, k, d, .null, r, ⟨c, k, d, none, root r, next⟩, rfl, ?_, rfl, rfl⟩
      simp only [root_null, Option.pure_def, Option.map_some, Option.bind_some,
        Store.load_some, hread]
    | node al cl kl dl ll rl =>
      exact .inr ((ihl ho.left (show Rb.countNodes _ < fuel by omega)).resolve_left
        fun hnull => by cases hnull.1)

/-- **`delete` in memory**. -/
theorem delete_sim [DecidableEq K] {cmp : K → K → Int} (del : Bool) {key : K} {fuel : Nat}
    (hh : Represents h p t) (hfuel : Rb.countNodes t < fuel) :
    Option.Rel (StepsCalls (addrs t) h) (Rb.delete cmp del t key)
      (delete cmp del fuel h p key) := by
  induction fuel generalizing h p t with
  | zero => omega
  | succ fuel ih =>
    cases t with
    | null =>
      obtain ⟨rfl, -, -⟩ := hh
      rw [Rb.delete]
      exact .some ⟨⟨represents_null, .refl _ _, List.Subset.refl _⟩, rfl, fun _ ha => by cases ha⟩
    | node a c k d l r =>
      obtain ⟨rfl, ho⟩ := represents_node.1 hh
      obtain ⟨next, hread⟩ := ho.read
      rw [Rb.delete_node]
      simp only [delete, hread, Option.bind_eq_bind, Option.bind_some]
      refine rel_ite (fun _ => ?_) fun _ => ?_
      · refine onNode_sim (pushLeft_sim hh) (fun _ => rfl) fun a' c' k' d' l' r' h' heq hs ho' =>
          hs.transCalls (addrs_congr (Rb.nodes_pushLeft heq)) ?_
        have hsize := Rb.countNodes_pushLeft heq
        simp only [Rb.countNodes] at hsize hfuel
        obtain ⟨next', hread'⟩ := ho'.read
        simp only [Store.load_some, hread', Option.bind_some]
        exact rel_bind (ih ho'.left (by omega)) fun x y hxy => fixLeftWith_sim ho' hxy
      · refine rel_bind_of_eq (leanRight_sim hh) fun t₁ z heq _ hs =>
          hs.transCalls (addrs_congr (Rb.nodes_leanRight heq)) ?_
        obtain ⟨h₁, p₁⟩ := z
        have hh₁ : Represents h₁ p₁ t₁ := hs.represents
        have hsize₁ := Rb.countNodes_leanRight heq
        cases t₁ with
        | null => simp only [Rb.countNodes] at hsize₁; omega
        | node a₁ c₁ k₁ d₁ l₁ r₁ =>
          obtain ⟨rfl, ho₁⟩ := represents_node.1 hh₁
          obtain ⟨next₁, hread₁⟩ := ho₁.read
          simp only [Store.load_some, hread₁, Option.bind_some, Rb.right_node, Option.all_some,
            isNone_eq ho₁.right]
          refine rel_ite (fun _ => ?_) fun _ => ?_
          · simp only [release_eq del hh₁, Option.bind_some]
            exact .some (stepsCalls_release del hh₁ hh₁ (List.Subset.refl _))
          · refine onNode_sim (pushRight_sim hh₁) (fun _ => rfl)
                fun a' c' k' d' l' r' h' heq' hs' ho' =>
              hs'.transCalls (addrs_congr (Rb.nodes_pushRight heq')) ?_
            have hsize' := Rb.countNodes_pushRight heq'
            simp only [Rb.countNodes] at hsize₁ hsize' hfuel
            obtain ⟨next', hread'⟩ := ho'.read
            simp only [Store.load_some, hread', Option.bind_some]
            refine rel_ite (fun _ => ?_) fun _ => ?_
            · rw [← Option.bind_assoc]
              rcases findMin_sim ho'.right (show Rb.countNodes r' < fuel by omega) with
                ⟨rfl, hmin⟩ | ⟨am, cm, km, dm, lm, rm, m, heqm, hmin, rfl, rfl⟩
              · rw [hmin]
                exact .none
              · rw [heqm, hmin, Option.bind_some]
                obtain ⟨h'', hw, hs''⟩ :=
                  ho'.assign (f := fun n => { n with key := m.key, data := m.data }) (fun _ => rfl)
                have ho'' : Owns h'' a' c' m.key m.data l' r' := hs''.represents.owns
                rw [hw, Option.bind_some]
                have hdel := delMin_sim del ho''.right (show Rb.countNodes r' < fuel by omega)
                rw [addrs_node]
                exact hs''.transCalls (addrs_node ..)
                  (rel_bind hdel fun x y hxy => fixRightWith_sim ho'' hxy)
            · exact rel_bind (ih ho'.right (by omega)) fun x y hxy => fixRightWith_sim ho' hxy

end Resman.RbMem
