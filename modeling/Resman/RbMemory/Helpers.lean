import Resman.RbMemory.Represents
import Resman.RbTree.Order

/-!
# The helpers in memory

Rotations, colour flips and the tests between them do in memory what they do on trees. They only
relink and recolour the nodes of the tree that they get, so each is a step within its addresses.
-/

namespace Resman.RbMem

open Lib
open Rb (Addr addrs nodes)

variable {K V : Type} {h : Heap K V} {p : Option Addr} {t : Rb.RbNode K V}

/-! ## Tests -/

theorem isRed_eq (hh : Represents h p t) : isRed h p = some (Rb.isRed t) := by
  obtain ⟨rfl, hh, -⟩ := hh
  cases t with
  | null => rfl
  | node a c k d l r =>
    obtain ⟨⟨next, ha⟩, -⟩ := hh
    rw [root_node, isRed, ha]
    rfl

/-- Nothing can be read through the pointer to an empty tree. -/
theorem load_eq_none (hh : Represents h p t) : h.load p = none ↔ t = .null := by
  obtain ⟨rfl, hh, -⟩ := hh
  cases t with
  | null => simp
  | node a c k d l r =>
    obtain ⟨⟨next, ha⟩, -⟩ := hh
    simp [ha]

/-- The tree to which a pointer of a node leads. -/
theorem load_left (hh : Represents h p t) :
    Option.Rel (fun l n => Represents h n.left l) t.left (h.load p) := by
  cases t with
  | null => rw [(load_eq_none hh).2 rfl]; exact .none
  | node a c k d l r =>
    obtain ⟨rfl, ho⟩ := represents_node.1 hh
    obtain ⟨next, ha⟩ := ho.read
    rw [Store.load_some, ha]
    exact .some ho.left

theorem load_right (hh : Represents h p t) :
    Option.Rel (fun r n => Represents h n.right r) t.right (h.load p) := by
  cases t with
  | null => rw [(load_eq_none hh).2 rfl]; exact .none
  | node a c k d l r =>
    obtain ⟨rfl, ho⟩ := represents_node.1 hh
    obtain ⟨next, ha⟩ := ho.read
    rw [Store.load_some, ha]
    exact .some ho.right

theorem redLeftLeft_eq (hh : Represents h p t) : redLeftLeft h p = Rb.redLeftLeft t := by
  cases t with
  | null => obtain ⟨rfl, -, -⟩ := hh; rfl
  | node a c k d l r =>
    obtain ⟨rfl, ho⟩ := represents_node.1 hh
    obtain ⟨next, ha⟩ := ho.read
    simp only [redLeftLeft, Rb.redLeftLeft, Store.load_some, ha, Rb.left_node, Option.bind_eq_bind,
      Option.bind_some, isRed_eq ho.left]
    split
    · cases l with
      | null => rfl
      | node al cl kl dl ll rl =>
        obtain ⟨nextl, hl⟩ := ho.left.owns.read
        simp only [root_node, Store.load_some, hl, Option.bind_some, isRed_eq ho.left.owns.left]
        rfl
    · rfl

theorem redBoth_eq (hh : Represents h p t) : redBoth h p = Rb.redBoth t := by
  cases t with
  | null => obtain ⟨rfl, -, -⟩ := hh; rfl
  | node a c k d l r =>
    obtain ⟨rfl, ho⟩ := represents_node.1 hh
    obtain ⟨next, ha⟩ := ho.read
    simp only [redBoth, Rb.redBoth, Store.load_some, ha, Rb.left_node, Rb.right_node,
      Option.bind_eq_bind, Option.bind_some, isRed_eq ho.left, isRed_eq ho.right]
    cases Rb.isRed l <;> rfl

/-! ## Relinking and recolouring -/

/-- The nodes of a tree are in memory again, after writes at a few of them. -/
theorem Holds.off {S : List Addr} {h' : Heap K V} (hh : Holds h t) (hS : SameOff S h h')
    (hdis : ∀ a ∈ addrs t, a ∉ S) : Holds h' t :=
  hh.frame fun a ha => hS a (hdis a ha)

section Writes

variable {a b al ar : Addr} {n m nl nr : RbNode K V}

theorem colorFlip_some (ha : h a = some n) (hal : h al = some nl) (har : h ar = some nr)
    (hleft : n.left = some al) (hright : n.right = some ar) (hl : al ≠ a)
    (hr : ar ≠ a) (hlr : ar ≠ al) :
    ∃ h', colorFlip h (some a) = some h' ∧ h' a = some { n with red := !n.red } ∧
      h' al = some { nl with red := !nl.red } ∧ h' ar = some { nr with red := !nr.red } ∧
      SameOff [a, al, ar] h h' := by
  obtain ⟨h₁, hw₁, ha₁, hs₁⟩ := Store.modify_spec (fun n => { n with red := !n.red }) ha
  have hal₁ : h₁ al = some nl := (hs₁ al (by simp [hl])).trans hal
  obtain ⟨h₂, hw₂, hal₂, hs₂⟩ := Store.modify_spec (fun n => { n with red := !n.red }) hal₁
  have ha₂ : h₂ a = some { n with red := !n.red } := (hs₂ a (by simp [hl.symm])).trans ha₁
  have har₂ : h₂ ar = some nr := (hs₂ ar (by simp [hlr])).trans ((hs₁ ar (by simp [hr])).trans har)
  obtain ⟨h₃, hw₃, har₃, hs₃⟩ := Store.modify_spec (fun n => { n with red := !n.red }) har₂
  refine ⟨h₃, ?_, (hs₃ a (by simp [hr.symm])).trans ha₂, (hs₃ al (by simp [hlr.symm])).trans hal₂,
    har₃, ?_⟩
  · simp only [colorFlip, flipRed, hw₁, Option.bind_eq_bind, Option.bind_some, Store.load_some,
      ha₁, hleft, hw₂, ha₂, hright, hw₃]
  · exact ((hs₁.mono (by simp)).trans (hs₂.mono (by simp))).trans (hs₃.mono (by simp))

theorem rotLeft_some (ha : h a = some n) (hb : h b = some m) (hright : n.right = some b)
    (hne : b ≠ a) :
    ∃ h', rotLeft h (some a) = some (h', some b) ∧
      h' a = some { n with right := m.left, red := true } ∧
      h' b = some { m with left := some a, red := n.red } ∧ SameOff [a, b] h h' := by
  obtain ⟨h₁, hw₁, ha₁, hs₁⟩ := Store.modify_spec (fun n => { n with right := m.left }) ha
  have hb₁ : h₁ b = some m := (hs₁ b (by simp [hne])).trans hb
  obtain ⟨h₂, hw₂, hb₂, hs₂⟩ := Store.modify_spec (fun n => { n with left := some a }) hb₁
  have ha₂ : h₂ a = some { n with right := m.left } := (hs₂ a (by simp [hne.symm])).trans ha₁
  obtain ⟨h₃, hw₃, hb₃, hs₃⟩ := Store.modify_spec (fun m => { m with red := n.red }) hb₂
  have ha₃ : h₃ a = some { n with right := m.left } := (hs₃ a (by simp [hne.symm])).trans ha₂
  obtain ⟨h₄, hw₄, ha₄, hs₄⟩ := Store.modify_spec (fun n => { n with red := true }) ha₃
  refine ⟨h₄, ?_, ha₄, (hs₄ b (by simp [hne])).trans hb₃, ?_⟩
  · simp only [rotLeft, Store.load_some, ha, hright, hb, Option.bind_eq_bind, Option.bind_some,
      hw₁, hw₂, ha₂, hw₃, hw₄]
    rfl
  · exact (((hs₁.mono (by simp)).trans (hs₂.mono (by simp))).trans (hs₃.mono (by simp))).trans
      (hs₄.mono (by simp))

theorem rotRight_some (ha : h a = some n) (hb : h b = some m) (hleft : n.left = some b)
    (hne : b ≠ a) :
    ∃ h', rotRight h (some a) = some (h', some b) ∧
      h' a = some { n with left := m.right, red := true } ∧
      h' b = some { m with right := some a, red := n.red } ∧ SameOff [a, b] h h' := by
  obtain ⟨h₁, hw₁, ha₁, hs₁⟩ := Store.modify_spec (fun n => { n with left := m.right }) ha
  have hb₁ : h₁ b = some m := (hs₁ b (by simp [hne])).trans hb
  obtain ⟨h₂, hw₂, hb₂, hs₂⟩ := Store.modify_spec (fun n => { n with right := some a }) hb₁
  have ha₂ : h₂ a = some { n with left := m.right } := (hs₂ a (by simp [hne.symm])).trans ha₁
  obtain ⟨h₃, hw₃, hb₃, hs₃⟩ := Store.modify_spec (fun m => { m with red := n.red }) hb₂
  have ha₃ : h₃ a = some { n with left := m.right } := (hs₃ a (by simp [hne.symm])).trans ha₂
  obtain ⟨h₄, hw₄, ha₄, hs₄⟩ := Store.modify_spec (fun n => { n with red := true }) ha₃
  refine ⟨h₄, ?_, ha₄, (hs₄ b (by simp [hne])).trans hb₃, ?_⟩
  · simp only [rotRight, Store.load_some, ha, hleft, hb, Option.bind_eq_bind, Option.bind_some,
      hw₁, hw₂, ha₂, hw₃, hw₄]
    rfl
  · exact (((hs₁.mono (by simp)).trans (hs₂.mono (by simp))).trans (hs₃.mono (by simp))).trans
      (hs₄.mono (by simp))

end Writes

theorem rotLeft_sim (hh : Represents h p t) :
    Option.Rel (Steps (addrs t) h) (Rb.rotLeft t) (rotLeft h p) := by
  match t, hh with
  | .null, hh =>
    obtain ⟨rfl, -, -⟩ := hh
    exact .none
  | .node a c k d l .null, hh =>
    obtain ⟨rfl, ho⟩ := represents_node.1 hh
    obtain ⟨next, ha⟩ := ho.read
    simp only [rotLeft, Store.load_some, ha, Option.bind_eq_bind, Option.bind_some]
    exact .none
  | .node a c k d l (.node b cb kb db lb rb), hh =>
    obtain ⟨rfl, ho⟩ := represents_node.1 hh
    obtain ⟨next, ha⟩ := ho.read
    obtain ⟨next', hb⟩ := ho.right.owns.read
    have hnodup := hh.nodup
    simp only [addrs_node] at hnodup
    obtain ⟨h', hrot, ha', hb', hs⟩ := rotLeft_some ha hb rfl (by grind)
    rw [hrot]
    refine .some ⟨⟨rfl, ⟨⟨next', hb'⟩, ⟨⟨next, ha'⟩, ?_, ?_⟩, ?_⟩, ?_⟩, hs.mono ?_, ?_⟩
    · exact ho.left.holds.off hs (by grind)
    · exact ho.right.owns.left.holds.off hs (by grind)
    · exact ho.right.owns.right.holds.off hs (by grind)
    · simpa using hnodup
    · simp
    · simp

theorem rotRight_sim (hh : Represents h p t) :
    Option.Rel (Steps (addrs t) h) (Rb.rotRight t) (rotRight h p) := by
  match t, hh with
  | .null, hh =>
    obtain ⟨rfl, -, -⟩ := hh
    exact .none
  | .node a c k d .null r, hh =>
    obtain ⟨rfl, ho⟩ := represents_node.1 hh
    obtain ⟨next, ha⟩ := ho.read
    simp only [rotRight, Store.load_some, ha, Option.bind_eq_bind, Option.bind_some]
    exact .none
  | .node a c k d (.node b cb kb db lb rb) r, hh =>
    obtain ⟨rfl, ho⟩ := represents_node.1 hh
    obtain ⟨next, ha⟩ := ho.read
    obtain ⟨next', hb⟩ := ho.left.owns.read
    have hnodup := hh.nodup
    simp only [addrs_node] at hnodup
    obtain ⟨h', hrot, ha', hb', hs⟩ := rotRight_some ha hb rfl (by grind)
    rw [hrot]
    refine .some ⟨⟨rfl, ⟨⟨next', hb'⟩, ?_, ⟨⟨next, ha'⟩, ?_, ?_⟩⟩, ?_⟩, hs.mono ?_, ?_⟩
    · exact ho.left.owns.left.holds.off hs (by grind)
    · exact ho.left.owns.right.holds.off hs (by grind)
    · exact ho.right.holds.off hs (by grind)
    · simpa using hnodup
    · simp
    · simp

theorem colorFlip_sim (hh : Represents h p t) :
    Option.Rel (fun t' h' => Steps (addrs t) h t' (h', p)) (Rb.colorFlip t) (colorFlip h p) := by
  match t, hh with
  | .null, hh =>
    obtain ⟨rfl, -, -⟩ := hh
    exact .none
  | .node a c k d .null r, hh =>
    obtain ⟨rfl, ho⟩ := represents_node.1 hh
    obtain ⟨next, ha⟩ := ho.read
    obtain ⟨h₁, hw₁, ha₁, -⟩ := Store.modify_spec (fun n => { n with red := !n.red }) ha
    simp only [colorFlip, flipRed, hw₁, Option.bind_eq_bind, Option.bind_some, Store.load_some, ha₁]
    exact .none
  | .node a c k d (.node al cl kl dl ll rl) .null, hh =>
    obtain ⟨rfl, ho⟩ := represents_node.1 hh
    obtain ⟨next, ha⟩ := ho.read
    obtain ⟨nextl, hal⟩ := ho.left.owns.read
    have hne : al ≠ a := fun heq => ho.not_left (by simp [heq])
    obtain ⟨h₁, hw₁, ha₁, hs₁⟩ := Store.modify_spec (fun n => { n with red := !n.red }) ha
    obtain ⟨h₂, hw₂, -, hs₂⟩ := Store.modify_spec (fun n => { n with red := !n.red })
      ((hs₁ al (by simp [hne])).trans hal)
    have ha₂ := (hs₂ a (by simp [hne.symm])).trans ha₁
    simp only [colorFlip, flipRed, hw₁, Option.bind_eq_bind, Option.bind_some, Store.load_some,
      ha₁, root_node, hw₂, ha₂]
    exact .none
  | .node a c k d (.node al cl kl dl ll rl) (.node ar cr kr dr lr rr), hh =>
    obtain ⟨rfl, ho⟩ := represents_node.1 hh
    obtain ⟨next, ha⟩ := ho.read
    obtain ⟨nextl, hal⟩ := ho.left.owns.read
    obtain ⟨nextr, har⟩ := ho.right.owns.read
    have hnodup := hh.nodup
    simp only [addrs_node] at hnodup
    obtain ⟨h', hflip, ha', hal', har', hs⟩ :=
      colorFlip_some ha hal har rfl rfl (by grind) (by grind) (by grind)
    rw [hflip]
    refine .some ⟨⟨rfl, ⟨⟨next, ha'⟩, ⟨⟨nextl, hal'⟩, ?_, ?_⟩, ⟨⟨nextr, har'⟩, ?_, ?_⟩⟩, ?_⟩,
      hs.mono ?_, ?_⟩
    · exact ho.left.owns.left.holds.off hs (by grind)
    · exact ho.left.owns.right.holds.off hs (by grind)
    · exact ho.right.owns.left.holds.off hs (by grind)
    · exact ho.right.owns.right.holds.off hs (by grind)
    · simpa using hnodup
    · simp
    · simp

/-! ## Fixing a tree up -/

theorem fixRightRed_sim (hh : Represents h p t) :
    Option.Rel (Steps (addrs t) h) (Rb.fixRightRed t) (fixRightRed h p) := by
  refine rel_bind (load_right hh) fun r n hr => ?_
  rw [isRed_eq hr]
  exact rel_ite (fun _ => rotLeft_sim hh) fun _ => .some (.refl hh)

theorem fixRedRed_sim (hh : Represents h p t) :
    Option.Rel (Steps (addrs t) h) (Rb.fixRedRed t) (fixRedRed h p) := by
  refine rel_bind (rel_of_eq (redLeftLeft_eq hh).symm) fun b b' heq => ?_
  subst heq
  exact rel_ite (fun _ => rotRight_sim hh) fun _ => .some (.refl hh)

theorem flip_sim (hh : Represents h p t) :
    Option.Rel (Steps (addrs t) h) (Rb.colorFlip t)
      ((colorFlip h p).bind fun h' => some (h', p)) := by
  rw [← Option.bind_fun_some (Rb.colorFlip t)]
  exact rel_bind (colorFlip_sim hh) fun _ _ hs => .some hs

theorem splitFour_sim (hh : Represents h p t) :
    Option.Rel (Steps (addrs t) h) (Rb.splitFour t) (splitFour h p) := by
  refine rel_bind (rel_of_eq (redBoth_eq hh).symm) fun b b' heq => ?_
  subst heq
  exact rel_ite (fun _ => flip_sim hh) fun _ => .some (.refl hh)

theorem fixUp_sim (hh : Represents h p t) :
    Option.Rel (Steps (addrs t) h) (Rb.fixUp t) (fixUp h p) := by
  rw [Rb.fixUp, Option.bind_assoc]
  refine Steps.bind (fixRightRed_sim hh) fun t₁ r₁ h₁ => ?_
  exact Steps.bind (fixRedRed_sim h₁) fun t₂ r₂ h₂ => splitFour_sim h₂

/-! ## Pushing red links down -/

theorem fixRightLeft_sim (hh : Represents h p t) :
    Option.Rel (Steps (addrs t) h) (Rb.fixRightLeft t) (fixRightLeft h p) := by
  cases t with
  | null =>
    obtain ⟨rfl, -, -⟩ := hh
    exact .none
  | node a c k d l r =>
    obtain ⟨rfl, ho⟩ := represents_node.1 hh
    obtain ⟨next, ha⟩ := ho.read
    simp only [fixRightLeft, Store.load_some, ha, Option.bind_eq_bind, Option.bind_some]
    refine rel_bind (load_left ho.right) fun rl n hrl => ?_
    rw [isRed_eq hrl]
    refine rel_ite (fun _ => ?_) fun _ => .some (.refl hh)
    rw [Option.bind_assoc]
    refine rel_bind (rotRight_sim ho.right) fun r' x hs => ?_
    obtain ⟨h', hput, -, hs'⟩ := ho.putRight hs ho.not_right ho.disjoint
    simp only [hput, Option.bind_some]
    rw [addrs_node]
    exact rel_mono (Steps.bind (rotLeft_sim hs'.represents) fun t₁ r₁ h₁ => flip_sim h₁)
      fun _ _ => hs'.trans

theorem moveRedLeft_sim (hh : Represents h p t) :
    Option.Rel (Steps (addrs t) h) (Rb.moveRedLeft t) (moveRedLeft h p) := by
  refine rel_bind (colorFlip_sim hh) fun t₁ h₁ hs => ?_
  exact rel_mono (fixRightLeft_sim hs.represents) fun _ _ => hs.trans

theorem pushLeft_sim (hh : Represents h p t) :
    Option.Rel (Steps (addrs t) h) (Rb.pushLeft t) (pushLeft h p) := by
  refine rel_bind (load_left hh) fun l n hl => ?_
  rw [isRed_eq hl]
  refine rel_ite (fun _ => .some (.refl hh)) fun _ => rel_bind (load_left hl) fun ll m hll => ?_
  rw [isRed_eq hll]
  exact rel_ite (fun _ => .some (.refl hh)) fun _ => moveRedLeft_sim hh

theorem pushRight_sim (hh : Represents h p t) :
    Option.Rel (Steps (addrs t) h) (Rb.pushRight t) (pushRight h p) := by
  refine rel_bind (load_right hh) fun r n hr => ?_
  rw [isRed_eq hr]
  refine rel_ite (fun _ => .some (.refl hh)) fun _ => rel_bind (load_left hr) fun rl m hrl => ?_
  rw [isRed_eq hrl]
  exact rel_ite (fun _ => .some (.refl hh)) fun _ => moveRedLeft_sim hh

theorem leanRight_sim (hh : Represents h p t) :
    Option.Rel (Steps (addrs t) h) (Rb.leanRight t) (leanRight h p) := by
  refine rel_bind (load_left hh) fun l n hl => ?_
  rw [isRed_eq hl]
  exact rel_ite (fun _ => rotRight_sim hh) fun _ => .some (.refl hh)

end Resman.RbMem
