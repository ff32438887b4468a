import Resman.Lib.Run

/-!
# Two systems in lockstep

Two partial functions agree up to a relation between their results when both have no result, or both
have one and the results are related (`Option.Rel`). For the steps of two systems that is a
simulation in both directions, which also says that one system gets stuck exactly when the other
does. `exec_rel` carries it from the steps to the runs.
-/

namespace Resman.Lib

variable {α β γ δ : Type*} {R : α → β → Prop} {Q : γ → δ → Prop} {x : Option α} {y : Option β}

theorem rel_bind_of_eq {f : α → Option γ} {g : β → Option δ} (h : Option.Rel R x y)
    (hfg : ∀ a b, x = some a → y = some b → R a b → Option.Rel Q (f a) (g b)) :
    Option.Rel Q (x.bind f) (y.bind g) := by
  cases h with
  | none => exact .none
  | some hab => exact hfg _ _ rfl rfl hab

theorem rel_bind {f : α → Option γ} {g : β → Option δ} (h : Option.Rel R x y)
    (hfg : ∀ a b, R a b → Option.Rel Q (f a) (g b)) : Option.Rel Q (x.bind f) (y.bind g) :=
  rel_bind_of_eq h fun a b _ _ => hfg a b

theorem rel_map {f : α → γ} {g : β → δ} (h : Option.Rel R x y)
    (hfg : ∀ a b, R a b → Q (f a) (g b)) :
    Option.Rel Q (x.map f) (y.map g) := by
  cases h with
  | none => exact .none
  | some hab => exact .some (hfg _ _ hab)

theorem rel_mono_of_eq {R' : α → β → Prop} (h : Option.Rel R x y)
    (hR : ∀ a b, x = some a → y = some b → R a b → R' a b) : Option.Rel R' x y := by
  cases h with
  | none => exact .none
  | some hab => exact .some (hR _ _ rfl rfl hab)

theorem rel_mono {R' : α → β → Prop} (h : Option.Rel R x y) (hR : ∀ a b, R a b → R' a b) :
    Option.Rel R' x y :=
  rel_mono_of_eq h fun a b _ _ => hR a b

theorem rel_of_eq {x x' : Option α} (h : x = x') : Option.Rel Eq x x' := by
  subst h
  cases x with
  | none => exact .none
  | some a => exact .some rfl

/-- A test made on both sides. -/
theorem rel_ite {x' : Option α} {y' : Option β} {P : Prop} [Decidable P]
    (htrue : P → Option.Rel R x y) (hfalse : ¬P → Option.Rel R x' y') :
    Option.Rel R (if P then x else x') (if P then y else y') := by
  split
  · next h => exact htrue h
  · next h => exact hfalse h

/-- The result on the right has one on the left. -/
theorem Rel.of_right {b : β} (h : Option.Rel R x (some b)) : ∃ a, x = some a ∧ R a b := by
  cases h with
  | some hab => exact ⟨_, rfl, hab⟩

section Runs

variable {S T A : Type*} {step : S → A → Option S} {step' : T → A → Option T}
  {R : Nat → S → T → Prop} {C : T → A → Prop}

/-- **Runs in lockstep**: steps that agree up to a relation, under a condition on the right, make
runs that agree up to it. The relation may depend on how many steps are still to come. -/
theorem exec_rel (hstep : ∀ n s t a, R (n + 1) s t → C t a →
    Option.Rel (R n) (step s a) (step' t a)) :
    ∀ {as : List A} {s : S} {t : T}, R as.length s t → Along step' C t as →
      Option.Rel (R 0) (exec step s as) (exec step' t as)
  | [], _, _, h, _ => .some h
  | a :: as, s, t, h, hC => by
    obtain ⟨ha, hrest⟩ := along_cons.1 hC
    exact rel_bind_of_eq (hstep as.length s t a h ha) fun s' t' _ ht' hR => exec_rel hstep hR
      (hrest t' ht')

end Runs

end Resman.Lib
