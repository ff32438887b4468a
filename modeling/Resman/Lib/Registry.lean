import Resman.Lib.Run
import Resman.Lib.Tally

/-!
# A registry whose items know their key

Items are registered under keys, one item at most under each, and an item that is present carries a
key of its own, by which it is told whether and where it is registered: its key is active or not.
`RegOp` lists what can happen: an item comes in, is registered, is taken out, or goes away, and the
item under a key is renewed, that is registered again under another key or, without one, taken out.

* `Sound`: an item under a key carries that key. `sound_step_iff` gives the steps that keep it.
* `Complete`: an item that carries an active key is under it. `complete_step_iff` gives the steps
  that keep it.
-/

namespace Resman.Lib

variable {K P : Type*}

structure Registry (K P : Type*) where
  slot : K → Option P
  key : P → Option K

/-- What can happen to a registry. A key that is to be used is given by `w`; it may be missing. -/
inductive RegOp (K P : Type*) where
  | skip
  | enter (p : P) (k : K)
  | start (p : P) (w : Option K)
  | stop (p : P)
  | drop (p : P)
  | renew (k : K) (w : Option K)
  deriving DecidableEq

namespace Registry

/-- Only active keys are used, by items that carry active keys. -/
structure Active (A : K → Prop) (g : Registry K P) : Prop where
  slot : ∀ {k p}, g.slot k = some p → A k
  key : ∀ {k p n}, g.slot k = some p → g.key p = some n → A n

/-- An item under a key carries that key. -/
def Sound (g : Registry K P) : Prop := ∀ k p, g.slot k = some p → g.key p = some k

/-- An item that carries an active key is under it. -/
def Complete (A : K → Prop) (g : Registry K P) : Prop :=
  ∀ p k, g.key p = some k → A k → g.slot k = some p

/-! ## Taking an item out -/

section Stop

variable [DecidableEq K] (A : K → Prop) [DecidablePred A]

/-- The place of the item is cleared, and the item keeps its key. -/
def stop (g : Registry K P) (p : P) : Registry K P :=
  match g.key p with
  | some n => if A n then ⟨Function.update g.slot n none, g.key⟩ else g
  | none => g

variable {A} {g : Registry K P} {p q : P} {k : K}

theorem stop_of_active (hk : g.key p = some k) (hA : A k) :
    g.stop A p = ⟨Function.update g.slot k none, g.key⟩ := by
  simp [stop, hk, hA]

theorem stop_of_not_active (hk : ∀ k, g.key p = some k → ¬ A k) : g.stop A p = g := by
  unfold stop
  split
  · next n hn => rw [if_neg (hk n hn)]
  · rfl

theorem key_stop (g : Registry K P) (p : P) : (g.stop A p).key = g.key := by
  unfold stop
  split
  · split <;> rfl
  · rfl

/-- Taking an item out adds nothing. -/
theorem slot_of_stop (h : (g.stop A p).slot k = some q) : g.slot k = some q := by
  unfold stop at h
  split at h
  · split at h
    · exact (update_none_eq_some.1 h).2
    · exact h
  · exact h

/-- After an item has been taken out nothing is under its key. -/
theorem slot_stop_key (hk : g.key p = some k) (hA : A k) : (g.stop A p).slot k = none := by
  rw [stop_of_active hk hA]
  exact Function.update_self ..

end Stop

/-! ## Steps -/

variable [DecidableEq K] [DecidableEq P]

section Link

def link (g : Registry K P) (p : P) (k : K) : Registry K P :=
  ⟨Function.update g.slot k (some p), Function.update g.key p (some k)⟩

def enter (g : Registry K P) (p : P) (k : K) : Registry K P :=
  ⟨g.slot, Function.update g.key p (some k)⟩

def forget (g : Registry K P) (p : P) : Registry K P := ⟨g.slot, Function.update g.key p none⟩

variable {g : Registry K P} {p q : P} {k k' : K}

theorem slot_link : (g.link p k).slot k' = some q ↔ k' = k ∧ q = p ∨ k' ≠ k ∧
    g.slot k' = some q := by
  rw [link, update_eq_some, Option.some.injEq, eq_comm (a := p)]

theorem key_link : (g.link p k).key q = some k' ↔ q = p ∧ k' = k ∨ q ≠ p ∧ g.key q = some k' := by
  rw [link, update_eq_some, Option.some.injEq, eq_comm (a := k)]

end Link

variable (A : K → Prop) [DecidablePred A]

/-- An item with an active key is registered already. -/
def start (g : Registry K P) (p : P) (w : Option K) : Registry K P :=
  match g.key p, w with
  | some n, some k => if A n then g else g.link p k
  | _, _ => g

def renew (g : Registry K P) (k : K) (w : Option K) : Registry K P :=
  match g.slot k, w with
  | some p, some k' => g.link p k'
  | some p, none => g.stop A p
  | none, _ => g

def step (g : Registry K P) : RegOp K P → Registry K P
  | .skip => g
  | .enter p k => g.enter p k
  | .start p w => g.start A p w
  | .stop p => g.stop A p
  | .drop p => (g.stop A p).forget p
  | .renew k w => g.renew A k w

/-- An item that comes in is new and has no active key, and a key that is to be used is active. -/
def Fair (g : Registry K P) : RegOp K P → Prop
  | .enter p k => g.key p = none ∧ (∀ k', g.slot k' ≠ some p) ∧ ¬ A k
  | .start _ w | .renew _ w => ∀ k, w = some k → A k
  | .skip | .stop _ | .drop _ => True

variable {A} {g : Registry K P}

section Cases

variable {p : P} {k n : K} {w : Option K}

theorem start_none : g.start A p none = g := by
  unfold start
  split
  · next h => cases h
  · rfl

theorem start_of_active (hn : g.key p = some n) (hA : A n) : g.start A p w = g := by
  cases w with
  | none => exact start_none
  | some k => simp [start, hn, hA]

theorem start_of_not_active (hn : g.key p = some n) (hA : ¬ A n) :
    g.start A p (some k) = g.link p k := by
  simp [start, hn, hA]

theorem renew_of_absent (hk : g.slot k = none) : g.renew A k w = g := by
  simp [renew, hk]

theorem renew_none (hk : g.slot k = some p) : g.renew A k none = g.stop A p := by
  simp [renew, hk]

theorem renew_some {k' : K} (hk : g.slot k = some p) : g.renew A k (some k') = g.link p k' := by
  simp [renew, hk]

/-- The two things that `start` can do. -/
theorem start_cases (g : Registry K P) (p : P) (w : Option K) :
    g.step A (.start p w) = g ∨
      ∃ n k, g.key p = some n ∧ ¬ A n ∧ w = some k ∧ g.step A (.start p w) = g.link p k := by
  unfold step
  cases w with
  | none => exact .inl start_none
  | some k =>
    cases hn : g.key p with
    | none => exact .inl (by simp [start, hn])
    | some n =>
      by_cases hA : A n
      · exact .inl (start_of_active hn hA)
      · exact .inr ⟨n, k, rfl, hA, rfl, start_of_not_active hn hA⟩

/-- The three things that `renew` can do. -/
theorem renew_cases (g : Registry K P) (k : K) (w : Option K) :
    g.slot k = none ∧ g.step A (.renew k w) = g ∨
      ∃ p, g.slot k = some p ∧ (w = none ∧ g.step A (.renew k w) = g.stop A p ∨
        ∃ k', w = some k' ∧ g.step A (.renew k w) = g.link p k') := by
  unfold step
  cases hk : g.slot k with
  | none => exact .inl ⟨rfl, renew_of_absent hk⟩
  | some p =>
    cases w with
    | none => exact .inr ⟨p, rfl, .inl ⟨rfl, renew_none hk⟩⟩
    | some k' => exact .inr ⟨p, rfl, .inr ⟨k', rfl, renew_some hk⟩⟩

end Cases

/-! ## Active keys -/

section Active

omit [DecidablePred A] in
theorem Active.link (h : g.Active A) {p : P} {k : K} (hA : A k) : (g.link p k).Active A where
  slot hs := by
    rcases slot_link.1 hs with ⟨rfl, -⟩ | ⟨-, hs⟩
    · exact hA
    · exact h.slot hs
  key hs hn := by
    rcases key_link.1 hn with ⟨-, rfl⟩ | ⟨hq, hn⟩
    · exact hA
    · rcases slot_link.1 hs with ⟨-, rfl⟩ | ⟨-, hs⟩
      · exact absurd rfl hq
      · exact h.key hs hn

omit [DecidableEq P] in
theorem Active.stop (h : g.Active A) (p : P) : (g.stop A p).Active A where
  slot hs := h.slot (slot_of_stop hs)
  key hs hn := h.key (slot_of_stop hs) (key_stop (A := A) g p ▸ hn)

theorem Active.step (h : g.Active A) {op : RegOp K P} (hop : g.Fair A op) :
    (g.step A op).Active A := by
  cases op with
  | skip => exact h
  | enter p k =>
    obtain ⟨-, hslot, -⟩ := hop
    refine ⟨fun hs => h.slot hs, fun hs hn => ?_⟩
    rcases update_eq_some.1 hn with ⟨rfl, -⟩ | ⟨-, hn⟩
    · exact absurd hs (hslot _)
    · exact h.key hs hn
  | start p w =>
    rcases start_cases (A := A) g p w with heq | ⟨n, k, -, -, hw, heq⟩
    · rw [heq]
      exact h
    · exact heq ▸ h.link (hop k hw)
  | stop p => exact h.stop p
  | drop p =>
    refine ⟨fun hs => (h.stop p).slot hs, fun hs hn => (h.stop p).key hs ?_⟩
    exact (update_none_eq_some.1 hn).2
  | renew k w =>
    rcases renew_cases (A := A) g k w with ⟨-, heq⟩ | ⟨p, -, ⟨-, heq⟩ | ⟨k', hw, heq⟩⟩
    · rw [heq]
      exact h
    · exact heq ▸ h.stop p
    · exact heq ▸ h.link (hop k' hw)

end Active

/-! ## Soundness -/

section Sound

/-- An item is registered again under the key it had. -/
def RenewsKey (g : Registry K P) : RegOp K P → Prop
  | .renew k (some k') => g.slot k ≠ none → k' = k
  | _ => True

omit [DecidablePred A] in
theorem Sound.link (h : g.Sound) {p : P} {k : K} (hp : ∀ k', g.slot k' = some p → k' = k) :
    (g.link p k).Sound := by
  intro k' q hs
  rw [key_link]
  rcases slot_link.1 hs with ⟨rfl, rfl⟩ | ⟨hk, hs'⟩
  · exact .inl ⟨rfl, rfl⟩
  · refine .inr ⟨?_, h k' q hs'⟩
    rintro rfl
    exact hk (hp k' hs')

omit [DecidablePred A] in
theorem not_sound_link {p : P} {k k' : K} (hs : g.slot k = some p) (hk : k' ≠ k) :
    ¬ (g.link p k').Sound := by
  intro h
  have hkey := h k p (slot_link.2 (.inr ⟨Ne.symm hk, hs⟩))
  rcases key_link.1 hkey with ⟨-, rfl⟩ | ⟨hp, -⟩
  · exact hk rfl
  · exact hp rfl

omit [DecidableEq P] in
theorem Sound.stop (h : g.Sound) (p : P) : (g.stop A p).Sound := by
  intro k q hs
  rw [key_stop]
  exact h k q (slot_of_stop hs)

omit [DecidableEq K] [DecidableEq P] [DecidablePred A] in
/-- An item that carries an inactive key is under no key. -/
theorem Sound.not_slot (h : g.Sound) (hg : g.Active A) {p : P} {n : K} (hn : g.key p = some n)
    (hA : ¬ A n) (k : K) : g.slot k ≠ some p := by
  intro hs
  obtain rfl : n = k := Option.some.inj (hn.symm.trans (h k p hs))
  exact hA (hg.slot hs)

/-- **The steps that keep the registry sound** are those that renew an item under the key it had. -/
theorem sound_step_iff (h : g.Sound) (hg : g.Active A) {op : RegOp K P} (hop : g.Fair A op) :
    (g.step A op).Sound ↔ g.RenewsKey op := by
  cases op with
  | skip => exact ⟨fun _ => trivial, fun _ => h⟩
  | enter p k =>
    obtain ⟨-, hslot, -⟩ := hop
    refine ⟨fun _ => trivial, fun _ k' q hs => update_eq_some.2 (.inr ⟨?_, h k' q hs⟩)⟩
    rintro rfl
    exact hslot k' hs
  | start p w =>
    refine ⟨fun _ => trivial, fun _ => ?_⟩
    rcases start_cases (A := A) g p w with heq | ⟨n, k, hn, hA, -, heq⟩
    · rw [heq]
      exact h
    · exact heq ▸ h.link fun k' hs => absurd hs (h.not_slot hg hn hA k')
  | stop p => exact ⟨fun _ => trivial, fun _ => h.stop p⟩
  | drop p =>
    refine ⟨fun _ => trivial, fun _ k q hs => update_none_eq_some.2 ⟨?_, h.stop p k q hs⟩⟩
    rintro rfl
    have hq : g.key q = some k := h k q (slot_of_stop hs)
    have hnone : (g.stop A q).slot k = none := slot_stop_key hq (hg.slot (slot_of_stop hs))
    exact absurd (hnone.symm.trans hs) (Option.some_ne_none q).symm
  | renew k w =>
    rcases renew_cases (A := A) g k w with ⟨hs, heq⟩ | ⟨p, hs, ⟨rfl, heq⟩ | ⟨k', rfl, heq⟩⟩
    · refine ⟨fun _ => ?_, fun _ => by rwa [heq]⟩
      cases w with
      | none => trivial
      | some k' => exact fun hne => absurd hs hne
    · exact ⟨fun _ => trivial, fun _ => heq ▸ h.stop p⟩
    · rw [heq]
      constructor
      · intro hsound _
        by_contra hk
        exact not_sound_link hs hk hsound
      · intro hk
        obtain rfl := hk (hs ▸ Option.some_ne_none p)
        exact h.link fun k'' hs'' => Option.some.inj ((h k'' p hs'').symm.trans (h k' p hs))

end Sound

/-! ## Completeness -/

section Complete

/-- No other item carries the key that is used. -/
def Distinct (g : Registry K P) : RegOp K P → Prop
  | .start p (some k) => ∀ q, q ≠ p → g.key q ≠ some k
  | .renew k (some k') => ∀ p, g.slot k = some p → ∀ q, q ≠ p → g.key q ≠ some k'
  | _ => True

variable (A) in
/-- No item is taken out that stays, by `stop` or by a renewal without a key. -/
def TakesNoneOut (g : Registry K P) : RegOp K P → Prop
  | .stop p => ∀ k, g.key p = some k → ¬ A k
  | .renew k none => ∀ p, g.slot k = some p → g.key p = none
  | _ => True

omit [DecidablePred A] in
theorem Complete.link (h : g.Complete A) {p : P} {k : K} (hk : ∀ q, q ≠ p → g.key q ≠ some k) :
    (g.link p k).Complete A := by
  intro q k' hq hA
  rw [slot_link]
  rcases key_link.1 hq with ⟨rfl, rfl⟩ | ⟨hne, hq'⟩
  · exact .inl ⟨rfl, rfl⟩
  · refine .inr ⟨?_, h q k' hq' hA⟩
    rintro rfl
    exact hk q hne hq'

omit [DecidableEq P] in
theorem not_complete_stop {p : P} {k : K} (hk : g.key p = some k) (hA : A k) :
    ¬ (g.stop A p).Complete A := by
  intro h
  have hs := h p k (key_stop (A := A) g p ▸ hk) hA
  rw [slot_stop_key hk hA] at hs
  cases hs

/-- **The steps that keep the registry complete** are those that take no item out that stays. -/
theorem complete_step_iff (h : g.Complete A) (hg : g.Active A) {op : RegOp K P}
    (hop : g.Fair A op) (hd : g.Distinct op) :
    (g.step A op).Complete A ↔ g.TakesNoneOut A op := by
  cases op with
  | skip => exact ⟨fun _ => trivial, fun _ => h⟩
  | enter p k =>
    obtain ⟨-, -, hA⟩ := hop
    refine ⟨fun _ => trivial, fun _ q k' hq hA' => ?_⟩
    rcases update_eq_some.1 hq with ⟨-, hk⟩ | ⟨-, hq⟩
    · exact absurd (Option.some.inj hk ▸ hA') hA
    · exact h q k' hq hA'
  | start p w =>
    refine ⟨fun _ => trivial, fun _ => ?_⟩
    rcases start_cases (A := A) g p w with heq | ⟨n, k, -, -, rfl, heq⟩
    · rw [heq]
      exact h
    · exact heq ▸ h.link hd
  | stop p =>
    constructor
    · intro hc k hk hA
      exact not_complete_stop hk hA hc
    · intro hk
      rwa [step, stop_of_not_active hk]
  | drop p =>
    refine ⟨fun _ => trivial, fun _ q k hq hA => ?_⟩
    obtain ⟨hne, hq⟩ := update_none_eq_some.1 hq
    rw [key_stop] at hq
    have hs := h q k hq hA
    -- the place that is cleared is that of the item that goes, and `q` is another item
    by_cases hp : ∃ n, g.key p = some n ∧ A n
    · obtain ⟨n, hn, hA'⟩ := hp
      have hkn : k ≠ n := by
        rintro rfl
        exact hne (Option.some.inj (hs.symm.trans (h p k hn hA)))
      have hstop : g.stop A p = ⟨Function.update g.slot n none, g.key⟩ := stop_of_active hn hA'
      simp only [step, forget, hstop]
      exact (Function.update_of_ne hkn ..).trans hs
    · have hstop : g.stop A p = g := stop_of_not_active fun n hn hA => hp ⟨n, hn, hA⟩
      simp only [step, forget, hstop]
      exact hs
  | renew k w =>
    rcases renew_cases (A := A) g k w with ⟨hs, heq⟩ | ⟨p, hs, ⟨rfl, heq⟩ | ⟨k', rfl, heq⟩⟩
    · refine ⟨fun _ => ?_, fun _ => by rwa [heq]⟩
      cases w with
      | none => exact fun p hp => by rw [hs] at hp; cases hp
      | some k' => trivial
    · rw [heq]
      constructor
      · intro hc p' hs'
        obtain rfl : p = p' := Option.some.inj (hs.symm.trans hs')
        cases hk : g.key p with
        | none => rfl
        | some n => exact absurd hc (not_complete_stop hk (hg.key hs hk))
      · intro hnone
        have hkey := hnone p hs
        have hstop : g.stop A p = g := stop_of_not_active fun n hn => by rw [hkey] at hn; cases hn
        exact hstop.symm ▸ h
    · exact ⟨fun _ => trivial, fun _ => heq ▸ h.link (hd p hs)⟩

end Complete

end Registry

end Resman.Lib
