import Resman.Manager.History

/-!
# Completed loads and `done_func`

In a manager with a `done_func`, the flag `done_pending` of a resource says that a load of it has
been completed since the last `done_func` call for it began: `Due` reads that from the history.
`donePending_of_run` is the invariant, with what it means for the calls of `done_func`: each one is
preceded by a completed load that no earlier call covers, and the scan of `resman_poll` calls
`done_func` for every resource that it reaches with such a load.
-/

namespace Resman.Manager

open Lib FileWatch

variable {rman rman' : Rman} {pc pc' : Pc} {p q : ResPtr} {m : MgrPtr} {es ns : List Note}

/-- A load of the resource has executed its completion section. -/
def Note.completes (m : MgrPtr) (p : ResPtr) : Note → Bool
  | completed _ m' p' => m' = m ∧ p' = p
  | _ => false

/-- A `done_func` call for the resource has begun. -/
def Note.begins (m : MgrPtr) (p : ResPtr) : Note → Bool
  | doneBegan m' p' => m' = m ∧ p' = p
  | _ => false

/-- A load of the resource has been completed since the last `done_func` call for it began. -/
def Due (m : MgrPtr) (p : ResPtr) (es : List Note) : Bool :=
  Uncovered (Note.completes m p) (Note.begins m p) es

/-- The note is neither a completion nor the begin of a `done_func` call for a resource of `m`. -/
def Note.plain (m : MgrPtr) : Note → Bool
  | completed _ m' _ | doneBegan m' _ => m' ≠ m
  | _ => true

theorem due_append (h : ∀ n ∈ ns, n.plain m = true) (p : ResPtr) :
    Due m p (ns ++ es) = Due m p es := by
  refine uncovered_append fun n hn => ?_
  have hplain := h n hn
  cases n with
  | completed w m' p' =>
    have hm : m' ≠ m := by simpa [Note.plain] using hplain
    simp [Note.completes, Note.begins, hm]
  | doneBegan m' p' =>
    have hm : m' ≠ m := by simpa [Note.plain] using hplain
    simp [Note.completes, Note.begins, hm]
  | _ => exact ⟨rfl, rfl⟩

/-- The begin of a call for another resource. -/
theorem due_begin_of_ne (h : p ≠ q) : Due m p (.doneBegan m q :: es) = Due m p es := by
  simp [Due, Uncovered, Note.completes, Note.begins, Ne.symm h]

theorem due_begin : Due m p (.doneBegan m p :: es) = false := by
  simp [Due, Uncovered, Note.completes, Note.begins]

theorem due_completed {w : Nat} :
    Due m p (.completed w m q :: es) = (decide (p = q) || Due m p es) := by
  by_cases hp : p = q
  · simp [Due, Uncovered, Note.completes, hp]
  · simp [Due, Uncovered, Note.completes, Note.begins, hp, Ne.symm hp]

/-- Nothing is due for a resource that has not been noted. -/
theorem due_of_unnoted (h : ∀ n ∈ es, n.rman = some m → ∀ q ∈ n.live, q ≠ p) :
    Due m p es = false := by
  by_contra hdue
  rw [Bool.not_eq_false, Due, uncovered_iff] at hdue
  obtain ⟨l₁, n, l₂, rfl, hc, -⟩ := hdue
  cases n with
  | completed w m' p' =>
    obtain ⟨rfl, rfl⟩ : m' = m ∧ p' = p := by simpa [Note.completes] using hc
    exact h (.completed w m' p') (List.mem_append_right _ List.mem_cons_self) rfl p' rfl rfl
  | _ => cases hc

theorem callNotes_plain {f : Call} : ∀ n ∈ callNotes m rman f pc', n.plain m = true := by
  intro n hn
  cases callNotes_cases hn <;> rfl

theorem clientNotes_plain {o : Oracle}
    (h : ∀ t i q, pc' = .doneCall t i q → ∀ t' i', pc ≠ .doneScan t' i') :
    ∀ n ∈ clientNotes m o pc pc', n.plain m = true := by
  intro n hn
  cases clientNotes_cases hn with
  | doneBegan => exact absurd rfl (h _ _ _ rfl _ _)
  | _ => rfl

/-! ## The invariant -/

/-- `done_pending` says that a load is due for its `done_func` call. -/
def FlagDue (m : MgrPtr) (c : Client) (es : List Note) : Prop :=
  ∀ p r, c.rman.heap p = some r → r.donePending = Due m p es

namespace FlagDue

/-- A step that writes no `done_pending`. -/
theorem keep (h : FlagDue m ⟨rman, pc⟩ es) (hk : KeepsField Resource.donePending rman rman')
    (hns : ∀ n ∈ ns, n.plain m = true) : FlagDue m ⟨rman', pc'⟩ (ns ++ es) := by
  intro q r' hr'
  obtain ⟨r, hr, heq⟩ := hk q r' hr'
  rw [heq, due_append hns]
  exact h q r hr

theorem localStep {o : Oracle} (h : FlagDue m ⟨rman, pc⟩ es)
    (hs : localStep rman o pc = some (rman', pc')) :
    FlagDue m ⟨rman', pc'⟩ (clientNotes m o pc pc' ++ es) := by
  by_cases htake : ∃ t i q, pc' = .doneCall t i q
  · obtain ⟨t, i, q, hpc⟩ := htake
    cases localStep_cases hs with
    | doneTake hi hr hdone hup =>
      obtain ⟨r₀, hr₀, rfl⟩ := heap_of_update hup
      intro p r' hr'
      rcases update_eq_some.1 hr' with ⟨rfl, heq⟩ | ⟨hpq, hr'⟩
      · rw [← Option.some.inj heq]
        exact due_begin.symm
      · exact (h p r' hr').trans (due_begin_of_ne hpq).symm
    | doneOk hup hq hpc' => rcases hpc' with rfl | rfl <;> cases hpc
    | @rmFree _ _ _ k => cases k <;> cases hpc
    | _ => cases hpc
  · refine h.keep (localStep_keeps ⟨fun _ _ => rfl, fun _ _ => rfl⟩ hs (.inl fun _ _ => rfl)
      (.inr fun t i q heq => htake ⟨t, i, q, heq⟩) (.inl fun _ _ => rfl)) ?_
    exact clientNotes_plain fun t i q heq => absurd ⟨t, i, q, heq⟩ htake

theorem step {a : Action} {c c' : Client} (hp : Past m c es) (h : FlagDue m c es)
    (hdone : c.rman.doneFunc = true) (hv : NoteStep m a c c' ns) : FlagDue m c' (ns ++ es) := by
  cases hv with
  | frame _ hns =>
    refine h.keep (.refl _) fun n hn => ?_
    have hm := hns n hn
    cases n with
    | completed | doneBegan => simpa [Note.plain, Note.rman] using hm
    | _ => rfl
  | call hs =>
    rcases callStep_keeps (g := Resource.donePending) hs fun _ _ => rfl with
      hk | ⟨fname, data, mem, rfl, -, rfl, rfl⟩
    · exact h.keep hk callNotes_plain
    · intro p r' hr'
      rw [due_append callNotes_plain]
      rcases mem_heap_append.1 hr' with ⟨rfl, rfl⟩ | ⟨-, hr'⟩
      · refine (due_of_unnoted fun n hn hm q hq heq => ?_).symm
        exact Nat.lt_irrefl _ (heq ▸ hp.noted n hn hm q hq)
      · exact h p r' hr'
  | client hs => exact h.localStep hs
  | pool hs =>
    refine h.keep (.refl _) (clientNotes_plain ?_)
    rintro t i q rfl t' i' rfl
    cases hs
  | taken => exact h.keep (.of_heap_eq rfl) fun n hn => (by cases hn)
  | returned hup =>
    refine h.keep (.of_update hup fun _ => rfl) fun n hn => ?_
    obtain rfl := List.mem_singleton.1 hn
    rfl
  | @completed w o rman rman' pc p hpc hwork =>
    obtain ⟨rman₁, hup, hq, -⟩ := workDone_spec hwork
    obtain ⟨r₀, hr₀, rfl⟩ := heap_of_update hup
    have hns : completionNotes w m rman p = [.completed w m p] := by
      simp [completionNotes, Rman.condemns, show rman.doneFunc = true from hdone]
    rw [hns]
    intro q r' hr'
    obtain ⟨r₁, hr₁, -, hflag, -⟩ := hq.flags hr'
    rw [List.singleton_append, due_completed, hflag]
    rcases update_eq_some.1 hr₁ with ⟨rfl, heq⟩ | ⟨hqp, hr₁⟩
    · rw [← Option.some.inj heq]
      simp [finish, show rman.doneFunc = true from hdone]
    · rw [h q r₁ hr₁]
      simp [hqp]

end FlagDue

/-! ## Runs -/

/-- What the flag and the calls of `done_func` have to do with the completed loads of a manager:
* `done_pending` is set exactly when a load has been completed since the last call began;
* every call that has begun had a completed load before it that no earlier call covers;
* a completed load without a later call gets its call when the scan of `resman_poll` reaches the
  slot of the resource, whatever the outside answers. -/
structure CallbacksMatch (m : MgrPtr) (s : Sys) (c : Client) (es : List Note) : Prop where
  flag : ∀ p r, c.rman.heap p = some r → (r.donePending = true ↔ Due m p es = true)
  preceded : ∀ p l, .doneBegan m p :: l <:+ es → Due m p l = true
  followed : ∀ startTime i p w l₁ l₂, c.pc = .doneScan startTime i →
    c.rman.res[i]? = some (some p) → es = l₁ ++ .completed w m p :: l₂ →
    .doneBegan m p ∉ l₁ → ∀ o, ∃ s' c',
      trace (s, es) (.client m o) = some (s', .doneBegan m p :: es) ∧
      s'.clients m = some c' ∧ c'.pc = .doneCall startTime i p

/-- A note of a begun call is added only where the flag was found set. -/
theorem due_of_begun {a : Action} {c c' : Client} (h : FlagDue m c es) (hv : NoteStep m a c c' ns)
    (hns : .doneBegan m p ∈ ns) : ns = [.doneBegan m p] ∧ Due m p es = true := by
  cases hv with
  | frame _ hother => exact absurd rfl (hother _ hns)
  | call => exact absurd (callNotes_plain (m := m) _ hns) (by simp [Note.plain])
  | client hs =>
    cases clientNotes_cases hns with
    | doneBegan =>
      cases localStep_cases hs with
      | doneTake hi hr hdone hup => exact ⟨rfl, (h p _ hr).symm.trans hdone⟩
  | pool hs =>
    cases clientNotes_cases hns with
    | doneBegan => cases hs
  | taken => cases hns
  | returned => cases List.mem_singleton.1 hns
  | completed => rcases completionNotes_cases hns with heq | ⟨heq, -⟩ <;> cases heq

/-- The scan takes the flag of the resource in its slot. -/
theorem doneScan_due (startTime : Nat) {i : Nat} {r : Resource} (hi : rman.res[i]? = some (some p))
    (hr : rman.heap p = some r) (hdone : r.donePending = true) :
    ∃ rman', doneScan rman startTime i = some (rman', .doneCall startTime i p) := by
  refine ⟨{ rman with heap := Function.update rman.heap p (some { r with donePending := false }) },
    ?_⟩
  simp [doneScan, hi, hr, hdone, Rman.update]

/-- **Completion callbacks match completed loads**, in every run and for every manager that has a
`done_func`. -/
theorem callbacksMatch_of_run {numThreads : Nat} {as : List Action} {s : Sys}
    (h : exec trace (.initial numThreads, []) as = some (s, es)) {c : Client}
    (hc : s.clients m = some c) (hdone : c.rman.doneFunc = true) : CallbacksMatch m s c es := by
  have hinv := (history_invariant (m := m) (C := fun _ _ => True)
    (I := fun m c es => c.rman.doneFunc = true →
      FlagDue m c es ∧ ∀ p l, .doneBegan m p :: l <:+ es → Due m p l = true)
    (fun m d f es hes _ => ⟨fun p r hr => (by cases hr), fun p l hl =>
      absurd rfl (hes _ (hl.subset List.mem_cons_self))⟩)
    (fun m s a s' c c' es ns _ _ _ hp hI hv hdone' => by
      rw [hv.fields.1] at hdone'
      obtain ⟨hflag, hpre⟩ := hI hdone'
      refine ⟨hflag.step hp hdone' hv, fun p l hl => ?_⟩
      by_cases hns : .doneBegan m p ∈ ns
      · obtain ⟨rfl, hdue⟩ := due_of_begun hflag hv hns
        rcases List.suffix_cons_iff.1 hl with heq | hl
        · exact (List.cons.inj heq).2 ▸ hdue
        · exact hpre p l hl
      · exact hpre p l (suffix_of_not_mem hns hl))
    (along_true _ as) h).1 c hc
  obtain ⟨hp, hI⟩ := hinv
  obtain ⟨hflag, hpre⟩ := hI hdone
  refine ⟨fun p r hr => by rw [hflag p r hr], hpre, ?_⟩
  intro startTime i p w l₁ l₂ hpc hi hes hl₁ o
  have hdue : Due m p es = true := uncovered_iff.2 ⟨l₁, _, l₂, hes, by simp [Note.completes],
    fun n hn => by
      cases n with
      | doneBegan m' p' =>
        by_contra hb
        obtain ⟨rfl, rfl⟩ : m' = m ∧ p' = p := by simpa [Note.begins] using hb
        exact hl₁ hn
      | _ => rfl⟩
  obtain ⟨rman, pc⟩ := c
  obtain rfl : pc = .doneScan startTime i := hpc
  have hpassed : Pc.passed rman.res.length (.doneScan startTime i) = 0 := rfl
  obtain ⟨r, hr, -⟩ := hp.indexed.table.slot i p (by simp [hpassed]) hi
  obtain ⟨rman', hscan⟩ := doneScan_due startTime hi hr ((hflag p r hr).trans hdue)
  refine ⟨{ s with clients := Function.update s.clients m (some ⟨rman', .doneCall startTime i p⟩) },
    ⟨rman', .doneCall startTime i p⟩, record_eq_some.2 ⟨?_, ?_⟩, Function.update_self .., rfl⟩
  · simp [step, hc, Manager.localStep, hscan]
  · simp [notes, hc, clientNotes]

/-- A file is loaded, deleted and created again, and loaded again, and the scan of
`resman_poll` is at its slot. -/
def loadedTwice : List Action :=
  [.create 0 true false, .call 0 (.add "a" 0 {})] ++ clientSteps 0 {} 3 ++ workerSteps 0 {} 5 ++
  .call 0 .poll :: clientSteps 0 { watch := some 1 } 9 ++
  .call 0 .poll :: clientSteps 0 {} 2 ++
    .client 0 { event := some ⟨1, inIgnored, 0, 0⟩, watch := some 2 } :: clientSteps 0 {} 5 ++
  workerSteps 0 {} 5 ++ clientSteps 0 {} 3

theorem callbacksMatch_of_run_loadedTwice :
    let x := (exec trace (.initial 1, []) loadedTwice).get (by decide +kernel)
    let c := (x.1.clients 0).get (by decide +kernel)
    CallbacksMatch 0 x.1 c x.2 := by
  have h := (Option.some_get
    (by decide +kernel : (exec trace (.initial 1, []) loadedTwice).isSome)).symm
  exact callbacksMatch_of_run h (Option.some_get _).symm (by decide +kernel)

end Resman.Manager
