import Resman.Manager.FirstLoad

/-!
# Ids that stay valid

An id that `resman_add` has returned is promised (`Promised`) until it is removed, its first load
fails, or the manager is destroyed. The slot of a promised id holds the resource (`Holds`) in every
run in which `resman_add` never finds a resource that is marked for deletion: such a resource is
freed by the next `resman_poll`, and with it an id that has just been returned.
-/

namespace Resman.Manager

open Lib FileWatch

variable {rman rman' : Rman} {pc pc' : Pc} {p q : ResPtr} {m : MgrPtr}
  {es ns : List Note} {d : Bool} {id : Nat} {fname : String}

/-- A call of `resman_add` with the name has returned the id, of the resource `p`, and
since then neither was the id passed to `resman_remove`, nor was the manager destroyed,
nor did the first load fail. -/
def Promised (d : Bool) (m : MgrPtr) (id : Nat) (fname : String) (p : ResPtr) : List Note → Bool
  | [] => false
  | .added m' fname' id' p' :: es =>
    decide (m' = m ∧ fname' = fname ∧ id' = id ∧ p' = p) || Promised d m id fname p es
  | .removed m' id' :: es => !decide (m' = m ∧ id' = id) && Promised d m id fname p es
  | .destroyed m' :: es => !decide (m' = m) && Promised d m id fname p es
  | .condemned m' p' :: es =>
    !(decide (m' = m ∧ p' = p) && !Succeeded d m p es) && Promised d m id fname p es
  | _ :: es => Promised d m id fname p es

/-- Without an `added` note no promise is made. -/
theorem promised_of_append (hns : ∀ n ∈ ns, n ≠ .added m fname id p)
    (h : Promised d m id fname p (ns ++ es) = true) : Promised d m id fname p es = true := by
  induction ns with
  | nil => exact h
  | cons n ns ih =>
    obtain ⟨hn, hns⟩ := List.forall_mem_cons.1 hns
    refine ih hns ?_
    cases n with
    | added m' fname' id' p' =>
      rw [List.cons_append, Promised, Bool.or_eq_true] at h
      refine h.resolve_left fun heq => hn ?_
      obtain ⟨rfl, rfl, rfl, rfl⟩ := of_decide_eq_true heq
      rfl
    | removed | destroyed | condemned =>
      rw [List.cons_append, Promised, Bool.and_eq_true] at h
      exact h.2
    | _ => exact h

/-! ## Holding a resource -/

/-- The slot holds the live resource with the name, which is not marked for deletion. -/
def Holds (rman : Rman) (id : Nat) (fname : String) (p : ResPtr) : Prop :=
  rman.res[id]? = some (some p) ∧
    (rman.heap p).map (fun r => (r.name, r.deletePending)) = some (fname, false)

namespace Holds

theorem of_quiet {W : Set ResPtr} (h : Holds rman id fname p) (hq : Quiet W rman rman') :
    Holds rman' id fname p := by
  have hcore := congrArg (Option.map fun c : Core => (c.name, c.deletePending)) (hq.core p)
  rw [Option.map_map, Option.map_map] at hcore
  exact ⟨hq.res ▸ h.1, hcore.trans h.2⟩

theorem of_update {f : Resource → Resource} (h : Holds rman id fname p)
    (hup : rman.update q f = some rman')
    (hf : ∀ r, (f r).name = r.name ∧ (f r).deletePending = r.deletePending) :
    Holds rman' id fname p := by
  have hmap := map_heap_of_update (g := fun r => (r.name, r.deletePending)) hup
    (fun r => by rw [(hf r).1, (hf r).2]) p
  obtain ⟨r, -, rfl⟩ := heap_of_update hup
  exact ⟨h.1, hmap.trans h.2⟩

/-- A write to another resource. -/
theorem of_update_ne {f : Resource → Resource} (h : Holds rman id fname p)
    (hup : rman.update q f = some rman') (hpq : p ≠ q) : Holds rman' id fname p := by
  obtain ⟨r, -, rfl⟩ := heap_of_update hup
  exact ⟨h.1, (congrArg _ (Function.update_of_ne hpq _ _)).trans h.2⟩

theorem callDestroy (h : Holds rman id fname p) (i : Nat) :
    Holds (callDestroy rman i) id fname p := by
  unfold Manager.callDestroy
  split
  · exact h
  · exact h

/-- Another resource is freed, in another slot. -/
theorem free {i : Nat} (h : Holds rman id fname p) (hi : rman.res[i]? = some (some q)) (hpq : p ≠ q)
    (hfree : freeResource rman i q = some rman') : Holds rman' id fname p := by
  obtain ⟨r, -, hfree⟩ := Option.bind_eq_some_iff.1 hfree
  obtain rfl := Option.some.inj hfree
  have hne : i ≠ id := by
    rintro rfl
    exact hpq (Option.some.inj (Option.some.inj (h.1.symm.trans hi)))
  exact ⟨(List.getElem?_set_ne hne).trans h.1,
    (congrArg _ (Function.update_of_ne hpq _ _)).trans h.2⟩

/-- The resource is not the one that is appended. -/
theorem append (h : Holds rman id fname p) (hp : p ≠ rman.nalloc) (name : String) (data : Nat) :
    Holds (appendResource rman name data) id fname p := by
  have hlt := (List.getElem?_eq_some_iff.1 h.1).1
  exact ⟨(List.getElem?_append_left hlt).trans h.1,
    (congrArg _ (appendResource_heap_of_ne hp)).trans h.2⟩

end Holds

/-- The resource is about to be removed by the client, or everything is. -/
def Pc.leaves (p : ResPtr) : Pc → Bool
  | delTest _ q | delCall _ q | rmStop _ q _ | rmCall _ q _ | rmFree _ q _ => p = q
  | pc => pc.destroying

theorem Cont.leaves_resume (k : Cont) : k.resume.leaves p = false := by cases k <;> rfl

/-- Only resources that are marked for deletion are tested by the deletion loop. -/
theorem delScan_found {o : Oracle} {i j : Nat} (h : delScan rman i o = some (.delTest j p)) :
    ∃ r, rman.heap p = some r ∧ r.deletePending = true := by
  unfold delScan at h
  split at h
  · cases h
  · cases h
  · simp only [Option.bind_eq_bind, Option.bind_eq_some_iff] at h
    obtain ⟨r, hr, h⟩ := h
    cases hdel : r.deletePending with
    | false =>
      rw [hdel] at h
      cases h
    | true =>
      rw [hdel] at h
      obtain ⟨-, rfl⟩ := Pc.delTest.inj (Option.some.inj h)
      exact ⟨r, hr, hdel⟩

/-- A step inside a call frees no resource but one that is about to be removed. -/
theorem Holds.localStep {o : Oracle} (h : Holds rman id fname p) (hx : Indexed ⟨rman, pc⟩)
    (hl : pc.leaves p = false) (hs : localStep rman o pc = some (rman', pc')) :
    Holds rman' id fname p := by
  cases localStep_cases hs with
  | reloadTask hq | event hq | modsetEnd hq | doneReload hq | rmStop hq => exact h.of_quiet hq
  | reloadFlag hup => exact h.of_update hup fun _ => ⟨rfl, rfl⟩
  | doneTake _ _ _ hup => exact h.of_update hup fun _ => ⟨rfl, rfl⟩
  | doneOk hup hq => exact (h.of_update hup fun _ => ⟨rfl, rfl⟩).of_quiet hq
  | delCall | rmCall => exact h.callDestroy _
  | @rmFree _ q i k hfree =>
    have hpq : p ≠ q := by simpa [Pc.leaves] using hl
    exact h.free (hx.here i q rfl) hpq hfree
  | destroyCall | destroyFree => cases hl
  | _ => exact h

/-- A step inside a call turns to the removal of a resource that is held only where its load has
failed. -/
theorem condemned_of_leaves {o : Oracle} (h : Holds rman id fname p) (hl : pc.leaves p = false)
    (hs : Manager.localStep rman o pc = some (rman', pc')) (hl' : pc'.leaves p = true) :
    .condemned m p ∈ clientNotes m o pc pc' := by
  cases localStep_cases hs with
  | @delFound q i hi =>
    obtain ⟨pc₁, hscan, heq⟩ := Option.map_eq_some_iff.1 hs
    obtain ⟨-, rfl⟩ := Prod.mk.inj heq
    obtain ⟨r, hr, hdel⟩ := delScan_found hscan
    obtain rfl : p = q := by simpa [Pc.leaves] using hl'
    have hheld := h.2
    rw [hr, Option.map_some, Option.some_inj, hdel] at hheld
    cases hheld
  | doneFail =>
    obtain rfl := of_decide_eq_true hl'
    exact List.mem_cons_self
  | @rmFree _ _ _ k => exact absurd (k.leaves_resume.symm.trans hl') Bool.false_ne_true
  | doneOk _ _ hpc' => rcases hpc' with rfl | rfl <;> cases hl'
  | delFree | delCall | rmStop | rmCall | destroyEnd | destroySkip | destroyFound | destroyCall
  | destroyFree => exact absurd (hl.symm.trans hl') Bool.false_ne_true
  | _ => cases hl'

/-! ## The invariant -/

/-- The ids that are promised hold, and the client is not about to remove their resources. -/
def Kept (m : MgrPtr) (c : Client) (es : List Note) : Prop :=
  ∀ id fname p, Promised c.rman.doneFunc m id fname p es = true →
    Holds c.rman id fname p ∧ c.pc.leaves p = false

/-- Calls of `resman_add` find no resource that is marked for deletion. -/
def AddsLive (m : MgrPtr) (x : Sys × List Note) : Action → Prop
  | .call m' (.add fname _ _) => m' = m → ∀ c ∈ x.1.clients m, ∀ slot ∈ c.rman.res, ∀ p ∈ slot,
      ∀ r ∈ c.rman.heap p, r.name = fname → r.deletePending = false
  | _ => True

instance (m : MgrPtr) (x : Sys × List Note) : ∀ a, Decidable (AddsLive m x a)
  | .call m' (.add fname _ _) => inferInstanceAs (Decidable (m' = m → ∀ c ∈ x.1.clients m,
      ∀ slot ∈ c.rman.res, ∀ p ∈ slot, ∀ r ∈ c.rman.heap p, r.name = fname →
        r.deletePending = false))
  | .call _ (.setopt _) | .call _ (.find _) | .call _ (.remove _) | .call _ .poll
  | .call _ .destroy | .create .. | .client .. | .worker .. => isTrue trivial

/-- The failure of the first load ends the promises of the resource. -/
theorem not_promised_of_condemned {n : Note} (hn : n.succeeds d m p = false)
    (h : Succeeded d m p es = false) :
    Promised d m id fname p (.condemned m p :: n :: es) = false := by
  have hs : Succeeded d m p (n :: es) = false := (succeeded_cons hn).trans h
  simp [Promised, hs]

theorem clientNotes_ne_added {o : Oracle} :
    ∀ n ∈ clientNotes m o pc pc', n ≠ .added m fname id p := by
  rintro n hn rfl
  cases clientNotes_cases hn

theorem completionNotes_ne_added {w : Nat} :
    ∀ n ∈ completionNotes w m rman q, n ≠ .added m fname id p := by
  rintro n hn rfl
  rcases completionNotes_cases hn with heq | ⟨heq, -⟩ <;> cases heq

namespace Kept

/-- A call returns an id. -/
theorem added {s : Sys} {f : Call} (hC : AddsLive m (s, es) (.call m f))
    (hc : s.clients m = some ⟨rman, .idle⟩) (hs : callStep rman f = some (rman', pc'))
    (hn : .added m fname id p ∈ callNotes m rman f pc') :
    Holds rman' id fname p ∧ pc'.leaves p = false := by
  cases callNotes_cases hn with
  | found hfind hid =>
    rcases findFrom_spec hfind with ⟨hneg, -⟩ | ⟨j, hj, ⟨q, hq, r, hr, hname⟩, -⟩
    · omega
    · obtain rfl : id = j := by omega
      obtain rfl : p = q := Option.some.inj (Option.some.inj (hid.symm.trans hq))
      have hdel := hC rfl _ hc _ (List.mem_of_getElem? hid) p rfl r hr hname
      have hheld : Holds rman id fname p :=
        ⟨hid, by rw [show rman.heap p = some r from hr, Option.map_some, hname, hdel]⟩
      cases callStep_cases hs with
      | stay => exact ⟨hheld, rfl⟩
      | added hno => exact absurd (hfind.symm.trans hno) (by simp)
  | new =>
    cases callStep_cases hs with
    | added =>
      refine ⟨⟨List.getElem?_concat_length, ?_⟩, rfl⟩
      rw [appendResource_heap_self]
      rfl

/-- The other promises when a call begins. -/
theorem call {f : Call} (hp : Past m ⟨rman, .idle⟩ es) (h : Kept m ⟨rman, .idle⟩ es)
    (hs : callStep rman f = some (rman', pc'))
    (hn : .added m fname id p ∉ callNotes m rman f pc')
    (hprom : Promised rman.doneFunc m id fname p (callNotes m rman f pc' ++ es) = true) :
    Holds rman' id fname p ∧ pc'.leaves p = false := by
  obtain ⟨hheld, -⟩ := h id fname p
    (promised_of_append (fun n hmem heq => hn (heq ▸ hmem)) hprom)
  cases callStep_cases hs with
  | setopt | stay | poll => exact ⟨hheld, rfl⟩
  | destroy => simp [callNotes, Promised] at hprom
  | added =>
    refine ⟨hheld.append ?_ _ _, rfl⟩
    rintro rfl
    obtain ⟨r, hr, -⟩ := Option.map_eq_some_iff.1 hheld.2
    exact Nat.lt_irrefl _ (hp.lt hr)
  | @remove rman' q id' hq hup =>
    refine ⟨hheld.of_update_ne hup ?_, rfl⟩
    rintro rfl
    have hne : id' ≠ id := by
      rintro rfl
      simp [callNotes, Promised] at hprom
    exact hne (hp.indexed.table.slot_inj (Nat.zero_le _) (Nat.zero_le _) hq hheld.1)

theorem step {s : Sys} {a : Action} {c c' : Client} (hC : AddsLive m (s, es) a)
    (hc : s.clients m = some c) (hp : Past m c es) (hU : Unloaded m c es) (hF : Flagged c)
    (h : Kept m c es) (hv : NoteStep m a c c' ns) : Kept m c' (ns ++ es) := by
  intro id fname p hprom
  rw [hv.fields.1] at hprom
  have hcond : .condemned m p ∉ ns := fun hmem => by
    obtain ⟨n, rfl, -, hn, hsucc⟩ := condemned_of_notes hU hF hv hmem
    exact absurd ((not_promised_of_condemned hn hsucc).symm.trans hprom) Bool.false_ne_true
  cases hv with
  | frame _ hns =>
    exact h id fname p (promised_of_append (fun n hn heq => hns n hn (heq ▸ rfl)) hprom)
  | @call f rman rman' pc' hs =>
    by_cases hn : .added m fname id p ∈ callNotes m rman f pc'
    · exact added hC hc hs hn
    · exact call hp h hs hn hprom
  | client hs =>
    obtain ⟨hheld, hl⟩ := h id fname p (promised_of_append clientNotes_ne_added hprom)
    refine ⟨hheld.localStep hp.indexed hl hs, ?_⟩
    by_contra hl'
    exact hcond (condemned_of_leaves hheld hl hs (by simpa using hl'))
  | @pool o rman pool pool' pc pc' hs =>
    obtain ⟨hheld, hl⟩ := h id fname p (promised_of_append clientNotes_ne_added hprom)
    refine ⟨hheld, ?_⟩
    cases poolStep_cases hs with
    | @enqueue _ _ k | @lost _ _ k => exact k.leaves_resume
    | drain => rfl
    | release | clear | quit | join => cases hl
  | taken => exact h id fname p hprom
  | returned hup =>
    obtain ⟨hheld, hl⟩ := h id fname p (promised_of_append (by simp) hprom)
    exact ⟨hheld.of_update hup fun _ => ⟨rfl, rfl⟩, hl⟩
  | @completed w o rman rman' pc q _ hwork =>
    obtain ⟨hheld, hl⟩ := h id fname p (promised_of_append completionNotes_ne_added hprom)
    refine ⟨?_, hl⟩
    obtain ⟨rman₁, hup, hq, -⟩ := workDone_spec hwork
    refine Holds.of_quiet ?_ hq
    by_cases hpq : p = q
    · subst hpq
      obtain ⟨r, hr, -⟩ := heap_of_update hup
      have hno : rman.condemns p = false := by
        by_contra hc
        exact hcond (by simp [completionNotes, hc])
      have hfin : finish rman.doneFunc r =
          { finish rman.doneFunc r with deletePending := r.deletePending } := by
        simp only [Rman.condemns, hr, Option.any_some] at hno
        simp [finish, hno]
      exact hheld.of_update ((update_congr (g := fun r =>
        { finish rman.doneFunc r with deletePending := r.deletePending }) hr hfin).symm.trans hup)
        fun _ => ⟨rfl, rfl⟩
    · exact hheld.of_update_ne hup hpq

end Kept

/-! ## Runs -/

/-- Every id that is promised is the slot of a live resource with the name. -/
def IdsStayValid (m : MgrPtr) (c : Client) (es : List Note) : Prop :=
  ∀ id fname p, Promised c.rman.doneFunc m id fname p es = true →
    ∃ q r, c.rman.res[id]? = some (some q) ∧ c.rman.heap q = some r ∧ r.name = fname

/-- **An id that `resman_add` has returned stays valid** until it is removed, its first load fails
or the manager is destroyed, in every run in which no call of `resman_add` finds a resource that is
marked for deletion, and no reload of a loaded file fails in a manager without a `done_func`. -/
theorem idsStayValid_of_run {numThreads : Nat} {as : List Action} {s : Sys}
    (hC : Along trace (fun x a => ReloadsSucceed m x a ∧ AddsLive m x a)
      (.initial numThreads, []) as)
    (h : exec trace (.initial numThreads, []) as = some (s, es)) {c : Client}
    (hc : s.clients m = some c) : IdsStayValid m c es := by
  obtain ⟨-, hI⟩ := (history_invariant (m := m)
    (C := fun x a => ReloadsSucceed m x a ∧ AddsLive m x a)
    (I := fun m' c es => m = m' → Unloaded m' c es ∧ Flagged c ∧ Kept m' c es)
    (fun m d f es hes _ => ⟨fun p r hr => (by cases hr),
      ⟨fun p r hr => (by cases hr), fun t i p heq => (by cases heq)⟩,
      fun id fname p hprom => absurd (promised_of_append (fun n hn heq => hes n hn (heq ▸ rfl))
        (by rwa [List.append_nil]) : Promised _ _ id fname p [] = true) (by simp [Promised])⟩)
    (fun m' s a s' c c' es ns hC hc hnotes hp hI hv hm => by
      subst hm
      obtain ⟨hU, hF, hK⟩ := hI rfl
      exact ⟨hU.step hC.1 hc hnotes hp hv, hF.step hv, hK.step hC.2 hc hp hU hF hv⟩)
    hC h).1 c hc
  obtain ⟨-, -, hK⟩ := hI rfl
  intro id fname p hprom
  obtain ⟨⟨hid, hheap⟩, -⟩ := hK id fname p hprom
  obtain ⟨r, hr, heq⟩ := Option.map_eq_some_iff.1 hheap
  exact ⟨p, r, hid, hr, (Prod.mk.inj heq).1⟩

/-- A file is added, and added again after it has been loaded; another one is removed and freed. -/
def addedAgain : List Action :=
  [.create 0 true false, .call 0 (.add "a" 0 {})] ++ clientSteps 0 {} 3 ++ workerSteps 0 {} 5 ++
  [.call 0 (.add "b" 0 {})] ++ clientSteps 0 {} 3 ++ workerSteps 0 {} 5 ++
  [.call 0 (.add "a" 0 {}), .call 0 (.remove 1), .call 0 .poll] ++ clientSteps 0 {} 14

theorem idsStayValid_of_run_addedAgain :
    let x := (exec trace (.initial 1, []) addedAgain).get (by decide +kernel)
    let c := (x.1.clients 0).get (by decide +kernel)
    IdsStayValid 0 c x.2 := by
  have h := (Option.some_get
    (by decide +kernel : (exec trace (.initial 1, []) addedAgain).isSome)).symm
  exact idsStayValid_of_run (by decide +kernel) h (Option.some_get _).symm

/-- A file is removed and added again before the next poll. -/
def addedAfterRemove : List Action :=
  [.create 0 true false, .call 0 (.add "a" 0 {})] ++ clientSteps 0 {} 3 ++ workerSteps 0 {} 5 ++
  [.call 0 (.remove 0), .call 0 (.add "a" 0 {}), .call 0 .poll] ++ clientSteps 0 {} 13

/-- The poll frees the resource whose id has just been returned. -/
theorem not_idsStayValid_addedAfterRemove :
    ¬ ∀ numThreads as s es m c, exec trace (.initial numThreads, []) as = some (s, es) →
      s.clients m = some c → IdsStayValid m c es := by
  intro hall
  have hrun : ((exec trace (.initial 1, []) addedAfterRemove).any
      fun x => (x.1.clients 0).any fun c =>
      Promised c.rman.doneFunc 0 0 "a" 0 x.2 = true ∧ c.rman.res[0]? = some none) = true := by
    decide +kernel
  obtain ⟨⟨s, es⟩, hx, hrun⟩ := (Option.any_eq_true _ _).1 hrun
  obtain ⟨c, hc, hrun⟩ := (Option.any_eq_true _ _).1 hrun
  obtain ⟨hprom, hslot⟩ := of_decide_eq_true hrun
  obtain ⟨q, r, hq, -⟩ := hall 1 addedAfterRemove s es 0 c hx hc 0 "a" 0 hprom
  exact absurd (hslot.symm.trans hq) (by simp)

end Resman.Manager
