import Resman.Manager.View

/-!
# The resource table

In every reachable state the slots of a manager hold live resources with the right ids and distinct
names (`Table`). `find_resource` looks the name of every slot up without testing the slot:
`findFrom_spec` follows its loop, and `find_iff` says for which names it gives the right answer.

`resman_destroy` leaves the array as it is while it frees the resources, so the table is kept from
slot `lo` on, where `lo` counts the slots that the loop of `resman_destroy` has passed.
-/

namespace Resman.Manager

open Lib

variable {rman rman' : Rman} {pc pc' : Pc} {p q : ResPtr} {r : Resource} {lo : Nat}

/-! ## The invariant -/

structure Table (rman : Rman) (lo : Nat) : Prop where
  slot : ∀ i p, lo ≤ i → rman.res[i]? = some (some p) → ∃ r ∈ rman.heap p, r.id = i
  live : ∀ p, ∀ r ∈ rman.heap p, lo ≤ r.id ∧ rman.res[r.id]? = some (some p)
  names : ∀ p q, ∀ r ∈ rman.heap p, ∀ r' ∈ rman.heap q, r.name = r'.name → p = q
  fresh : ∀ p, rman.nalloc ≤ p → rman.heap p = none

/-- The number of slots that `resman_destroy` has passed. -/
def Pc.passed (size : Nat) : Pc → Nat
  | destroyScan i | destroyCall i _ | destroyFree i _ => i
  | pc => if pc.released then size else 0

/-- The slot that the client works on, and the resource in it. -/
def Pc.slot? : Pc → Option (Nat × ResPtr)
  | delTest i p | delCall i p | rmStop i p _ | rmCall i p _ | rmFree i p _ | doneCall _ i p
  | destroyCall i p | destroyFree i p => some (i, p)
  | _ => none

structure Indexed (c : Client) : Prop where
  table : Table c.rman (c.pc.passed c.rman.res.length)
  here : ∀ i p, c.pc.slot? = some (i, p) → c.rman.res[i]? = some (some p)

namespace Table

/-- Two slots do not hold the same resource. -/
theorem slot_inj (h : Table rman lo) {i j : Nat} (hi : lo ≤ i) (hj : lo ≤ j)
    (hpi : rman.res[i]? = some (some p)) (hpj : rman.res[j]? = some (some p)) : i = j := by
  obtain ⟨r, hr, rfl⟩ := h.slot i p hi hpi
  obtain ⟨r', hr', rfl⟩ := h.slot j p hj hpj
  obtain rfl := Option.some.inj (hr.symm.trans hr')
  rfl

/-- The table depends on the ids and names of the resources only. -/
theorem congr (h : Table rman lo) (hres : rman'.res = rman.res)
    (halloc : rman'.nalloc = rman.nalloc)
    (hheap : ∀ q, (rman'.heap q).map (fun r => (r.id, r.name)) =
      (rman.heap q).map fun r => (r.id, r.name)) : Table rman' lo := by
  have hold : ∀ q, ∀ r' ∈ rman'.heap q, ∃ r ∈ rman.heap q, r'.id = r.id ∧ r'.name = r.name := by
    intro q r' hr'
    have hq := hheap q
    rw [show rman'.heap q = some r' from hr'] at hq
    obtain ⟨r, hr, heq⟩ := Option.map_eq_some_iff.1 hq.symm
    obtain ⟨hid, hname⟩ := Prod.mk.inj heq
    exact ⟨r, hr, hid.symm, hname.symm⟩
  refine ⟨fun i p hi hp => ?_, fun p r' hr' => ?_, fun p q r₁ hr₁ r₂ hr₂ hname => ?_,
    fun p hp => ?_⟩
  · obtain ⟨r, hr, hid⟩ := h.slot i p hi (hres ▸ hp)
    have hq := hheap p
    rw [show rman.heap p = some r from hr] at hq
    obtain ⟨r', hr', heq⟩ := Option.map_eq_some_iff.1 hq
    exact ⟨r', hr', (Prod.mk.inj heq).1.trans hid⟩
  · obtain ⟨r, hr, hid, -⟩ := hold p r' hr'
    rw [hid, hres]
    exact h.live p r hr
  · obtain ⟨r₁', hr₁', -, hn₁⟩ := hold p r₁ hr₁
    obtain ⟨r₂', hr₂', -, hn₂⟩ := hold q r₂ hr₂
    exact h.names p q r₁' hr₁' r₂' hr₂' (hn₁.symm.trans (hname.trans hn₂))
  · have hnone := h.fresh p (halloc ▸ hp)
    have hq := hheap p
    rw [hnone] at hq
    simpa using hq

theorem of_quiet {W : Set ResPtr} (h : Table rman lo) (hq : Quiet W rman rman') :
    Table rman' lo := by
  refine h.congr hq.res hq.nalloc fun q => ?_
  have hcore := congrArg (Option.map fun c : Core => (c.id, c.name)) (hq.core q)
  rw [Option.map_map, Option.map_map] at hcore
  exact hcore

theorem of_update {f : Resource → Resource} (h : Table rman lo) (hup : rman.update p f = some rman')
    (hf : ∀ r, (f r).id = r.id ∧ (f r).name = r.name) : Table rman' lo := by
  have hmap := map_heap_of_update (g := fun r => (r.id, r.name)) hup fun r => by
    rw [(hf r).1, (hf r).2]
  obtain ⟨r, hr, rfl⟩ := heap_of_update hup
  exact h.congr rfl rfl hmap

theorem callDestroy (h : Table rman lo) (i : Nat) : Table (callDestroy rman i) lo := by
  unfold Manager.callDestroy
  split
  · exact h.congr rfl rfl fun _ => rfl
  · exact h

/-- `resman_destroy` goes on to the next slot. -/
theorem next {i : Nat} (h : Table rman i)
    (hi : ∀ p, rman.res[i]? = some (some p) → rman.heap p = none) :
    Table rman (i + 1) where
  slot j p hj hp := h.slot j p (by omega) hp
  live p r hr := by
    obtain ⟨hle, hslot⟩ := h.live p r hr
    refine ⟨?_, hslot⟩
    rcases Nat.lt_or_eq_of_le hle with hlt | rfl
    · exact hlt
    · exact absurd (show rman.heap p = some r from hr) (by simp [hi p hslot])
  names := h.names
  fresh := h.fresh

/-- After the last slot there is no resource left. -/
theorem finish {i : Nat} (h : Table rman i) (hi : rman.res.length ≤ i) :
    Table rman rman.res.length where
  slot j p hj hp := by
    rw [List.getElem?_eq_none hj] at hp
    cases hp
  live p r hr := by
    obtain ⟨hle, hslot⟩ := h.live p r hr
    rw [List.getElem?_eq_none (hi.trans hle)] at hslot
    cases hslot
  names := h.names
  fresh := h.fresh

/-- The resource in slot `i` is freed, and the array keeps its address. -/
theorem free {i : Nat} (h : Table rman i) (hi : rman.res[i]? = some (some p)) (log : List Event) :
    Table { rman with heap := Function.update rman.heap p none, log } (i + 1) := by
  refine ⟨fun j q hj hq => ?_, fun q r hr => ?_, fun q q' r hr r' hr' => ?_, fun q hq => ?_⟩
  · obtain ⟨r, hr, hid⟩ := h.slot j q (by omega) hq
    have hne : q ≠ p := by
      rintro rfl
      have hij := h.slot_inj (by omega) le_rfl hq hi
      omega
    exact ⟨r, by simpa [hne] using hr, hid⟩
  · obtain ⟨hne, hr⟩ := update_none_eq_some.1 hr
    obtain ⟨hle, hslot⟩ := h.live q r hr
    refine ⟨?_, hslot⟩
    rcases Nat.lt_or_eq_of_le hle with hlt | rfl
    · exact hlt
    · exact absurd (Option.some.inj (Option.some.inj (hslot.symm.trans hi))) hne
  · exact h.names q q' r (update_none_eq_some.1 hr).2 r' (update_none_eq_some.1 hr').2
  · by_cases hqp : q = p
    · simp [hqp]
    · simpa [hqp] using h.fresh q hq

/-- `remove_resource` frees a resource and clears its slot. -/
theorem remove {i : Nat} (h : Table rman 0) (hi : rman.res[i]? = some (some p))
    (hfree : freeResource rman i p = some rman') : Table rman' 0 := by
  obtain ⟨r₀, hr₀, hfree⟩ := Option.bind_eq_some_iff.1 hfree
  obtain rfl := Option.some.inj hfree
  refine ⟨fun j q hj hq => ?_, fun q r hr => ?_, fun q q' r hr r' hr' => ?_, fun q hq => ?_⟩
  · have hne : j ≠ i := by
      rintro rfl
      have hlt := (List.getElem?_eq_some_iff.1 hi).1
      simp [hlt] at hq
    have hslot : rman.res[j]? = some (some q) := by
      rwa [List.getElem?_set_ne (Ne.symm hne)] at hq
    obtain ⟨r, hr, hid⟩ := h.slot j q hj hslot
    have hqp : q ≠ p := by
      rintro rfl
      exact hne (h.slot_inj (Nat.zero_le _) (Nat.zero_le _) hslot hi)
    exact ⟨r, by simpa [hqp] using hr, hid⟩
  · obtain ⟨hne, hr⟩ := update_none_eq_some.1 hr
    obtain ⟨hle, hslot⟩ := h.live q r hr
    refine ⟨hle, ?_⟩
    have hid : i ≠ r.id := by
      rintro rfl
      exact hne (Option.some.inj (Option.some.inj (hslot.symm.trans hi)))
    rw [List.getElem?_set_ne hid]
    exact hslot
  · exact h.names q q' r (update_none_eq_some.1 hr).2 r' (update_none_eq_some.1 hr').2
  · by_cases hqp : q = p
    · simp [hqp]
    · simpa [hqp] using h.fresh q hq

/-- A resource with a new name is appended. -/
theorem append (h : Table rman 0) {fname : String} (data : Nat)
    (hnew : ∀ p, ∀ r ∈ rman.heap p, r.name ≠ fname) : Table (appendResource rman fname data) 0 := by
  have hnone := h.fresh _ (Nat.le_refl rman.nalloc)
  refine ⟨fun i q hi hq => ?_, fun q r hr => ?_, fun q q' r hr r' hr' hname => ?_, fun q hq => ?_⟩
  · have hq' : (rman.res ++ [some rman.nalloc])[i]? = some (some q) := hq
    rcases Nat.lt_trichotomy i rman.res.length with hlt | rfl | hgt
    · rw [List.getElem?_append_left hlt] at hq'
      obtain ⟨r, hr, hid⟩ := h.slot i q hi hq'
      have hne : q ≠ rman.nalloc := by
        rintro rfl
        exact absurd (hr.symm.trans hnone) (by simp)
      exact ⟨r, (appendResource_heap_of_ne hne).trans hr, hid⟩
    · rw [List.getElem?_concat_length] at hq'
      obtain rfl := Option.some.inj (Option.some.inj hq')
      exact ⟨_, appendResource_heap_self, rfl⟩
    · rw [List.getElem?_eq_none (by simp; omega)] at hq'
      cases hq'
  · rcases mem_heap_append.1 hr with ⟨rfl, rfl⟩ | ⟨-, hr⟩
    · exact ⟨Nat.zero_le _, List.getElem?_concat_length⟩
    · obtain ⟨hle, hslot⟩ := h.live q r hr
      refine ⟨hle, ?_⟩
      have hlt := (List.getElem?_eq_some_iff.1 hslot).1
      exact (List.getElem?_append_left hlt).trans hslot
  · rcases mem_heap_append.1 hr with ⟨rfl, rfl⟩ | ⟨-, hr⟩
    · rcases mem_heap_append.1 hr' with ⟨rfl, -⟩ | ⟨-, hr'⟩
      · rfl
      · exact absurd hname.symm (hnew q' r' hr')
    · rcases mem_heap_append.1 hr' with ⟨rfl, rfl⟩ | ⟨-, hr'⟩
      · exact absurd hname (hnew q r hr)
      · exact h.names q q' r hr r' hr' hname
  · have hlt : rman.nalloc < q := hq
    exact (appendResource_heap_of_ne hlt.ne').trans (h.fresh q hlt.le)

end Table

/-! ## The scan of `find_resource` -/

section Scan

variable {fname : String} {slots : List (Option ResPtr)} {i : Nat} {idx : Int}

/-- A slot of the list holds a live resource with the name. -/
def Named (rman : Rman) (fname : String) (slots : List (Option ResPtr)) (k : Nat) : Prop :=
  ∃ p, slots[k]? = some (some p) ∧ ∃ r ∈ rman.heap p, r.name = fname

/-- What the scan returns: the first slot with the name, and `-1` when no slot has it. In both cases
it has passed no empty slot. -/
theorem findFrom_spec (h : findFrom rman fname i slots = some idx) :
    (idx = -1 ∧ none ∉ slots ∧ ∀ k, ¬ Named rman fname slots k) ∨
      ∃ k, idx = (i + k : Nat) ∧ Named rman fname slots k ∧ none ∉ slots.take k := by
  induction slots generalizing i with
  | nil =>
    refine .inl ⟨(Option.some.inj h).symm, by simp, ?_⟩
    rintro k ⟨p, hp, -⟩
    simp at hp
  | cons slot slots ih =>
    simp only [findFrom, Option.bind_eq_bind, Option.bind_eq_some_iff] at h
    obtain ⟨p, rfl, r, hr, h⟩ := h
    split at h
    · next hname =>
      exact .inr ⟨0, (Option.some.inj h).symm, ⟨p, rfl, r, hr, hname⟩, by simp⟩
    · next hname =>
      rcases ih h with ⟨rfl, hfull, hno⟩ | ⟨k, rfl, hk, hfull⟩
      · refine .inl ⟨rfl, by simpa using hfull, ?_⟩
        rintro (_ | k) ⟨q, hq, r', hr', hname'⟩
        · obtain rfl := Option.some.inj (Option.some.inj hq)
          obtain rfl := Option.some.inj (hr.symm.trans hr')
          exact hname hname'
        · exact hno k ⟨q, hq, r', hr', hname'⟩
      · exact .inr ⟨k + 1, by omega, hk, by simpa using hfull⟩

/-- The scan goes through when every empty slot comes after one with the name. -/
theorem findFrom_isSome (slots : List (Option ResPtr)) (fname : String) (i : Nat)
    (hlive : ∀ p, some p ∈ slots → ∃ r, rman.heap p = some r)
    (hclear : ∀ j, slots[j]? = some none → ∃ k < j, Named rman fname slots k) :
    ∃ idx, findFrom rman fname i slots = some idx := by
  induction slots generalizing i with
  | nil => exact ⟨-1, rfl⟩
  | cons slot slots ih =>
    cases slot with
    | none =>
      obtain ⟨k, hk, -⟩ := hclear 0 rfl
      exact absurd hk (Nat.not_lt_zero k)
    | some p =>
      obtain ⟨r, hr⟩ := hlive p List.mem_cons_self
      simp only [findFrom, Option.bind_eq_bind, Option.bind_some, hr]
      split
      · exact ⟨i, rfl⟩
      · next hname =>
        refine ih (i + 1) (fun q hq => hlive q (List.mem_cons_of_mem _ hq)) fun j hj => ?_
        obtain ⟨k, hk, q, hq, r', hr', hname'⟩ := hclear (j + 1) hj
        cases k with
        | zero =>
          obtain rfl := Option.some.inj (Option.some.inj hq)
          obtain rfl := Option.some.inj (hr.symm.trans hr')
          exact absurd hname' hname
        | succ k => exact ⟨k, by omega, q, hq, r', hr', hname'⟩

end Scan

/-! ## Steps -/

theorem Cont.passed_resume (k : Cont) (size : Nat) : k.resume.passed size = 0 := by cases k <;> rfl

theorem Cont.slot_resume (k : Cont) : k.resume.slot? = none := by cases k <;> rfl

theorem Pc.passed_of_released (h : pc.released) (size : Nat) : pc.passed size = size := by
  cases pc <;> first | rfl | cases h

theorem Pc.passed_of_not_destroying (h : pc.destroying = false) (size : Nat) :
    pc.passed size = 0 := by
  cases pc <;> first | rfl | cases h

theorem Pc.slot_of_released (h : pc.released) : pc.slot? = none := by
  cases pc <;> first | rfl | cases h

namespace Indexed

/-- A step to a position that works on no slot. -/
theorem leave (ht : Table rman' (pc'.passed rman'.res.length)) (hslot : pc'.slot? = none) :
    Indexed ⟨rman', pc'⟩ :=
  ⟨ht, fun i p hp => by rw [hslot] at hp; cases hp⟩

/-- A step to a position that works on slot `i`. -/
theorem enter {i : Nat} (ht : Table rman' (pc'.passed rman'.res.length))
    (hslot : pc'.slot? = some (i, p)) (hi : rman'.res[i]? = some (some p)) : Indexed ⟨rman', pc'⟩ :=
  ⟨ht, fun j q hq => by
    rw [hslot] at hq
    obtain ⟨rfl, rfl⟩ := Prod.mk.inj (Option.some.inj hq)
    exact hi⟩

theorem quiet {W : Set ResPtr} (h : Indexed ⟨rman, pc⟩) (hq : Quiet W rman rman')
    (hpassed : pc'.passed rman.res.length = pc.passed rman.res.length)
    (hslot : pc'.slot? = pc.slot?) : Indexed ⟨rman', pc'⟩ where
  table := by
    show Table rman' (pc'.passed rman'.res.length)
    rw [hq.res, hpassed]
    exact h.table.of_quiet hq
  here i p hp := by
    show rman'.res[i]? = some (some p)
    rw [hq.res]
    exact h.here i p (hslot ▸ hp)

theorem localStep {o : Oracle} (h : Indexed ⟨rman, pc⟩)
    (hs : localStep rman o pc = some (rman', pc')) : Indexed ⟨rman', pc'⟩ := by
  have ht := h.table
  have hhere := h.here
  cases localStep_cases hs with
  | reloadTask hq | event hq | modsetEnd hq | doneReload hq | rmStop hq => exact h.quiet hq rfl rfl
  | reloadFlag hup => exact leave (ht.of_update hup fun _ => ⟨rfl, rfl⟩) rfl
  | delEnd | delSkip | delBusy | watchEnd | modsetSkip | modsetReload | doneStart | noDone | doneEnd
  | doneSkip | doneLate => exact leave ht rfl
  | delFound hi => exact enter ht rfl hi
  | delFree => exact enter ht rfl (hhere _ _ rfl)
  | doneFail => exact enter ht rfl (hhere _ _ rfl)
  | destroyFound hi => exact enter ht rfl hi
  | delCall | rmCall | destroyCall =>
    refine enter ?_ rfl ?_
    · exact ht.callDestroy _
    · rw [callDestroy_res]
      exact hhere _ _ rfl
  | @rmFree _ _ _ k hfree =>
    refine leave ?_ k.slot_resume
    rw [k.passed_resume]
    exact ht.remove (hhere _ _ rfl) hfree
  | doneTake hi hr hdone hup =>
    refine enter (ht.of_update hup fun _ => ⟨rfl, rfl⟩) rfl ?_
    rw [res_of_update hup]
    exact hi
  | doneOk hup hq hpc' =>
    have ht' := (ht.of_update hup fun _ => ⟨rfl, rfl⟩).of_quiet hq
    rcases hpc' with rfl | rfl <;> exact leave ht' rfl
  | destroyEnd hi => exact leave (ht.finish hi) rfl
  | destroySkip hi =>
    exact leave (ht.next fun p hp => absurd (hi.symm.trans hp) (by simp)) rfl
  | destroyFree hr => exact leave (ht.free (hhere _ _ rfl) _) rfl

theorem callStep {f : Call} (h : Indexed ⟨rman, .idle⟩)
    (hs : callStep rman f = some (rman', pc')) : Indexed ⟨rman', pc'⟩ := by
  have ht : Table rman 0 := h.table
  cases callStep_cases hs with
  | setopt => exact leave (ht.congr rfl rfl fun _ => rfl) rfl
  | stay | poll | destroy => exact leave ht rfl
  | @added fname data mem hfind hfull =>
    refine leave (ht.append data fun p r hr => ?_) rfl
    obtain ⟨-, hslot⟩ := ht.live p r hr
    rcases findFrom_spec hfind with ⟨-, -, hno⟩ | ⟨k, hk, -⟩
    · exact fun hname => hno r.id ⟨p, hslot, r, hr, hname⟩
    · omega
  | remove hi hup => exact leave (ht.of_update hup fun _ => ⟨rfl, rfl⟩) rfl

/-- A step of a worker leaves the client where it is. -/
theorem worker (h : Indexed ⟨rman, pc⟩) (hres : rman'.res = rman.res)
    (ht : Table rman' (pc.passed rman.res.length)) : Indexed ⟨rman', pc⟩ where
  table := by rwa [show (Client.mk rman' pc).rman.res = rman.res from hres]
  here i p hp := by
    rw [show (Client.mk rman' pc).rman.res = rman.res from hres]; exact h.here i p hp

theorem step {m : MgrPtr} {a : Action} {c c' : Client} {n n' : ResPtr → Nat} (h : Indexed c)
    (hv : ViewStep m a c n c' n') : Indexed c' := by
  cases hv with
  | frame => exact h
  | call hs => exact h.callStep hs
  | client hs => exact h.localStep hs
  | @enqueue _ rman _ _ k _ _ _ =>
    refine leave ?_ k.slot_resume
    rw [k.passed_resume]
    exact h.table
  | drain => exact leave h.table rfl
  | @release _ rman pc pc' _ _ hpc hpc' _ =>
    have ht : Table rman (pc.passed rman.res.length) := h.table
    rw [Pc.passed_of_released hpc] at ht
    refine leave ?_ (Pc.slot_of_released hpc')
    rw [Pc.passed_of_released hpc']
    exact ht
  | taken => exact h.worker rfl (h.table.congr rfl rfl fun _ => rfl)
  | returned hup => exact h.worker (res_of_update hup) (h.table.of_update hup fun _ => ⟨rfl, rfl⟩)
  | completed _ hdone _ =>
    obtain ⟨rman₁, hup, hq, -⟩ := workDone_spec hdone
    exact h.worker (hq.res.trans (res_of_update hup))
      ((h.table.of_update hup fun _ => ⟨rfl, rfl⟩).of_quiet hq)

end Indexed

/-! ## Runs -/

/-- The invariant in every run. -/
theorem indexed_of_run {numThreads : Nat} {as : List Action} {s : Sys}
    (h : exec step (.initial numThreads) as = some s) {m : MgrPtr} {c : Client}
    (hc : s.clients m = some c) : Indexed c := by
  have hR : Along step (OnClient fun _ _ => True) (.initial numThreads) as :=
    along_mono (fun s a _ => by cases a <;> simp [OnClient]) (along_true _ _)
  refine (view_invariant (I := fun c _ => Indexed c) (fun d f n _ => ?_)
    (fun m a c n c' n' hI _ hv => hI.step hv) hR h).1 m c hc
  refine .leave ⟨fun i p _ hp => ?_, fun p r hr => ?_, fun p q r hr => ?_, fun p _ => rfl⟩ rfl
  · cases hp
  · cases hr
  · cases hr

/-- Every slot that is not empty holds a live resource with the slot's id, and the names of these
resources are distinct. -/
structure TableOk (rman : Rman) : Prop where
  ids : ∀ (i : Nat) (p : ResPtr), rman.res[i]? = some (some p) → ∃ r ∈ rman.heap p, r.id = i
  names : ∀ (i j : Nat) (p q : ResPtr), rman.res[i]? = some (some p) →
    rman.res[j]? = some (some q) → ∀ r ∈ rman.heap p, ∀ r' ∈ rman.heap q, r.name = r'.name → i = j

/-- `find_resource` dereferences no empty slot and returns the index of the live resource with the
name, or `-1` when there is none. -/
def FindsResource (rman : Rman) (fname : String) : Prop :=
  ∃ idx, findResource rman fname = some idx ∧
    ((∃ k : Nat, idx = k ∧ Named rman fname rman.res k) ∨
      idx = -1 ∧ ∀ k, ¬ Named rman fname rman.res k)

/-- Every empty slot comes after a slot with the name; when no slot has it,
there is no empty slot. -/
def ScanClear (rman : Rman) (fname : String) : Prop :=
  ∀ j : Nat, rman.res[j]? = some none → ∃ k < j, Named rman fname rman.res k

theorem findsResource_iff (h : TableOk rman) {fname : String} :
    FindsResource rman fname ↔ ScanClear rman fname := by
  constructor
  · rintro ⟨idx, hidx, -⟩ j hj
    rcases findFrom_spec hidx with ⟨-, hfull, -⟩ | ⟨k, -, hk, hfull⟩
    · exact absurd (List.mem_of_getElem? hj) hfull
    · refine ⟨k, ?_, hk⟩
      by_contra hle
      obtain ⟨p, hp, -⟩ := hk
      have hne : j ≠ k := by
        rintro rfl
        exact absurd (hj.symm.trans hp) (by simp)
      refine hfull (List.mem_of_getElem? (i := j) ?_)
      rw [List.getElem?_take_of_lt (by omega)]
      exact hj
  · intro hclear
    obtain ⟨idx, hidx⟩ := findFrom_isSome rman.res fname 0
      (fun p hp => by
        obtain ⟨i, hi⟩ := List.mem_iff_getElem?.1 hp
        obtain ⟨r, hr, -⟩ := h.ids i p hi
        exact ⟨r, hr⟩) hclear
    refine ⟨idx, hidx, ?_⟩
    rcases findFrom_spec hidx with ⟨rfl, -, hno⟩ | ⟨k, rfl, hk, -⟩
    · exact .inr ⟨rfl, hno⟩
    · exact .inl ⟨k, by omega, hk⟩

/-- **The table over whole runs**: in every reachable state the slots of a manager that is not being
destroyed have the right ids and distinct names, and `find_resource` gives the right answer for
exactly the names that its scan meets before an empty slot. -/
theorem table_of_run {numThreads : Nat} {as : List Action} {s : Sys}
    (h : exec step (.initial numThreads) as = some s) {m : MgrPtr} {c : Client}
    (hc : s.clients m = some c) (hpc : c.pc.destroying = false) :
    TableOk c.rman ∧ ∀ fname, FindsResource c.rman fname ↔ ScanClear c.rman fname := by
  have ht : Table c.rman 0 := Pc.passed_of_not_destroying hpc _ ▸ (indexed_of_run h hc).table
  have hok : TableOk c.rman := by
    refine ⟨fun i p hp => ht.slot i p (Nat.zero_le _) hp, fun i j p q hp hq r hr r' hr' hname => ?_⟩
    obtain rfl := ht.names p q r hr r' hr' hname
    exact ht.slot_inj (Nat.zero_le _) (Nat.zero_le _) hp hq
  exact ⟨hok, fun fname => findsResource_iff hok⟩

/-- A resource is loaded, removed, and freed by `resman_poll`, which leaves its slot empty. -/
def removedOnly : List Action :=
  [.create 0 true false, .call 0 (.add "a" 0 {})] ++ clientSteps 0 {} 3 ++ workerSteps 0 {} 5 ++
  .call 0 (.remove 0) :: .call 0 .poll :: clientSteps 0 {} 13

theorem table_of_run_removedOnly :
    let c := (((exec step (.initial 1) removedOnly).get (by decide +kernel)).clients 0).get
      (by decide +kernel)
    TableOk c.rman ∧ ∀ fname, FindsResource c.rman fname ↔ ScanClear c.rman fname :=
  table_of_run (Option.some_get _).symm (Option.some_get _).symm (by decide +kernel)

/-- The next search dereferences the empty slot. -/
theorem not_findsResource_removedOnly :
    ¬ ∀ numThreads as s m c, exec step (.initial numThreads) as = some s →
      s.clients m = some c → c.pc.destroying = false → ∀ fname, FindsResource c.rman fname := by
  intro hall
  obtain ⟨idx, hidx, -⟩ := hall 1 removedOnly
    ((exec step (.initial 1) removedOnly).get (by decide +kernel)) 0
    ((((exec step (.initial 1) removedOnly).get (by decide +kernel)).clients 0).get
      (by decide +kernel))
    (Option.some_get _).symm (Option.some_get _).symm (by decide +kernel) "b"
  have hnone : findResource ((((exec step (.initial 1) removedOnly).get (by decide +kernel)).clients
      0).get (by decide +kernel)).rman "b" = none := by decide +kernel
  exact absurd (hidx.symm.trans hnone) (by simp)

end Resman.Manager
