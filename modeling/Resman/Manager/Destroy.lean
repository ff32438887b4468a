import Resman.Manager.Table

/-!
# Calls of `destroy_func`

The history of a manager records when a resource is created and freed, and every call of
`destroy_func` with the slot id that it gets. `destroyCalls` counts the calls with the id of a
resource during its life. A resource goes in one of three ways: `resman_destroy` and a failed first
load make one call, the deletion loop of `resman_poll` makes one itself and another one in
`remove_resource`. `Counts` follows the number of calls through all positions of the client, and
`destroyCalls_iff` says for which resources it ends at one.
-/

namespace Resman.Manager

open Lib

variable {rman rman' : Rman} {pc pc' : Pc} {p q : ResPtr} {r : Resource} {hit hit' : ResPtr → Prop}

/-! ## The history -/

/-- The slot id of a resource that is alive at the end of the history. -/
def aliveAt (p : ResPtr) : List Event → Option Nat
  | [] => none
  | .created q id :: log => if q = p then some id else aliveAt p log
  | .freed q :: log => if q = p then none else aliveAt p log
  | .destroyFunc _ :: log => aliveAt p log

/-- The number of calls of `destroy_func` with the slot id of a resource while it is alive. -/
def destroyCalls (p : ResPtr) : List Event → Nat
  | [] => 0
  | .destroyFunc id :: log => destroyCalls p log + if aliveAt p log = some id then 1 else 0
  | .created _ _ :: log | .freed _ :: log => destroyCalls p log

def Cont.isDel : Cont → Bool
  | del _ => true
  | _ => false

/-- The deletion loop of `resman_poll` is removing the resource. -/
def Pc.deleting (p : ResPtr) : Pc → Bool
  | delCall _ q => q = p
  | rmStop _ q k | rmCall _ q k | rmFree _ q k => q = p && k.isDel
  | _ => false

/-- The number of calls that have been made for a live resource. -/
def Pc.called (p : ResPtr) : Pc → Nat
  | rmStop _ q k | rmCall _ q k => (q = p && k.isDel).toNat
  | rmFree _ q k => if q = p then 1 + k.isDel.toNat else 0
  | destroyFree _ q => if q = p then 1 else 0
  | _ => 0

/-- The numbers of calls, where `hit` holds of the resources that the deletion loop has picked. -/
structure Counts (c : Client) (hit : ResPtr → Prop) : Prop where
  alive : ∀ p, aliveAt p c.rman.log = (c.rman.heap p).map Resource.id
  unborn : ∀ p, c.rman.nalloc ≤ p → destroyCalls p c.rman.log = 0 ∧ ¬ hit p
  live : ∀ p, ∀ r ∈ c.rman.heap p, (hit p ↔ c.pc.deleting p = true) ∧
    destroyCalls p c.rman.log = c.pc.called p
  gone : ∀ p, p < c.rman.nalloc → c.rman.heap p = none →
    (hit p → destroyCalls p c.rman.log = 2) ∧ (¬ hit p → destroyCalls p c.rman.log = 1)

theorem Cont.deleting_resume (k : Cont) : k.resume.deleting p = false := by cases k <;> rfl

theorem Cont.called_resume (k : Cont) : k.resume.called p = 0 := by cases k <;> rfl

theorem Pc.deleting_of_released (h : pc.released) : pc.deleting p = false := by
  cases pc <;> first | rfl | cases h

theorem Pc.called_of_released (h : pc.released) : pc.called p = 0 := by
  cases pc <;> first | rfl | cases h

namespace Counts

/-- Steps that record nothing, and move to a position with the same numbers. -/
theorem keep (h : Counts ⟨rman, pc⟩ hit) (hlog : rman'.log = rman.log)
    (hheap : ∀ q, (rman'.heap q).map Resource.id = (rman.heap q).map Resource.id)
    (halloc : rman'.nalloc = rman.nalloc) (hdel : ∀ q, pc'.deleting q = pc.deleting q)
    (hcalled : ∀ q, pc'.called q = pc.called q) : Counts ⟨rman', pc'⟩ hit where
  alive q := by
    show aliveAt q rman'.log = _
    rw [hlog, hheap]
    exact h.alive q
  unborn q hq := by
    show destroyCalls q rman'.log = 0 ∧ _
    rw [hlog]
    exact h.unborn q (halloc ▸ hq)
  live q r' hr' := by
    show (hit q ↔ pc'.deleting q = true) ∧ destroyCalls q rman'.log = pc'.called q
    have hq := hheap q
    rw [show rman'.heap q = some r' from hr'] at hq
    obtain ⟨r, hr, -⟩ := Option.map_eq_some_iff.1 hq.symm
    rw [hlog, hdel, hcalled]
    exact h.live q r hr
  gone q hq hnone := by
    show (hit q → destroyCalls q rman'.log = 2) ∧ (¬ hit q → destroyCalls q rman'.log = 1)
    have hq' := hheap q
    rw [show rman'.heap q = none from hnone] at hq'
    rw [hlog]
    exact h.gone q (halloc ▸ hq) (Option.map_eq_none_iff.1 hq'.symm)

theorem quiet {W : Set ResPtr} (h : Counts ⟨rman, pc⟩ hit) (hq : Quiet W rman rman')
    (hdel : ∀ q, pc'.deleting q = pc.deleting q) (hcalled : ∀ q, pc'.called q = pc.called q) :
    Counts ⟨rman', pc'⟩ hit := by
  refine h.keep hq.log (fun q => ?_) hq.nalloc hdel hcalled
  have hcore := congrArg (Option.map Core.id) (hq.core q)
  rw [Option.map_map, Option.map_map] at hcore
  exact hcore

theorem update {f : Resource → Resource} (h : Counts ⟨rman, pc⟩ hit)
    (hup : rman.update p f = some rman') (hf : ∀ r, (f r).id = r.id)
    (hdel : ∀ q, pc'.deleting q = pc.deleting q) (hcalled : ∀ q, pc'.called q = pc.called q) :
    Counts ⟨rman', pc'⟩ hit := by
  have hmap := map_heap_of_update hup hf
  obtain ⟨r, hr, rfl⟩ := heap_of_update hup
  exact h.keep rfl hmap rfl hdel hcalled

/-- `destroy_func` is called with the slot id of `p`. -/
theorem call {i : Nat} (h : Counts ⟨rman, pc⟩ hit) (hset : rman.destroyFunc = true)
    (hp : p < rman.nalloc) (hslot : ∀ q, ∀ r ∈ rman.heap q, r.id = i ↔ q = p)
    (hdel : ∀ q, pc'.deleting q = pc.deleting q)
    (hcalled : ∀ q, pc'.called q = pc.called q + if q = p then 1 else 0) :
    Counts ⟨callDestroy rman i, pc'⟩ hit := by
  have heq : callDestroy rman i = { rman with log := .destroyFunc i :: rman.log } := by
    simp [callDestroy, hset]
  have hcalls : ∀ q, destroyCalls q (.destroyFunc i :: rman.log) =
      destroyCalls q rman.log + if (rman.heap q).map Resource.id = some i then 1 else 0 := by
    intro q
    rw [destroyCalls, h.alive q]
  rw [heq]
  refine ⟨h.alive, fun q hq => ?_, fun q r hr => ?_, fun q hq hnone => ?_⟩
  · obtain ⟨hcount, hhit⟩ := h.unborn q hq
    refine ⟨?_, hhit⟩
    rw [hcalls, hcount, if_neg]
    intro hid
    obtain ⟨r, hr, hid⟩ := Option.map_eq_some_iff.1 hid
    obtain rfl := (hslot q r hr).1 hid
    exact absurd hq (Nat.not_le.2 hp)
  · obtain ⟨hhit, hcount⟩ := h.live q r hr
    refine ⟨hhit.trans (by rw [hdel]), ?_⟩
    rw [hcalls, hcount, hcalled, show rman.heap q = some r from hr]
    simp [hslot q r hr]
  · have hold := h.gone q hq hnone
    rw [hcalls, show rman.heap q = none from hnone]
    simpa using hold

/-- The resource `p` is freed, after the number of calls that its way of going has made. -/
theorem free (h : Counts ⟨rman, pc⟩ hit) (hr : rman.heap p = some r)
    (hheap : rman'.heap = Function.update rman.heap p none)
    (hlog : rman'.log = .freed p :: rman.log) (halloc : rman'.nalloc = rman.nalloc)
    (hself : pc.called p = 1 + (pc.deleting p).toNat)
    (hother : ∀ q, q ≠ p → pc.deleting q = false ∧ pc.called q = 0)
    (hpc' : ∀ q, pc'.deleting q = false ∧ pc'.called q = 0) : Counts ⟨rman', pc'⟩ hit := by
  refine ⟨fun q => ?_, fun q hq => ?_, fun q r' hr' => ?_, fun q hq hnone => ?_⟩
  · show aliveAt q rman'.log = (rman'.heap q).map Resource.id
    rw [hlog, hheap, aliveAt]
    split
    · next hq => simp [hq]
    · next hq =>
      rw [Function.update_of_ne (Ne.symm hq)]
      exact h.alive q
  · show destroyCalls q rman'.log = 0 ∧ _
    rw [hlog]
    exact h.unborn q (halloc ▸ hq)
  · rw [show (Client.mk rman' pc').rman.heap = _ from hheap] at hr'
    obtain ⟨hne, hold⟩ := update_none_eq_some.1 hr'
    obtain ⟨hhit, hcount⟩ := h.live q r' hold
    show (hit q ↔ pc'.deleting q = true) ∧ destroyCalls q rman'.log = pc'.called q
    rw [hlog, (hpc' q).1, (hpc' q).2]
    exact ⟨hhit.trans (by rw [(hother q hne).1]), hcount.trans (hother q hne).2⟩
  · show (hit q → destroyCalls q rman'.log = 2) ∧ (¬ hit q → destroyCalls q rman'.log = 1)
    rw [hlog, destroyCalls]
    by_cases hne : q = p
    · subst hne
      obtain ⟨hhit, hcount⟩ := h.live q r hr
      rw [hcount, show (Client.mk rman pc).pc.called q = _ from hself, hhit]
      cases hdel : pc.deleting q <;> simp
    · refine h.gone q (halloc ▸ hq) ?_
      rwa [show (Client.mk rman' pc').rman.heap = _ from hheap, Function.update_of_ne hne] at hnone

/-- A resource is created. -/
theorem append {fname : String} {data : Nat} (h : Counts ⟨rman, pc⟩ hit)
    (hpc : ∀ q, pc.deleting q = false ∧ pc.called q = 0)
    (hpc' : ∀ q, pc'.deleting q = false ∧ pc'.called q = 0) :
    Counts ⟨appendResource rman fname data, pc'⟩ hit := by
  have hlog : (appendResource rman fname data).log =
      .created rman.nalloc rman.res.length :: rman.log := rfl
  have hnew := h.unborn rman.nalloc le_rfl
  refine ⟨fun q => ?_, fun q hq => ?_, fun q r hr => ?_, fun q hq hnone => ?_⟩
  · show aliveAt q (appendResource rman fname data).log = _
    rw [hlog, aliveAt]
    split
    · next hq =>
      subst hq
      exact (congrArg (Option.map Resource.id) appendResource_heap_self).symm
    · next hq =>
      have hold : (appendResource rman fname data).heap q = rman.heap q :=
        appendResource_heap_of_ne (Ne.symm hq)
      exact (h.alive q).trans (congrArg (Option.map Resource.id) hold).symm
  · have hlt : rman.nalloc < q := hq
    exact h.unborn q hlt.le
  · show (hit q ↔ pc'.deleting q = true) ∧ destroyCalls q rman.log = pc'.called q
    rw [(hpc' q).1, (hpc' q).2]
    rcases mem_heap_append.1 hr with ⟨rfl, -⟩ | ⟨-, hr⟩
    · exact ⟨by simpa using hnew.2, hnew.1⟩
    · obtain ⟨hhit, hcount⟩ := h.live q r hr
      exact ⟨hhit.trans (by rw [(hpc q).1]), hcount.trans (hpc q).2⟩
  · show (hit q → destroyCalls q rman.log = 2) ∧ (¬ hit q → destroyCalls q rman.log = 1)
    have hne : q ≠ rman.nalloc := by
      rintro rfl
      exact absurd (appendResource_heap_self.symm.trans hnone) (by simp)
    have hlt : q < rman.nalloc + 1 := hq
    exact h.gone q (show q < rman.nalloc by omega)
      ((appendResource_heap_of_ne hne).symm.trans hnone)

/-- The resources that have been picked may be described in another way. -/
theorem congr (h : Counts ⟨rman, pc⟩ hit) (hhit : ∀ q, hit' q ↔ hit q) :
    Counts ⟨rman, pc⟩ hit' := by
  obtain rfl : hit' = hit := funext fun q => propext (hhit q)
  exact h

/-- The deletion loop picks a resource. -/
theorem pick {i : Nat} (h : Counts ⟨rman, .delTest i p⟩ hit) (hp : p < rman.nalloc)
    (hr : rman.heap p = some r) : Counts ⟨rman, .delCall i p⟩ (fun q => hit q ∨ q = p) where
  alive := h.alive
  unborn q hq := by
    obtain ⟨hcount, hhit⟩ := h.unborn q hq
    have hle : rman.nalloc ≤ q := hq
    exact ⟨hcount, fun hor => hor.elim hhit fun heq => absurd hp (Nat.not_lt.2 (heq ▸ hle))⟩
  live q r' hr' := by
    obtain ⟨hhit, hcount⟩ := h.live q r' hr'
    have hno : ¬ hit q := fun hq => Bool.false_ne_true (hhit.1 hq)
    refine ⟨?_, hcount⟩
    simp [hno, Pc.deleting, eq_comm]
  gone q hq hnone := by
    have hne : q ≠ p := by
      rintro rfl
      exact absurd (hr.symm.trans hnone) (by simp)
    simpa [hne] using h.gone q hq hnone

end Counts

/-! ## Steps -/

/-- The deletion loop of `resman_poll` has found `delete_pending` set, and is about to find that the
resource is not pending. -/
def DeletionFound (rman : Rman) (p : ResPtr) : Pc → Prop
  | .delTest _ q => p = q ∧ ∃ r ∈ rman.heap q, r.pending = false
  | _ => False

theorem not_deletionFound_of_released (h : pc.released) : ¬ DeletionFound rman p pc := by
  cases pc <;> first | exact id | cases h

theorem destroyFunc_of_update {f : Resource → Resource} (h : rman.update p f = some rman') :
    rman'.destroyFunc = rman.destroyFunc := by
  obtain ⟨r, -, rfl⟩ := heap_of_update h
  rfl

theorem callDestroy_destroyFunc (i : Nat) :
    (callDestroy rman i).destroyFunc = rman.destroyFunc := by
  unfold callDestroy
  split <;> rfl

/-- The callback is set once and for all. -/
theorem destroyFunc_step {m : MgrPtr} {a : Action} {c c' : Client} {n n' : ResPtr → Nat}
    (hv : ViewStep m a c n c' n') : c'.rman.destroyFunc = c.rman.destroyFunc := by
  cases hv with
  | frame | enqueue | drain | release | taken => rfl
  | call hs =>
    cases callStep_cases hs with
    | setopt | stay | added | poll | destroy => rfl
    | remove _ hup => exact destroyFunc_of_update hup
  | client hs =>
    cases localStep_cases hs with
    | reloadTask hq | event hq | modsetEnd hq | doneReload hq | rmStop hq => exact hq.destroyFunc
    | reloadFlag hup | doneTake _ _ _ hup => exact destroyFunc_of_update hup
    | doneOk hup hq => exact hq.destroyFunc.trans (destroyFunc_of_update hup)
    | delCall | rmCall | destroyCall => exact callDestroy_destroyFunc _
    | rmFree hfree =>
      obtain ⟨r, -, hfree⟩ := Option.bind_eq_some_iff.1 hfree
      obtain rfl := Option.some.inj hfree
      rfl
    | _ => rfl
  | returned hup => exact destroyFunc_of_update hup
  | completed _ hdone =>
    obtain ⟨rman₁, hup, hq, -⟩ := workDone_spec hdone
    exact hq.destroyFunc.trans (destroyFunc_of_update hup)

namespace Counts

/-- A step that picks no resource. -/
theorem unpicked (hno : ∀ q, ¬ DeletionFound rman q pc) (h : Counts ⟨rman', pc'⟩ hit) :
    Counts ⟨rman', pc'⟩ fun q => hit q ∨ DeletionFound rman q pc :=
  h.congr fun q => ⟨fun hor => hor.elim id fun hq => absurd hq (hno q), .inl⟩

/-- One step inside a call: the resource that the deletion loop finds is picked. -/
theorem localStep {o : Oracle} (h : Counts ⟨rman, pc⟩ hit) (hi : Indexed ⟨rman, pc⟩)
    (hset : rman.destroyFunc = true) (hs : localStep rman o pc = some (rman', pc')) :
    Counts ⟨rman', pc'⟩ fun q => hit q ∨ DeletionFound rman q pc := by
  have hbound : ∀ q r, rman.heap q = some r → q < rman.nalloc := fun q r hr => by
    by_contra hle
    exact absurd (hr.symm.trans (hi.table.fresh q (Nat.not_lt.1 hle))) (by simp)
  -- the slot that the client works on belongs to one live resource only
  have hslot : ∀ i p, pc.slot? = some (i, p) → pc.passed rman.res.length ≤ i →
      p < rman.nalloc ∧ ∀ q, ∀ r ∈ rman.heap q, r.id = i ↔ q = p := by
    intro i p hp hle
    have hhere := hi.here i p hp
    obtain ⟨r₀, hr₀, hid⟩ := hi.table.slot i p hle hhere
    refine ⟨hbound p r₀ hr₀, fun q r hr => ⟨?_, ?_⟩⟩
    · rintro rfl
      exact Option.some.inj (Option.some.inj ((hi.table.live q r hr).2.symm.trans hhere))
    · rintro rfl
      exact Option.some.inj (hr.symm.trans hr₀) ▸ hid
  cases localStep_cases hs with
  | reloadTask hq | event hq | modsetEnd hq | doneReload hq | rmStop hq =>
    exact .unpicked (fun _ => id) (h.quiet hq (fun _ => rfl) fun _ => rfl)
  | reloadFlag hup | doneTake _ _ _ hup =>
    exact .unpicked (fun _ => id) (h.update hup (fun _ => rfl) (fun _ => rfl) fun _ => rfl)
  | delEnd | delSkip | delFound | watchEnd | modsetSkip | modsetReload
  | doneStart | noDone | doneEnd
  | doneSkip | doneLate | destroyEnd | destroySkip | destroyFound =>
    exact .unpicked (fun _ => id) (h.keep rfl (fun _ => rfl) rfl (fun _ => rfl) fun _ => rfl)
  | doneFail =>
    refine .unpicked (fun _ => id) (h.keep rfl (fun _ => rfl) rfl (fun q => ?_) fun q => ?_)
    · simp [Pc.deleting, Cont.isDel]
    · simp [Pc.called, Cont.isDel]
  | delBusy hr hpend =>
    refine .unpicked ?_ (h.keep rfl (fun _ => rfl) rfl (fun _ => rfl) fun _ => rfl)
    rintro q ⟨-, r, hr', hclear⟩
    obtain rfl := Option.some.inj (hr.symm.trans hr')
    exact absurd (hpend.symm.trans hclear) (by simp)
  | delFree hr hpend =>
    refine (h.pick (hbound _ _ hr) hr).congr fun q => or_congr_right ?_
    exact ⟨And.left, fun hq => ⟨hq, _, hr, hpend⟩⟩
  | delCall =>
    obtain ⟨hp, hid⟩ := hslot _ _ rfl (Nat.zero_le _)
    refine .unpicked (fun _ => id) (h.call hset hp hid (fun q => ?_) fun q => ?_)
    · simp [Pc.deleting, Cont.isDel]
    · simp [Pc.called, Cont.isDel, Bool.toNat, eq_comm]
  | @rmCall p =>
    obtain ⟨hp, hid⟩ := hslot _ _ rfl (Nat.zero_le _)
    refine .unpicked (fun _ => id) (h.call hset hp hid (fun q => rfl) fun q => ?_)
    by_cases hq : p = q
    · simp [Pc.called, hq, Nat.add_comm]
    · simp [Pc.called, hq, Ne.symm hq]
  | destroyCall =>
    obtain ⟨hp, hid⟩ := hslot _ _ rfl le_rfl
    refine .unpicked (fun _ => id) (h.call hset hp hid (fun q => rfl) fun q => ?_)
    simp [Pc.called, eq_comm]
  | @rmFree _ _ _ k hfree =>
    obtain ⟨r, hr, hfree⟩ := Option.bind_eq_some_iff.1 hfree
    obtain rfl := Option.some.inj hfree
    refine .unpicked (fun _ => id) (h.free hr rfl rfl rfl ?_ (fun q hq => ?_) fun q => ?_)
    · simp [Pc.called, Pc.deleting]
    · simp [Pc.called, Pc.deleting, Ne.symm hq]
    · exact ⟨k.deleting_resume, k.called_resume⟩
  | doneOk hup hq hpc' =>
    have hcounts : Counts ⟨_, .idle⟩ hit :=
      h.update hup (fun _ => rfl) (fun _ => rfl) fun _ => rfl
    refine .unpicked (fun _ => id) (hcounts.quiet hq (fun q => ?_) fun q => ?_)
    · rcases hpc' with rfl | rfl <;> rfl
    · rcases hpc' with rfl | rfl <;> rfl
  | destroyFree hr =>
    refine .unpicked (fun _ => id) (h.free hr rfl rfl rfl ?_ (fun q hq => ?_) fun q => ?_)
    · simp [Pc.called, Pc.deleting]
    · simp [Pc.called, Pc.deleting, Ne.symm hq]
    · exact ⟨rfl, rfl⟩

theorem callStep {f : Call} (h : Counts ⟨rman, .idle⟩ hit)
    (hs : callStep rman f = some (rman', pc')) : Counts ⟨rman', pc'⟩ hit := by
  cases callStep_cases hs with
  | setopt => exact h.keep rfl (fun _ => rfl) rfl (fun _ => rfl) fun _ => rfl
  | stay | poll | destroy => exact h.keep rfl (fun _ => rfl) rfl (fun _ => rfl) fun _ => rfl
  | added => exact h.append (fun _ => ⟨rfl, rfl⟩) fun _ => ⟨rfl, rfl⟩
  | remove _ hup => exact h.update hup (fun _ => rfl) (fun _ => rfl) fun _ => rfl

end Counts

/-- The deletion loop of manager `m` does not find the resource in this step. -/
def NotDeleted (m : MgrPtr) (p : ResPtr) (s : Sys) : Action → Prop
  | .client m' _ => m' = m → ∀ c ∈ s.clients m, ¬ DeletionFound c.rman p c.pc
  | _ => True

/-- A step of the system, as manager `m` sees it. -/
theorem Counts.step {s : Sys} {m : MgrPtr} {a : Action} {c c' : Client} {n n' : ResPtr → Nat}
    (h : Counts c hit) (hi : Indexed c) (hset : c.rman.destroyFunc = true)
    (hc : s.clients m = some c) (hv : ViewStep m a c n c' n') :
    Counts c' fun q => hit q ∨ ¬ NotDeleted m q s a := by
  have same : ∀ {c'}, (∀ q, NotDeleted m q s a) → Counts c' hit →
      Counts c' fun q => hit q ∨ ¬ NotDeleted m q s a :=
    fun hno h' => h'.congr fun q => ⟨fun hor => hor.elim id fun hq => absurd (hno q) hq, .inl⟩
  -- a step of the client itself depends on its position only
  have here : ∀ {q o}, a = .client m o → (¬ NotDeleted m q s a ↔ DeletionFound c.rman q c.pc) := by
    rintro q o rfl
    simp [NotDeleted, hc]
  cases hv with
  | frame ha =>
    refine same (fun q => ?_) h
    cases a with
    | client m' o => exact fun hm => absurd (congrArg some hm) ha
    | create | call | worker => trivial
  | call hs => exact same (fun _ => trivial) (h.callStep hs)
  | client hs => exact (h.localStep hi hset hs).congr fun q => or_congr_right (here rfl)
  | @enqueue _ _ _ _ k =>
    refine same (fun q => not_not.1 fun hno => (here rfl).1 hno) ?_
    exact h.keep rfl (fun _ => rfl) rfl (fun _ => k.deleting_resume) fun _ => k.called_resume
  | drain =>
    refine same (fun q => not_not.1 fun hno => (here rfl).1 hno) ?_
    exact h.keep rfl (fun _ => rfl) rfl (fun _ => rfl) fun _ => rfl
  | release hpc hpc' =>
    refine same (fun q => not_not.1 fun hno => ?_)
      (h.keep rfl (fun _ => rfl) rfl (fun q => ?_) fun q => ?_)
    · exact not_deletionFound_of_released hpc ((here rfl).1 hno)
    · rw [Pc.deleting_of_released hpc, Pc.deleting_of_released hpc']
    · rw [Pc.called_of_released hpc, Pc.called_of_released hpc']
  | taken =>
    exact same (fun _ => trivial) (h.keep rfl (fun _ => rfl) rfl (fun _ => rfl) fun _ => rfl)
  | returned hup =>
    exact same (fun _ => trivial) (h.update hup (fun _ => rfl) (fun _ => rfl) fun _ => rfl)
  | completed _ hdone =>
    obtain ⟨rman₁, hup, hq, -⟩ := workDone_spec hdone
    refine same (fun _ => trivial) (Counts.quiet ?_ hq (fun _ => rfl) fun _ => rfl)
    exact h.update hup (fun _ => rfl) (fun _ => rfl) fun _ => rfl

/-! ## Runs -/

section Runs

variable {numThreads : Nat} {as : List Action} {s : Sys} {m : MgrPtr} {c : Client}

/-- The numbers of calls in every run, where the resources that the deletion loop has picked are
those that it has found in some step. -/
theorem counts_of_run (h : exec step (.initial numThreads) as = some s) (hc : s.clients m = some c)
    (hset : c.rman.destroyFunc = true) :
    Counts c fun p => ¬ Along step (NotDeleted m p) (.initial numThreads) as := by
  have hall : match s.clients m with
      | none => (∀ p, s.pool.njobs m p = 0) ∧
        ∀ p, Along step (NotDeleted m p) (.initial numThreads) as
      | some c => c.rman.destroyFunc = true →
        Counts c fun p => ¬ Along step (NotDeleted m p) (.initial numThreads) as := by
    refine exec_snoc_induction (C := fun _ _ => True) (P := fun as s => match s.clients m with
      | none => (∀ p, s.pool.njobs m p = 0) ∧
        ∀ p, Along step (NotDeleted m p) (.initial numThreads) as
      | some c => c.rman.destroyFunc = true →
        Counts c fun p => ¬ Along step (NotDeleted m p) (.initial numThreads) as) ?_ ?_
      (along_true _ _) h
    · exact ⟨fun p => by simp [Sys.initial, Pool.njobs, Worker.job], fun p => trivial⟩
    · intro as s a s' hrun ih _ hstep
      cases hc : s.clients m with
      | none =>
        rw [hc] at ih
        obtain ⟨hn, hnew⟩ := step_absent hstep hc ih.1
        have halong : ∀ p, Along step (NotDeleted m p) (.initial numThreads) (as ++ [a]) := by
          intro p
          refine (along_snoc hrun).2 ⟨ih.2 p, ?_⟩
          cases a with
          | client m' o => exact fun _ c hc' => absurd (hc.symm.trans hc') (by simp)
          | create | call | worker => trivial
        cases hc' : s'.clients m with
        | none => exact ⟨hn, halong⟩
        | some c' =>
          obtain ⟨d, f, -, rfl⟩ := hnew c' hc'
          refine fun _ => ⟨fun p => rfl, fun p _ => ⟨rfl, not_not.2 (halong p)⟩, fun p r hr => ?_,
            fun p hp => absurd hp (Nat.not_lt_zero p)⟩
          cases hr
      | some c =>
        rw [hc] at ih
        obtain ⟨c', hc', hv⟩ := step_view hstep hc
        rw [hc']
        intro hset
        rw [destroyFunc_step hv] at hset
        refine ((ih hset).step (indexed_of_run hrun hc) hset hc hv).congr fun q => ?_
        rw [along_snoc hrun, not_and_or]
  rw [hc] at hall
  exact hall hset

/-- **`destroy_func` is called once in the life of a resource exactly when the deletion loop of
`resman_poll` never finds it**, for every resource of a manager that `resman_destroy` has ended, in
every run. -/
theorem destroyCalls_iff (h : exec step (.initial numThreads) as = some s)
    (hc : s.clients m = some c) (hset : c.rman.destroyFunc = true) (hdead : c.pc = .dead)
    {p : ResPtr} (hp : p < c.rman.nalloc) :
    destroyCalls p c.rman.log = 1 ↔ Along step (NotDeleted m p) (.initial numThreads) as := by
  have hgone : c.rman.heap p = none := by
    have ht := (indexed_of_run h hc).table
    rw [hdead] at ht
    cases hr : c.rman.heap p with
    | none => rfl
    | some r =>
      obtain ⟨hle, hslot⟩ := ht.live p r hr
      rw [List.getElem?_eq_none hle] at hslot
      cases hslot
  obtain ⟨htwice, honce⟩ := (counts_of_run h hc hset).gone p hp hgone
  refine ⟨fun hcount => ?_, fun halong => honce (not_not.2 halong)⟩
  by_contra hfound
  exact absurd (hcount.symm.trans (htwice hfound)) (by decide)

end Runs

/-- A resource is loaded, and the manager is destroyed with the pool. -/
def destroyedAtEnd : List Action :=
  [.create 0 true true, .call 0 (.add "a" 0 {})] ++ clientSteps 0 {} 3 ++ workerSteps 0 {} 5 ++
  .call 0 .destroy :: clientSteps 0 {} 7 ++ workerSteps 0 {} 1 ++ clientSteps 0 {} 1

theorem destroyCalls_iff_destroyedAtEnd :
    let c := (((exec step (.initial 1) destroyedAtEnd).get (by decide +kernel)).clients 0).get
      (by decide +kernel)
    destroyCalls 0 c.rman.log = 1 ↔ Along step (NotDeleted 0 0) (.initial 1) destroyedAtEnd :=
  destroyCalls_iff (Option.some_get _).symm (Option.some_get _).symm (by decide +kernel)
    (by decide +kernel) (by decide +kernel)

/-- A loaded resource is removed, `resman_poll` frees it, and the manager is destroyed. -/
def removedThenDestroyed : List Action :=
  [.create 0 true true, .call 0 (.add "a" 0 {})] ++ clientSteps 0 {} 3 ++ workerSteps 0 {} 5 ++
  .call 0 (.remove 0) :: .call 0 .poll :: clientSteps 0 {} 13 ++
  .call 0 .destroy :: clientSteps 0 {} 5 ++ workerSteps 0 {} 1 ++ clientSteps 0 {} 1

/-- `resman_poll` and `remove_resource` call `destroy_func` once each. -/
theorem not_destroyCalls_removedThenDestroyed :
    ¬ ∀ numThreads as s m c, exec step (.initial numThreads) as = some s →
      s.clients m = some c → c.rman.destroyFunc = true → c.pc = .dead →
        ∀ p < c.rman.nalloc, destroyCalls p c.rman.log = 1 := by
  intro hall
  have hone := hall 1 removedThenDestroyed
    ((exec step (.initial 1) removedThenDestroyed).get (by decide +kernel)) 0
    ((((exec step (.initial 1) removedThenDestroyed).get (by decide +kernel)).clients 0).get
      (by decide +kernel))
    (Option.some_get _).symm (Option.some_get _).symm (by decide +kernel) (by decide +kernel) 0
    (by decide +kernel)
  exact absurd hone (by decide +kernel)

end Resman.Manager
