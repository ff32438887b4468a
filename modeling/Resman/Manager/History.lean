import Resman.Lib.History
import Resman.Manager.Fields
import Resman.Manager.Table
import Resman.Manager.View

/-!
# The history of a system

A run of the system with notes of what has happened to the managers' resources: `trace` is the
recorded step. `NoteStep` lists what one action does to the client of a manager together with the
notes that it adds, `step_notes` says that these are all the cases, and `history_invariant` is the
invariant rule for a manager and the history.
-/

namespace Resman.Manager

open Lib

/-! ## Notes -/

/-- What has happened:
* `added`: `resman_add` was called with this name and returns this id, of this resource; `removed`,
  `destroyed`: `resman_remove` or `resman_destroy` was called;
* `enqueued`: a load job was put in the queue; `taken`: a worker took the first job; `cleared`: the
  queue was emptied;
* `loadReturned`: `load_func` returned in a worker; `completed`: the last section of `work_func`
  ran; `sent`: the worker wrote the completion event; `drained`: `resman_poll` emptied the event
  pipe;
* `doneBegan`, `doneReturned`: a call of `done_func`;
* `condemned`: the resource is marked for deletion, or its removal begins, because a load failed. -/
inductive Note where
  | added (m : MgrPtr) (fname : String) (id : Nat) (p : ResPtr)
  | removed (m : MgrPtr) (id : Nat)
  | destroyed (m : MgrPtr)
  | enqueued (m : MgrPtr) (p : ResPtr)
  | taken (w : Nat)
  | cleared
  | loadReturned (w : Nat) (m : MgrPtr) (p : ResPtr) (ret : Int)
  | completed (w : Nat) (m : MgrPtr) (p : ResPtr)
  | sent (w : Nat)
  | drained (m : MgrPtr)
  | doneBegan (m : MgrPtr) (p : ResPtr)
  | doneReturned (m : MgrPtr) (p : ResPtr) (ret : Int)
  | condemned (m : MgrPtr) (p : ResPtr)
  deriving DecidableEq, Repr

/-- The manager whose resources the note is about. -/
def Note.rman : Note → Option MgrPtr
  | added m _ _ _ | removed m _ | destroyed m | enqueued m _ | loadReturned _ m _ _
  | completed _ m _
  | doneBegan m _ | doneReturned m _ _ | condemned m _ => some m
  | taken _ | cleared | sent _ | drained _ => none

/-- The resource that the note is about, and that was live when it was written. -/
def Note.live : Note → Option ResPtr
  | added _ _ _ p | loadReturned _ _ p _ | completed _ _ p | doneBegan _ p | doneReturned _ p _
  | condemned _ p => some p
  | removed _ _ | destroyed _ | enqueued _ _ | taken _ | cleared | sent _ | drained _ => none

def callNotes (m : MgrPtr) (rman : Rman) : Call → Pc → List Note
  | .add fname _ _, pc' =>
    match findResource rman fname, pc' with
    | some (.ofNat id), _ =>
      match rman.res[id]? with
      | some (some p) => [.added m fname id p]
      | _ => []
    | _, .reloadTask p _ => [.added m fname rman.res.length p]
    | _, _ => []
  | .remove id, _ => [.removed m id]
  | .destroy, _ => [.destroyed m]
  | .setopt _, _ | .find _, _ | .poll, _ => []

def clientNotes (m : MgrPtr) (o : Oracle) : Pc → Pc → List Note
  | .reloadEnq p _ _, _ => if o.mem then [.enqueued m p] else []
  | .drain, _ => [.drained m]
  | .doneScan _ _, .doneCall _ _ p => [.doneBegan m p]
  | .doneCall _ _ p, .rmStop _ _ _ => [.condemned m p, .doneReturned m p o.ret]
  | .doneCall _ _ p, _ => [.doneReturned m p o.ret]
  | .poolClear, _ => [.cleared]
  | _, _ => []

/-- The last section of `work_func` marks the resource for deletion. -/
def Rman.condemns (rman : Rman) (p : ResPtr) : Bool :=
  (rman.heap p).any fun r => !rman.doneFunc && r.result = -1 && r.numLoads = 0

def completionNotes (w : Nat) (m : MgrPtr) (rman : Rman) (p : ResPtr) : List Note :=
  if rman.condemns p then [.condemned m p, .completed w m p] else [.completed w m p]

def workerNotes (s : Sys) (w : Nat) (o : Oracle) : List Note :=
  match s.pool.workers[w]? with
  | some .idle => if s.pool.shouldQuit then [] else [.taken w]
  | some (.loading j) => [.loadReturned w j.rman j.res o.ret]
  | some (.loaded j) =>
    match s.clients j.rman with
    | some c => completionNotes w j.rman c.rman j.res
    | none => []
  | some .finishing => [.sent w]
  | some (.taken _) | some .exited | none => []

/-- The notes that a step adds, newest first. -/
def notes (s : Sys) : Action → Sys → List Note
  | .create .., _ => []
  | .call m f, s' =>
    match s.clients m, s'.clients m with
    | some c, some c' => callNotes m c.rman f c'.pc
    | _, _ => []
  | .client m o, s' =>
    match s.clients m, s'.clients m with
    | some c, some c' => clientNotes m o c.pc c'.pc
    | _, _ => []
  | .worker w o, _ => workerNotes s w o

abbrev trace : Sys × List Note → Action → Option (Sys × List Note) := record step notes

/-! ## The cases of a step -/

/-- What an action does to the client of `m`, and the notes that it adds. -/
inductive NoteStep (m : MgrPtr) : Action → Client → Client → List Note → Prop where
  | frame {a : Action} {c : Client} {ns : List Note} (ha : a.client? ≠ some m)
      (hns : ∀ n ∈ ns, n.rman ≠ some m) : NoteStep m a c c ns
  | call {f : Call} {rman rman' : Rman} {pc' : Pc} (h : callStep rman f = some (rman', pc')) :
      NoteStep m (.call m f) ⟨rman, .idle⟩ ⟨rman', pc'⟩ (callNotes m rman f pc')
  | client {o : Oracle} {rman rman' : Rman} {pc pc' : Pc}
      (h : localStep rman o pc = some (rman', pc')) :
      NoteStep m (.client m o) ⟨rman, pc⟩ ⟨rman', pc'⟩ (clientNotes m o pc pc')
  | pool {o : Oracle} {rman : Rman} {pool pool' : Pool} {pc pc' : Pc}
      (h : poolStep m pool o pc = some (pool', pc')) :
      NoteStep m (.client m o) ⟨rman, pc⟩ ⟨rman, pc'⟩ (clientNotes m o pc pc')
  | taken {w : Nat} {o : Oracle} {rman : Rman} {pc : Pc} {t : TaskPtr} :
      NoteStep m (.worker w o) ⟨rman, pc⟩ ⟨freeTask rman t, pc⟩ []
  | returned {w : Nat} {o : Oracle} {rman rman' : Rman} {pc : Pc} {p : ResPtr}
      (h : (rman.update p fun r => { r with result := o.ret }) = some rman') :
      NoteStep m (.worker w o) ⟨rman, pc⟩ ⟨rman', pc⟩ [.loadReturned w m p o.ret]
  | completed {w : Nat} {o : Oracle} {rman rman' : Rman} {pc : Pc} {p : ResPtr}
      (hpc : pc.locks p = false) (h : workDone rman p o = some rman') :
      NoteStep m (.worker w o) ⟨rman, pc⟩ ⟨rman', pc⟩ (completionNotes w m rman p)

section Cases

variable {s s' : Sys} {a : Action} {m m' : MgrPtr} {c c' : Client} {w : Nat} {o : Oracle}

/-- The note of a call that begins. -/
inductive CallNote (m : MgrPtr) (rman : Rman) : Call → Pc → Note → Prop where
  | found {fname : String} {data id : Nat} {mem : AddMem} {p : ResPtr} {pc' : Pc}
      (hfind : findResource rman fname = some (id : Int)) (hid : rman.res[id]? = some (some p)) :
      CallNote m rman (.add fname data mem) pc' (.added m fname id p)
  | new {fname : String} {data : Nat} {mem : AddMem} {p : ResPtr} {k : Cont} :
      CallNote m rman (.add fname data mem) (.reloadTask p k) (.added m fname rman.res.length p)
  | removed {id : Nat} {pc' : Pc} : CallNote m rman (.remove id) pc' (.removed m id)
  | destroyed {pc' : Pc} : CallNote m rman .destroy pc' (.destroyed m)

theorem callNotes_cases {f : Call} {rman : Rman} {pc' : Pc} {n : Note}
    (hn : n ∈ callNotes m rman f pc') : CallNote m rman f pc' n := by
  cases f with
  | add fname data mem =>
    simp only [callNotes] at hn
    split at hn
    · next id hfind =>
      split at hn
      · next q hq =>
        obtain rfl := List.mem_singleton.1 hn
        exact .found hfind hq
      · cases hn
    · obtain rfl := List.mem_singleton.1 hn
      exact .new
    · cases hn
  | remove =>
    obtain rfl := List.mem_singleton.1 hn
    exact .removed
  | destroy =>
    obtain rfl := List.mem_singleton.1 hn
    exact .destroyed
  | setopt | find | poll => cases hn

/-- The notes of a step inside a call. -/
inductive ClientNote (m : MgrPtr) (o : Oracle) : Pc → Pc → Note → Prop where
  | enqueued {p : ResPtr} {t : TaskPtr} {k : Cont} {pc' : Pc} (hmem : o.mem = true) :
      ClientNote m o (.reloadEnq p t k) pc' (.enqueued m p)
  | drained {pc' : Pc} : ClientNote m o .drain pc' (.drained m)
  | doneBegan {startTime i startTime' i' : Nat} {p : ResPtr} :
      ClientNote m o (.doneScan startTime i) (.doneCall startTime' i' p) (.doneBegan m p)
  | condemned {startTime i j : Nat} {p q : ResPtr} {k : Cont} :
      ClientNote m o (.doneCall startTime i p) (.rmStop j q k) (.condemned m p)
  | doneReturned {startTime i : Nat} {p : ResPtr} {pc' : Pc} :
      ClientNote m o (.doneCall startTime i p) pc' (.doneReturned m p o.ret)
  | cleared {pc' : Pc} : ClientNote m o .poolClear pc' .cleared

theorem clientNotes_cases {pc pc' : Pc} {n : Note} (hn : n ∈ clientNotes m o pc pc') :
    ClientNote m o pc pc' n := by
  unfold clientNotes at hn
  split at hn
  · split at hn
    · next hmem =>
      obtain rfl := List.mem_singleton.1 hn
      exact .enqueued hmem
    · cases hn
  · obtain rfl := List.mem_singleton.1 hn
    exact .drained
  · obtain rfl := List.mem_singleton.1 hn
    exact .doneBegan
  · simp only [List.mem_cons, List.not_mem_nil, or_false] at hn
    rcases hn with rfl | rfl
    · exact .condemned
    · exact .doneReturned
  · obtain rfl := List.mem_singleton.1 hn
    exact .doneReturned
  · obtain rfl := List.mem_singleton.1 hn
    exact .cleared
  · cases hn

/-- The notes of the last section of `work_func`. -/
theorem completionNotes_cases {rman : Rman} {p : ResPtr} {n : Note}
    (hn : n ∈ completionNotes w m rman p) :
    n = .completed w m p ∨ n = .condemned m p ∧ rman.condemns p = true := by
  unfold completionNotes at hn
  split at hn
  · next hcond =>
    simp only [List.mem_cons, List.not_mem_nil, or_false] at hn
    exact hn.symm.imp_right fun h => ⟨h, hcond⟩
  · exact .inl (List.mem_singleton.1 hn)

theorem callNotes_rman {f : Call} {rman : Rman} {pc' : Pc} :
    ∀ n ∈ callNotes m rman f pc', n.rman = some m := by
  intro n hn
  cases callNotes_cases hn <;> rfl

theorem clientNotes_rman {pc pc' : Pc} : ∀ n ∈ clientNotes m o pc pc',
    n.rman = some m ∨ n.rman = none := by
  intro n hn
  cases clientNotes_cases hn with
  | enqueued | doneBegan | condemned | doneReturned => exact .inl rfl
  | drained | cleared => exact .inr rfl

theorem completionNotes_rman {rman : Rman} {p : ResPtr} :
    ∀ n ∈ completionNotes w m rman p, n.rman = some m ∧ n.live = some p := by
  intro n hn
  rcases completionNotes_cases hn with rfl | ⟨rfl, -⟩ <;> exact ⟨rfl, rfl⟩

/-- What an action of a client other than that of `m` notes. -/
theorem notes_other (h : step s a = some s') (ha : a.client? = some m') (hm : m' ≠ m) :
    ∀ n ∈ notes s a s', n.rman ≠ some m := by
  intro n hn
  rcases client_step_cases h ha with ⟨d, f, rfl, -, -⟩ | ⟨f, c, rman', pc', rfl, hc, -, -, rfl⟩ |
    ⟨o, c, rfl, hc, ⟨rman', pc', -, rfl⟩ | ⟨pool', pc', -, rfl⟩⟩
  · cases hn
  · simp only [notes, hc, Function.update_self] at hn
    rw [callNotes_rman n hn]
    exact fun heq => hm (Option.some.inj heq)
  · simp only [notes, hc, Function.update_self] at hn
    rcases clientNotes_rman n hn with heq | heq
    · exact fun h' => hm (Option.some.inj (heq.symm.trans h'))
    · simp [heq]
  · simp only [notes, hc, Function.update_self] at hn
    rcases clientNotes_rman n hn with heq | heq
    · exact fun h' => hm (Option.some.inj (heq.symm.trans h'))
    · simp [heq]

/-- A worker's step is without a manager, or it is a step on the manager of its job. -/
theorem workerStep_notes (h : workerStep s w o = some s') :
    (s'.clients = s.clients ∧ ∀ n ∈ workerNotes s w o, n.rman = none) ∨
      ∃ (j : Job) (c c' : Client), s.clients j.rman = some c ∧
        s'.clients = Function.update s.clients j.rman (some c') ∧
        NoteStep j.rman (.worker w o) c c' (workerNotes s w o) ∧
        ∀ n ∈ workerNotes s w o, n.rman = some j.rman := by
  cases workerStep_cases h with
  | exit hw hquit => exact .inl ⟨rfl, by simp [workerNotes, hw, hquit]⟩
  | take hw hquit => exact .inl ⟨rfl, by simp [workerNotes, hw, hquit, Note.rman]⟩
  | sent hw => exact .inl ⟨rfl, by simp [workerNotes, hw, Note.rman]⟩
  | taken hw hc =>
    rw [workerNotes, hw]
    exact .inr ⟨_, _, _, hc, rfl, .taken, fun n hn => (by cases hn)⟩
  | returned hw hc hup =>
    rw [workerNotes, hw]
    exact .inr ⟨_, _, _, hc, rfl, .returned hup, fun n hn => List.mem_singleton.1 hn ▸ rfl⟩
  | completed hw hc hlock hdone =>
    simp only [workerNotes, hw, hc]
    exact .inr ⟨_, _, _, hc, rfl, .completed hlock hdone, fun n hn => (completionNotes_rman n hn).1⟩

/-- **The cases of an action with its notes**, for a manager that exists. -/
theorem step_notes (h : step s a = some s') (hc : s.clients m = some c) :
    ∃ c', s'.clients m = some c' ∧ NoteStep m a c c' (notes s a s') := by
  cases ha : a.client? with
  | none =>
    cases a with
    | worker w o =>
      rcases workerStep_notes h with ⟨hcl, hns⟩ | ⟨j, cj, cj', hcj, hcl, hv, hns⟩
      · refine ⟨c, hcl ▸ hc, .frame (by simp [Action.client?]) fun n hn => ?_⟩
        rw [hns n hn]
        exact (Option.some_ne_none m).symm
      · by_cases hm : j.rman = m
        · subst hm
          obtain rfl : cj = c := Option.some.inj (hcj.symm.trans hc)
          exact ⟨cj', by rw [hcl, Function.update_self], hv⟩
        · refine ⟨c, by rw [hcl, Function.update_of_ne (Ne.symm hm), hc],
            .frame (by simp [Action.client?]) fun n hn heq => hm ?_⟩
          exact Option.some.inj ((hns n hn).symm.trans heq)
    | create | call | client => cases ha
  | some m' =>
    by_cases hm : m' = m
    · subst hm
      rcases client_step_cases h ha with ⟨d, f, -, hnone, -⟩ |
        ⟨f, c₁, rman', pc', rfl, hc₁, hpc, hcall, rfl⟩ |
        ⟨o, c₁, rfl, hc₁, ⟨rman', pc', hlocal, rfl⟩ | ⟨pool', pc', hpool, rfl⟩⟩
      · exact absurd (hnone.symm.trans hc) (by simp)
      all_goals
        obtain rfl : c₁ = c := Option.some.inj (hc₁.symm.trans hc)
        obtain ⟨rman, pc⟩ := c₁
        refine ⟨_, Function.update_self _ _ _, ?_⟩
        simp only [notes, hc, Function.update_self]
      · obtain rfl : pc = .idle := hpc
        exact .call hcall
      · exact .client hlocal
      · exact .pool hpool
    · obtain ⟨hcl, -⟩ := step_other h ha hm
      exact ⟨c, hcl.trans hc, .frame (by rw [ha]; simpa using hm) (notes_other h ha hm)⟩

/-- A manager that does not exist is not noted, and it may be created. -/
theorem step_notes_absent (h : step s a = some s') (hc : s.clients m = none) :
    (∀ n ∈ notes s a s', n.rman ≠ some m) ∧
      ∀ c', s'.clients m = some c' → ∃ d f, c' = ⟨.init d f, .idle⟩ := by
  cases ha : a.client? with
  | none =>
    cases a with
    | worker w o =>
      rcases workerStep_notes h with ⟨hcl, hns⟩ | ⟨j, cj, cj', hcj, hcl, -, hns⟩
      · refine ⟨fun n hn => ?_, fun c' hc' => ?_⟩
        · rw [hns n hn]
          exact (Option.some_ne_none m).symm
        · rw [hcl, hc] at hc'
          cases hc'
      · have hm : j.rman ≠ m := by
          rintro rfl
          rw [hc] at hcj
          cases hcj
        refine ⟨fun n hn heq => hm (Option.some.inj ((hns n hn).symm.trans heq)), fun c' hc' => ?_⟩
        rw [hcl, Function.update_of_ne (Ne.symm hm), hc] at hc'
        cases hc'
    | create | call | client => cases ha
  | some m' =>
    by_cases hm : m' = m
    · subst hm
      rcases client_step_cases h ha with ⟨d, f, rfl, -, rfl⟩ | ⟨f, c₁, -, -, -, hc₁, -⟩ |
        ⟨o, c₁, -, hc₁, -⟩
      · refine ⟨fun n hn => (by cases hn), fun c' hc' => ⟨d, f, ?_⟩⟩
        have hself := Function.update_self m' (some ⟨.init d f, .idle⟩) s.clients
        exact (Option.some.inj (hself.symm.trans hc')).symm
      · exact absurd (hc₁.symm.trans hc) (by simp)
      · exact absurd (hc₁.symm.trans hc) (by simp)
    · obtain ⟨hcl, -⟩ := step_other h ha hm
      refine ⟨notes_other h ha hm, fun c' hc' => ?_⟩
      rw [hcl, hc] at hc'
      cases hc'

end Cases

/-! ## The invariant rule -/

section Fields

variable {rman rman' : Rman} {pc pc' : Pc} {o : Oracle}

theorem localStep_fields (h : localStep rman o pc = some (rman', pc')) :
    rman'.doneFunc = rman.doneFunc ∧ rman'.nalloc = rman.nalloc := by
  have hup : ∀ {rman₁ rman₂ : Rman} {p f}, rman₁.update p f = some rman₂ →
      rman₂.doneFunc = rman₁.doneFunc ∧ rman₂.nalloc = rman₁.nalloc := by
    intro rman₁ rman₂ p f h
    obtain ⟨r, -, rfl⟩ := heap_of_update h
    exact ⟨rfl, rfl⟩
  cases localStep_cases h with
  | reloadTask hq | event hq | modsetEnd hq | doneReload hq | rmStop hq =>
    exact ⟨hq.doneFunc, hq.nalloc⟩
  | reloadFlag hflag => exact hup hflag
  | doneTake _ _ _ hflag => exact hup hflag
  | doneOk hloads hq =>
    exact ⟨hq.doneFunc.trans (hup hloads).1, hq.nalloc.trans (hup hloads).2⟩
  | delCall | rmCall | destroyCall =>
    unfold callDestroy
    split <;> exact ⟨rfl, rfl⟩
  | rmFree hfree =>
    obtain ⟨r, -, hfree⟩ := Option.bind_eq_some_iff.1 hfree
    obtain rfl := Option.some.inj hfree
    exact ⟨rfl, rfl⟩
  | _ => exact ⟨rfl, rfl⟩

theorem NoteStep.fields {m : MgrPtr} {a : Action} {c c' : Client} {ns : List Note}
    (h : NoteStep m a c c' ns) :
    c'.rman.doneFunc = c.rman.doneFunc ∧ c.rman.nalloc ≤ c'.rman.nalloc := by
  cases h with
  | frame | pool | taken => exact ⟨rfl, Nat.le_refl _⟩
  | call h =>
    cases callStep_cases h with
    | setopt | stay | poll | destroy => exact ⟨rfl, Nat.le_refl _⟩
    | added => exact ⟨rfl, Nat.le_succ _⟩
    | remove hi hup =>
      obtain ⟨r, -, rfl⟩ := heap_of_update hup
      exact ⟨rfl, Nat.le_refl _⟩
  | client h =>
    obtain ⟨hdone, halloc⟩ := localStep_fields h
    exact ⟨hdone, halloc.ge⟩
  | returned hup =>
    obtain ⟨r, -, rfl⟩ := heap_of_update hup
    exact ⟨rfl, Nat.le_refl _⟩
  | completed _ hdone =>
    obtain ⟨rman₁, hup, hq, -⟩ := workDone_spec hdone
    obtain ⟨r, -, rfl⟩ := heap_of_update hup
    exact ⟨hq.doneFunc, hq.nalloc.ge⟩

end Fields

/-- What is known of a manager and the history in every run: the table is in order, and the
resources that the notes are about have been allocated. -/
structure Past (m : MgrPtr) (c : Client) (es : List Note) : Prop where
  indexed : Indexed c
  noted : ∀ n ∈ es, n.rman = some m → ∀ p ∈ n.live, p < c.rman.nalloc

theorem Past.lt {m : MgrPtr} {c : Client} {es : List Note} (h : Past m c es) {p : ResPtr}
    {r : Resource} (hr : c.rman.heap p = some r) : p < c.rman.nalloc := by
  by_contra hle
  rw [h.indexed.table.fresh p (Nat.not_lt.1 hle)] at hr
  cases hr

/-- The resources that a step notes have been allocated. -/
theorem NoteStep.live {m : MgrPtr} {a : Action} {c c' : Client} {es ns : List Note}
    (hp : Past m c es) (h : NoteStep m a c c' ns) :
    ∀ n ∈ ns, n.rman = some m → ∀ p ∈ n.live, p < c'.rman.nalloc := by
  have hle := h.fields.2
  have hlt : ∀ {p r}, c.rman.heap p = some r → p < c'.rman.nalloc := fun hr =>
    Nat.lt_of_lt_of_le (hp.lt hr) hle
  intro n hn hm p hlive
  cases h with
  | frame _ hns => exact absurd hm (hns n hn)
  | taken => cases hn
  | @call f rman rman' pc' h =>
    cases callNotes_cases hn with
    | found hfind hid =>
      obtain rfl := Option.some.inj hlive
      obtain ⟨r, hr, -⟩ := hp.indexed.table.slot _ _ (Nat.zero_le _) hid
      exact hlt hr
    | new =>
      obtain rfl := Option.some.inj hlive
      cases callStep_cases h with
      | added => exact Nat.lt_succ_self _
    | removed | destroyed => cases hlive
  | @client o rman rman' pc pc' h =>
    cases clientNotes_cases hn with
    | enqueued | drained | cleared => cases hlive
    | doneBegan =>
      obtain rfl := Option.some.inj hlive
      cases localStep_cases h with
      | doneTake _ hr => exact hlt hr
    | condemned | doneReturned =>
      obtain rfl := Option.some.inj hlive
      obtain ⟨r, hr, -⟩ := doneReturn_spec h
      exact hlt hr
  | @pool o rman pool pool' pc pc' h =>
    cases clientNotes_cases hn with
    | enqueued | drained | cleared => cases hlive
    | doneBegan | condemned | doneReturned => cases h
  | returned hup =>
    obtain rfl := List.mem_singleton.1 hn
    obtain rfl := Option.some.inj hlive
    obtain ⟨r, hr, -⟩ := heap_of_update hup
    exact hlt hr
  | completed _ hdone =>
    obtain rfl := Option.some.inj ((completionNotes_rman n hn).2.symm.trans hlive)
    obtain ⟨rman₁, hup, -⟩ := workDone_spec hdone
    obtain ⟨r, hr, -⟩ := heap_of_update hup
    exact hlt hr

/-- **The invariant rule for a manager and the history**: what a new manager has whatever has
happened to others, and `NoteStep` preserves, given the condition `C` on the steps, holds of every
manager in every recorded run along that condition. -/
theorem history_invariant {C : Sys × List Note → Action → Prop}
    {I : MgrPtr → Client → List Note → Prop}
    (hinit : ∀ m d f es, (∀ n ∈ es, n.rman ≠ some m) → I m ⟨.init d f, .idle⟩ es)
    (hstep : ∀ m s a s' c c' es ns, C (s, es) a → s.clients m = some c → notes s a s' = ns →
      Past m c es → I m c es → NoteStep m a c c' ns → I m c' (ns ++ es))
    {numThreads : Nat} {as : List Action} {s : Sys} {es : List Note}
    (hC : Along trace C (.initial numThreads, []) as)
    (h : exec trace (.initial numThreads, []) as = some (s, es)) {m : MgrPtr} :
    (∀ c, s.clients m = some c → Past m c es ∧ I m c es) ∧
      (s.clients m = none → ∀ n ∈ es, n.rman ≠ some m) := by
  refine exec_snoc_induction
    (P := fun _ x => (∀ c, x.1.clients m = some c → Past m c x.2 ∧ I m c x.2) ∧
      (x.1.clients m = none → ∀ n ∈ x.2, n.rman ≠ some m)) ?_ ?_ hC h
  · exact ⟨fun c hc => (by cases hc), fun _ n hn => (by cases hn)⟩
  · rintro as ⟨s, es⟩ a ⟨s', es'⟩ hexec ⟨hsome, hnone⟩ hCa hs
    obtain ⟨hstep', rfl⟩ := record_eq_some.1 hs
    have hexec' : exec step (.initial numThreads) (as ++ [a]) = some s' :=
      exec_snoc.2 ⟨s, exec_record hexec, hstep'⟩
    cases hc : s.clients m with
    | none =>
      obtain ⟨hns, hnew⟩ := step_notes_absent hstep' hc
      have hes : ∀ n ∈ notes s a s' ++ es, n.rman ≠ some m := fun n hn =>
        (List.mem_append.1 hn).elim (hns n) (hnone hc n)
      refine ⟨fun c' hc' => ?_, fun _ => hes⟩
      have hx := indexed_of_run hexec' hc'
      obtain ⟨d, f, rfl⟩ := hnew c' hc'
      exact ⟨⟨hx, fun n hn hm => absurd hm (hes n hn)⟩, hinit m d f _ hes⟩
    | some c =>
      obtain ⟨hp, hI⟩ := hsome c hc
      obtain ⟨c', hc', hv⟩ := step_notes hstep' hc
      refine ⟨fun c₁ hc₁ => ?_, fun hnone' => ?_⟩
      · obtain rfl : c' = c₁ := Option.some.inj (hc'.symm.trans hc₁)
        refine ⟨⟨indexed_of_run hexec' hc', fun n hn hm p hlive => ?_⟩,
          hstep m s a s' c c' es _ hCa hc rfl hp hI hv⟩
        rcases List.mem_append.1 hn with hn | hn
        · exact hv.live hp n hn hm p hlive
        · exact Nat.lt_of_lt_of_le (hp.noted n hn hm p hlive) hv.fields.2
      · exact absurd (hc'.symm.trans hnone') (Option.some_ne_none c')

end Resman.Manager
