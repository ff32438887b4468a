import Resman.TPool.Steps

/-!
# Every job exactly once

`Owned` is the invariant of all pools together: every item has one owner, the free list holds at
most 64 items, and every pool is in order. It is kept by every step (`Owned.effect`), so it holds in
every run, for any number of pools, workers and callers; `jobsOk_of_run` is what follows for the
jobs and the counters of a pool.
-/

namespace Resman.TPool

open Lib

variable {own own' : ItemPtr → Option Owner} {items items' : Items} {s s' : World}
  {pool pool' : Pool} {P : PoolPtr} {a : ItemPtr} {capacity : Nat}

/-! ## The invariant -/

/-- The free list is in order. -/
def FreeOk (own : ItemPtr → Option Owner) (items : Items) : Prop :=
  ∃ l, Chain (nextOf items.heap) items.wpool l ∧ items.wpoolSize = l.length ∧
    items.wpoolSize ≤ maxWpoolSize ∧ ∀ a ∈ l, own a = some .free

structure Owned (own : ItemPtr → Option Owner) (s : World) : Prop where
  free : FreeOk own s.items
  caller : ∀ t P a, s.callers t = some (P, .enqLink a) →
    own a = some (.caller t) ∧ nextOf s.items.heap a = some none
  pools : ∀ P pool, s.pools P = some pool → PoolOk own s.items.heap P pool
  fresh : ∀ a, s.items.heap a = none → own a = none

theorem FreeOk.frame (h : FreeOk own items)
    (hsame : ∀ a, own a = some .free → own' a = own a ∧ items'.heap a = items.heap a)
    (hwpool : items'.wpool = items.wpool) (hsize : items'.wpoolSize = items.wpoolSize) :
    FreeOk own' items' := by
  obtain ⟨l, hchain, hlen, hmax, hown⟩ := h
  refine ⟨l, ?_, hsize.trans hlen, hsize ▸ hmax, fun a ha => ?_⟩
  · rw [hwpool]
    exact hchain.congr fun a ha => by rw [nextOf, nextOf, (hsame a (hown a ha)).2]
  · exact (hsame a (hown a ha)).1.trans (hown a ha)

namespace Owned

/-- The owners for which `A` does not hold keep their items as they are. -/
def Keeps (A : Owner → Prop) (own own' : ItemPtr → Option Owner)
    (heap heap' : ItemPtr → Option WorkItem) : Prop :=
  ∀ a o, own a = some o → ¬ A o → own' a = own a ∧ heap' a = heap a

/-- A change that only affects the items of the owners in `A`, where the parts of the invariant that
speak of these owners are shown to hold again. -/
theorem change {A : Owner → Prop} {pools' : PoolPtr → Option Pool}
    {callers' : CallerId → Option (PoolPtr × Position)} (h : Owned own s)
    (hkeep : Keeps A own own' s.items.heap items'.heap) (hfree : FreeOk own' items')
    (hcaller : ∀ t P a, callers' t = some (P, .enqLink a) →
      s.callers t = some (P, .enqLink a) ∧ ¬ A (.caller t) ∨
        own' a = some (.caller t) ∧ nextOf items'.heap a = some none)
    (hpools : ∀ P pool, pools' P = some pool →
      s.pools P = some pool ∧ (∀ o, A o → o.pool? ≠ some P) ∨ PoolOk own' items'.heap P pool)
    (hfresh : ∀ a, items'.heap a = none → own' a = none) :
    Owned own' ⟨items', pools', callers'⟩ where
  free := hfree
  caller t P a ht := by
    rcases hcaller t P a ht with ⟨hold, hA⟩ | hnew
    · obtain ⟨hown, hnext⟩ := h.caller t P a hold
      obtain ⟨hown', hheap⟩ := hkeep a _ hown hA
      exact ⟨hown'.trans hown, by rw [nextOf, hheap]; exact hnext⟩
    · exact hnew
  pools P pool hP := by
    rcases hpools P pool hP with ⟨hold, hA⟩ | hnew
    · refine (h.pools P pool hold).follow (.frame fun a o ha ho => hkeep a o ha fun hAo => ?_)
      exact hA o hAo ho
    · exact hnew
  fresh := hfresh

/-- A pool is replaced by one that its work queue can follow. -/
theorem pools_update {A : Owner → Prop} (h : Owned own s)
    (hA : ∀ o, A o → ∀ P', o.pool? = some P' → P' = P) (hP : s.pools P = some pool)
    (hf : Follows P own s.items.heap pool own' items'.heap pool') (P₁ : PoolPtr) (pool₁ : Pool)
    (h₁ : Function.update s.pools P (some pool') P₁ = some pool₁) :
    s.pools P₁ = some pool₁ ∧ (∀ o, A o → o.pool? ≠ some P₁) ∨
    PoolOk own' items'.heap P₁ pool₁ := by
  rcases update_eq_some.1 h₁ with ⟨rfl, heq⟩ | ⟨hP₁, hold⟩
  · exact .inr (Option.some.inj heq ▸ (h.pools P₁ pool hP).follow hf)
  · exact .inl ⟨hold, fun o ho hpool => hP₁ (hA o ho P₁ hpool)⟩

/-- The items and their owners stay as they are. -/
theorem idle {pools' : PoolPtr → Option Pool} {callers' : CallerId → Option (PoolPtr × Position)}
    (h : Owned own s) (hc : NoNewItem s.callers callers')
    (hpools : ∀ P pool, pools' P = some pool →
      s.pools P = some pool ∨ PoolOk own s.items.heap P pool) :
    Owned own ⟨s.items, pools', callers'⟩ := by
  refine h.change (A := fun _ => False) (fun _ _ _ _ => ⟨rfl, rfl⟩) h.free
    (fun t P a ht => .inl ⟨hc t P a ht, id⟩) (fun P pool hP => ?_) h.fresh
  exact (hpools P pool hP).imp_left fun hold => ⟨hold, fun _ hA => hA.elim⟩

/-- One pool goes on, and the items and their owners stay as they are. -/
theorem still {callers' : CallerId → Option (PoolPtr × Position)} (h : Owned own s)
    (hc : NoNewItem s.callers callers') (hP : s.pools P = some pool)
    (hf : Follows P own s.items.heap pool own s.items.heap pool') :
    Owned own ⟨s.items, Function.update s.pools P (some pool'), callers'⟩ :=
  h.idle hc fun P₁ pool₁ h₁ =>
    (h.pools_update (A := fun _ => False) (fun _ hA => hA.elim) hP hf P₁ pool₁ h₁).imp_left And.left

theorem link {t : CallerId} (h : Owned own s) (ht : s.callers t = some (P, .enqLink a))
    (hP : s.pools P = some pool) (hlink : linkItem s.items pool a = some (items', pool')) :
    Owned (Function.update own a (some (.queue P))) ⟨items', Function.update s.pools P (some pool'),
      Function.update s.callers t (some (P, .enqTest))⟩ := by
  obtain ⟨hown, hnext⟩ := h.caller t P a ht
  obtain ⟨q, hl, -⟩ := h.pools P pool hP
  obtain ⟨x, hx, hself, hother, hjob, -, hwpool, hsize, -⟩ := linkItem_spec hl hown hnext hlink
  have hkeep : Keeps (fun o => o = .caller t ∨ o = .queue P) own
      (Function.update own a (some (.queue P))) s.items.heap items'.heap := by
    intro b o hb ho
    have hba : b ≠ a := ne_of_own hb hown fun heq => ho (.inl heq)
    refine ⟨Function.update_of_ne hba _ _, hother b hba fun hq => ?_⟩
    exact ho (.inr (Option.some.inj (hb.symm.trans hq)))
  refine h.change hkeep (h.free.frame (fun b hb => hkeep b _ hb (by simp)) hwpool hsize)
    (fun t' P' b ht' => ?_) (h.pools_update ?_ hP (.link hown hnext hlink)) fun b hb => ?_
  · rcases update_eq_some.1 ht' with ⟨-, hpos⟩ | ⟨htt, hold⟩
    · cases hpos
    · exact .inl ⟨hold, by simp [htt]⟩
  · rintro o (rfl | rfl) P' ho
    · cases ho
    · exact (Option.some.inj ho).symm
  · have hba : b ≠ a := by
      rintro rfl
      exact absurd (hb.symm.trans hself) (by simp)
    rw [Function.update_of_ne hba]
    have hmap := hjob b hba
    rw [hb] at hmap
    exact h.fresh b (by simpa using hmap.symm)

theorem clear {callers' : CallerId → Option (PoolPtr × Position)} (h : Owned own s)
    (hc : NoNewItem s.callers callers') (hP : s.pools P = some pool)
    (hclear : clearQueue s.items pool = some (items', pool')) :
    Owned (fun a => if own a = some (.queue P) then none else own a)
      ⟨items', Function.update s.pools P (some pool'), callers'⟩ := by
  obtain ⟨q, hl, -⟩ := h.pools P pool hP
  have hitems := (clearQueue_eq hl).symm.trans hclear
  obtain ⟨rfl, -⟩ := Prod.mk.inj (Option.some.inj hitems)
  have hkeep : Keeps (fun o => o = .queue P) own
      (fun a => if own a = some (.queue P) then none else own a) s.items.heap
      (fun a => if a ∈ q then none else s.items.heap a) := by
    intro b o hb ho
    have hne : own b ≠ some (.queue P) := fun hq => ho (Option.some.inj (hb.symm.trans hq))
    exact ⟨if_neg hne, if_neg fun hq => hne (hl.queue b hq)⟩
  refine h.change hkeep (h.free.frame (fun b hb => hkeep b _ hb (by simp)) rfl rfl)
    (fun t P a ht => .inl ⟨hc t P a ht, by simp⟩) (h.pools_update ?_ hP (.clear hclear))
    fun b hb => ?_
  · rintro o rfl P' ho
    exact (Option.some.inj ho).symm
  · by_cases hq : b ∈ q
    · exact if_pos (hl.queue b hq)
    · have hnone : s.items.heap b = none := (if_neg hq).symm.trans hb
      simp [h.fresh b hnone]

theorem take {w : Nat} {wk : Worker} (h : Owned own s) (hP : s.pools P = some pool)
    (hwk : pool.workers[w]? = some wk) (hidle : wk.core = .start)
    (htake : takeItem s.items pool w = some pool') : ∃ own', Owned own' (s.setPool P pool') := by
  obtain ⟨a, haq, hf⟩ := Follows.take own (P := P) hwk hidle htake
  obtain ⟨q, hl, -⟩ := h.pools P pool hP
  have hown := hl.queue a (haq q hl)
  have hkeep : Keeps (fun o => o = .queue P) own (Function.update own a (some (.worker P w)))
      s.items.heap s.items.heap := by
    intro b o hb ho
    exact ⟨Function.update_of_ne (ne_of_own hb hown ho) _ _, rfl⟩
  refine ⟨_, h.change hkeep (h.free.frame (fun b hb => hkeep b _ hb (by simp)) rfl rfl)
    (fun t P a ht => .inl ⟨ht, by simp⟩) (h.pools_update ?_ hP hf) fun b hb => ?_⟩
  · rintro o rfl P' ho
    exact (Option.some.inj ho).symm
  · have hba : b ≠ a := by
      rintro rfl
      exact absurd ((h.fresh b hb).symm.trans hown) (by simp)
    rw [Function.update_of_ne hba]
    exact h.fresh b hb

theorem freed {w : Nat} {x : WorkItem} (h : Owned own s) (hP : s.pools P = some pool)
    (hwk : pool.workers[w]? = some (.freeing a)) (hx : s.items.heap a = some x)
    (hfree : freeWorkItem s.items a = some items') : ∃ own', Owned own'
      ⟨items', Function.update s.pools P (some (pool.setWorker w (.finishing x.id x.toJob))),
        s.callers⟩ := by
  obtain ⟨q, hl, -⟩ := h.pools P pool hP
  have hown := hl.worker w _ hwk a rfl
  -- the item is written, and gets another owner
  have hmove : ∀ o, (∀ b, b ≠ a → items'.heap b = s.items.heap b) →
      FreeOk (Function.update own a o) items' → (items'.heap a = none → o = none) →
      Owned (Function.update own a o)
        ⟨items', Function.update s.pools P (some (pool.setWorker w (.finishing x.id x.toJob))),
          s.callers⟩ := by
    intro o hheap hfreeOk hnone
    have hkeep : Keeps (fun o => o = .worker P w) own (Function.update own a o) s.items.heap
        items'.heap := by
      intro b o' hb ho'
      have hba : b ≠ a := ne_of_own hb hown ho'
      exact ⟨Function.update_of_ne hba _ _, hheap b hba⟩
    refine h.change hkeep hfreeOk (fun t P a ht => .inl ⟨ht, by simp⟩)
      (h.pools_update ?_ hP (.free hwk hx hheap)) fun b hb => ?_
    · rintro o rfl P' ho
      exact (Option.some.inj ho).symm
    · by_cases hba : b = a
      · subst hba
        rw [Function.update_self, hnone hb]
      · rw [Function.update_of_ne hba]
        exact h.fresh b (hheap b hba ▸ hb)
  obtain ⟨l, hchain, hlen, hmax, hfl⟩ := h.free
  have hla : ∀ b ∈ l, b ≠ a := fun b hb => ne_of_own (hfl b hb) hown (by simp)
  simp only [freeWorkItem, hx, Option.bind_eq_bind, Option.bind_some] at hfree
  split at hfree
  · obtain rfl := Option.some.inj hfree
    refine ⟨_, hmove none (fun b hb => Function.update_of_ne hb _ _) ?_ fun _ => rfl⟩
    refine h.free.frame (fun b hb => ?_) rfl rfl
    have hba : b ≠ a := ne_of_own hb hown (by simp)
    exact ⟨Function.update_of_ne hba _ _, Function.update_of_ne hba _ _⟩
  · next hroom =>
    obtain rfl := Option.some.inj hfree
    refine ⟨_, hmove (some .free) (fun b hb => Function.update_of_ne hb _ _) ?_ fun hnone => ?_⟩
    · refine ⟨a :: l, hchain.push (fun b hb => ?_) ?_, ?_, ?_, fun b hb => ?_⟩
      · simp [nextOf, hla b hb]
      · simp [nextOf]
      · simp [hlen]
      · show s.items.wpoolSize + 1 ≤ maxWpoolSize
        omega
      · rcases List.mem_cons.1 hb with rfl | hb
        · exact Function.update_self _ _ _
        · rw [Function.update_of_ne (hla b hb)]
          exact hfl b hb
    · simp at hnone

/-- A caller gets an item that was free or not allocated. -/
theorem gotten {t : CallerId} {job : Job} (h : Owned own s)
    (hheap : items'.heap =
      Function.update s.items.heap a (some { toJob := job, next := none, id := 0 }))
    (hown : ∀ o, own a = some o → o = .free)
    (hfree : FreeOk (Function.update own a (some (.caller t))) items') :
    Owned (Function.update own a (some (.caller t)))
      ⟨items', s.pools, Function.update s.callers t (some (P, .enqLink a))⟩ := by
  have hkeep : Keeps (fun o => o = .free) own (Function.update own a (some (.caller t)))
      s.items.heap items'.heap := by
    intro b o hb ho
    have hba : b ≠ a := by
      rintro rfl
      exact ho (hown o hb)
    rw [hheap]
    exact ⟨Function.update_of_ne hba _ _, Function.update_of_ne hba _ _⟩
  refine h.change hkeep hfree (fun t' P' b ht' => ?_) (fun P' pool' hP' => .inl ⟨hP', ?_⟩)
    fun b hb => ?_
  · rcases update_eq_some.1 ht' with ⟨rfl, hpos⟩ | ⟨-, hold⟩
    · obtain rfl := Position.enqLink.inj (Prod.mk.inj (Option.some.inj hpos)).2
      exact .inr ⟨Function.update_self _ _ _, by simp [hheap, nextOf]⟩
    · exact .inl ⟨hold, by simp⟩
  · rintro o rfl
    simp [Owner.pool?]
  · rw [hheap] at hb
    have hba : b ≠ a := by
      rintro rfl
      simp at hb
    rw [Function.update_of_ne hba]
    exact h.fresh b (by simpa [hba] using hb)

theorem pop {t : CallerId} {job : Job} (h : Owned own s) (ha : s.items.wpool = some a)
    (hpop : popWorkItem s.items job a = some items') :
    Owned (Function.update own a (some (.caller t)))
      ⟨items', s.pools, Function.update s.callers t (some (P, .enqLink a))⟩ := by
  obtain ⟨x, hx, hpop⟩ := Option.bind_eq_some_iff.1 hpop
  obtain rfl := Option.some.inj hpop
  obtain ⟨l, hchain, hlen, hmax, hfl⟩ := h.free
  obtain ⟨next, l, rfl, hnext, hchain'⟩ := (ha ▸ hchain).pop
  obtain rfl : x.next = next := by simpa [nextOf, hx] using hnext
  have hla : ∀ b ∈ l, b ≠ a := by
    rintro b hb rfl
    exact (List.nodup_cons.1 hchain.nodup).1 hb
  refine h.gotten rfl (fun o ho => Option.some.inj (ho.symm.trans (hfl a List.mem_cons_self))) ?_
  refine ⟨l, hchain'.congr fun b hb => ?_, ?_, ?_, fun b hb => ?_⟩
  · simp [nextOf, hla b hb]
  · simp [hlen]
  · show s.items.wpoolSize - 1 ≤ maxWpoolSize
    omega
  · rw [Function.update_of_ne (hla b hb)]
    exact hfl b (List.mem_cons_of_mem _ hb)

theorem malloc {t : CallerId} {job : Job} (h : Owned own s)
    (hmalloc : mallocWorkItem s.items job a = some items') :
    Owned (Function.update own a (some (.caller t)))
      ⟨items', s.pools, Function.update s.callers t (some (P, .enqLink a))⟩ := by
  rw [mallocWorkItem] at hmalloc
  split at hmalloc
  · cases hmalloc
  · next hnone =>
    obtain rfl := Option.some.inj hmalloc
    have hown := h.fresh a hnone
    refine h.gotten rfl (fun o ho => absurd (ho.symm.trans hown) (by simp)) ?_
    refine h.free.frame (fun b hb => ?_) rfl rfl
    have hba : b ≠ a := by
      rintro rfl
      exact absurd (hb.symm.trans hown) (by simp)
    exact ⟨Function.update_of_ne hba _ _, Function.update_of_ne hba _ _⟩

/-- Every step keeps the invariant, for some new owners. -/
theorem effect (h : Owned own s) (he : Effect capacity s s') : ∃ own', Owned own' s' := by
  cases he with
  | create hP =>
    refine ⟨own, h.idle (.refl _) fun P₁ pool₁ h₁ => ?_⟩
    rcases update_eq_some.1 h₁ with ⟨rfl, heq⟩ | ⟨-, hold⟩
    · exact .inr (Option.some.inj heq ▸ .create _)
    · exact .inl hold
  | gone hc =>
    refine ⟨own, h.idle hc fun P₁ pool₁ h₁ => ?_⟩
    rcases update_eq_some.1 h₁ with ⟨rfl, heq⟩ | ⟨-, hold⟩
    · cases heq
    · exact .inl hold
  | moved hc => exact ⟨own, h.idle hc fun _ _ hP => .inl hP⟩
  | quiet hP hs hc => exact ⟨own, h.still hc hP (.same hs)⟩
  | @joined P pool _ hP hall hc =>
    -- no worker is left that could be active
    obtain ⟨q, hl, -⟩ := h.pools P pool hP
    have hzero : pool.nactive = 0 := by
      rw [hl.nactive, List.countP_eq_zero.2 fun wk hwk => by rw [hall wk hwk]; simp [Worker.active]]
      rfl
    exact ⟨own, h.still hc hP (.same ⟨rfl, rfl, rfl, hzero.symm, rfl, rfl, rfl⟩)⟩
  | pop ha hpop => exact ⟨_, h.pop ha hpop⟩
  | malloc hmalloc => exact ⟨_, h.malloc hmalloc⟩
  | link ht hP hlink => exact ⟨_, h.link ht hP hlink⟩
  | clear hP hclear hc => exact ⟨_, h.clear hc hP hclear⟩
  | take hP hwk hidle htake => exact h.take hP hwk hidle htake
  | @worked P pool w a x hP hwk hx =>
    have hrun : (Worker.working a).running s.items.heap =
        some ⟨x.id, [], (x.work, x.data) :: (x.done.map (·, x.data)).toList⟩ := by
      simp [Worker.running, hx, Job.calls]
    refine ⟨own, h.still (.refl _) hP (.call hwk rfl ?_ ?_ hrun ?_)⟩
    all_goals cases hdone : x.done <;> simp [Worker.active, Worker.item, Worker.running, hx, hdone,
      Job.calls]
  | @done P pool w a x done hP hwk hx hdone =>
    have hrun : (Worker.doing a).running s.items.heap =
        some ⟨x.id, [(x.work, x.data)], [(done, x.data)]⟩ := by
      simp [Worker.running, hx, hdone]
    refine ⟨own, h.still (.refl _) hP (.call hwk rfl rfl rfl hrun ?_)⟩
    simp [Worker.running, hx, hdone, Job.calls]
  | free hP hwk hx hfree => exact h.freed hP hwk hx hfree
  | finish hP hwk hfinish => exact ⟨own, h.still (.refl _) hP (.finish hwk hfinish)⟩

end Owned

/-! ## Runs -/

/-- Nothing is allocated yet. -/
theorem owned_initial : ∃ own, Owned own .initial := by
  refine ⟨fun _ => none, ?_⟩
  exact {
    free := ⟨[], rfl, rfl, by decide, fun a ha => (by cases ha)⟩
    caller := fun t P a ht => by cases ht
    pools := fun P pool hP => by cases hP
    fresh := fun a _ => rfl }

/-- The invariant in every run. -/
theorem owned_of_run {as : List Action} (h : exec (step capacity) .initial as = some s) :
    ∃ own, Owned own s := by
  refine exec_invariant' (I := fun s => ∃ own, Owned own s) owned_initial
    (fun s a s' hs hstep => ?_) h
  obtain ⟨own, howned⟩ := hs
  exact howned.effect (step_cases hstep)

/-- What holds of the jobs of a pool, where `q` holds the items from `workq` on: the tail pointer
and the counters fit, every linked job is in exactly one state, and jobs leave the queue in the
order in which they were linked. -/
structure JobsOk (heap : ItemPtr → Option WorkItem) (pool : Pool) (q : List ItemPtr) : Prop where
  workq : Chain (nextOf heap) pool.workq q
  workqTail : pool.workqTail = q.getLast?
  queued : queuedJobs pool = q.length
  active : activeJobs pool = pool.workers.countP Worker.active
  pending : pendingJobs pool = q.length + pool.workers.countP Worker.active
  states : ∀ id job, .linked id job ∈ pool.log → ∃! st, (view heap pool q).InState id st
  order : removedIds pool.log ++ (entries heap q).map Prod.fst = linkedIds pool.log
  taken : (takenIds pool.log).Sublist (linkedIds pool.log)

theorem jobsOk_of_run {as : List Action} (h : exec (step capacity) .initial as = some s)
    (hP : s.pools P = some pool) : ∃ q, JobsOk s.items.heap pool q := by
  obtain ⟨own, howned⟩ := owned_of_run h
  obtain ⟨q, hl, hok⟩ := howned.pools P pool hP
  refine ⟨q, hl.chain, hl.tail, hl.qsize, hl.nactive, ?_, fun id job hlinked => ?_, hok.fifo,
    hok.takenIds_sublist_linkedIds⟩
  · rw [pendingJobs, hl.qsize, hl.nactive]
  · refine hok.existsUnique_inState (Nat.lt_of_not_le fun hle => ?_)
    have hmem : JobEvent.linked id job ∈ history id pool.log := by
      simpa [history, JobEvent.id] using hlinked
    rw [show history id pool.log = [] from hok.fresh id hle] at hmem
    cases hmem

/-- Two jobs are enqueued in a pool with two workers, and the first one is finished while the second
one waits. -/
def firstFinished : List Action :=
  [.create 0 2, .call 0 0 (.enqueue ⟨7, 1, some 2⟩), .caller 0 {}, .caller 0 { mem := some 100 }] ++
  List.replicate 3 (.caller 0 {}) ++ [.call 0 0 (.enqueue ⟨8, 3, none⟩), .caller 0 {},
    .caller 0 { mem := some 101 }] ++ List.replicate 3 (.caller 0 {}) ++
  List.replicate 7 (.worker 0 0)

end Resman.TPool
