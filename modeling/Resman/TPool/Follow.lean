import Resman.TPool.View

/-!
# Operations on a pool, followed by its work queue

For every operation of `tpool.c` on the items and the pool there is one theorem in `Follows`: a pool
that is in order stays in order, and its work queue makes the steps that belong to the operation.
Changes to items of others are no step at all (`Follows.frame`), nor are changes of flags, signals
and the mutex (`Follows.same`).
-/

namespace Resman.TPool

open Lib

variable {heap heap' : ItemPtr → Option WorkItem} {pool pool' : Pool} {P : PoolPtr} {a : ItemPtr}
  {x : WorkItem} {q : List ItemPtr} {w : Nat} {wk wk' : Worker} {own own' : ItemPtr → Option Owner}
  {items items' : Items} {id : JobId} {made rest : List (Callback × Nat)} {c : Callback × Nat}

/-! ## Linking, taking and clearing -/

/-- The number and the job of an item determine its entry. -/
theorem entry_eq
    (h : (heap' a).map (fun x => (x.id, x.toJob)) = (heap a).map fun x => (x.id, x.toJob)) :
    (heap' a).map WorkItem.entry = (heap a).map WorkItem.entry := by
  have hentry := congrArg (Option.map fun j : JobId × Job => (j.1, j.2.calls)) h
  rwa [Option.map_map, Option.map_map] at hentry

/-- An item can be linked behind a list that is in order. -/
theorem linkItem_ne_none (hl : Linked own items.heap P pool q) (hx : items.heap a = some x) :
    linkItem items pool a ≠ none := by
  rw [linkItem, hx, Option.bind_eq_bind, Option.bind_some]
  cases hworkq : pool.workq with
  | none => exact Option.some_ne_none _
  | some b =>
    have hhead := hl.chain.head_eq
    obtain ⟨tail, htail⟩ : ∃ tail, q.getLast? = some tail := by
      cases hq : q with
      | nil => simp [hworkq, hq] at hhead
      | cons c q => exact ⟨_, List.getLast?_eq_some_getLast (List.cons_ne_nil c q)⟩
    obtain ⟨next, hnext⟩ := hl.chain.exists_next (List.mem_of_getLast? htail)
    obtain ⟨y, hy, -⟩ := Option.map_eq_some_iff.1 hnext
    simp only [hl.tail, htail]
    by_cases hta : tail = a
    · subst hta
      simp
    · simp [hta, hy]

/-- What `linkItem` does to a list that is in order: only the new item and the last one of the queue
are written, and the last one only gets its link. -/
theorem linkItem_spec {t : CallerId} (hl : Linked own items.heap P pool q)
    (hown : own a = some (.caller t)) (hnext : nextOf items.heap a = some none)
    (h : linkItem items pool a = some (items', pool')) :
    ∃ x, items.heap a = some x ∧ items'.heap a = some { x with id := pool.nlinked } ∧
      (∀ b, b ≠ a → own b ≠ some (.queue P) → items'.heap b = items.heap b) ∧
      (∀ b, b ≠ a → (items'.heap b).map (fun x => (x.id, x.toJob)) =
        (items.heap b).map fun x => (x.id, x.toJob)) ∧
      Chain (nextOf items'.heap) pool'.workq (q ++ [a]) ∧
      items'.wpool = items.wpool ∧ items'.wpoolSize = items.wpoolSize ∧
      pool' = { pool with
        workq := pool'.workq
        workqTail := some a
        qsize := pool.qsize + 1
        nlinked := pool.nlinked + 1
        log := .linked pool.nlinked x.calls :: pool.log } := by
  simp only [linkItem, Option.bind_eq_bind, Option.bind_eq_some_iff] at h
  obtain ⟨x, hx, h⟩ := h
  have hxnext : x.next = none := by simpa [nextOf, hx] using hnext
  refine ⟨x, hx, ?_⟩
  have hhead := hl.chain.head_eq
  split at h
  · next b hb =>
    obtain ⟨tail, htail, y, hy, h⟩ := by simpa only [Option.bind_eq_some_iff] using h
    obtain ⟨rfl, rfl⟩ := Prod.mk.inj (Option.some.inj h)
    obtain ⟨l, rfl⟩ := List.getLast?_eq_some_iff.1 (hl.tail.symm.trans htail)
    have htown := hl.queue tail (List.mem_append_right _ List.mem_cons_self)
    have hta : tail ≠ a := ne_of_own htown hown (by simp)
    rw [Function.update_of_ne hta] at hy
    refine ⟨?_, fun b hba hbown => ?_, fun b hba => ?_, ?_, rfl, rfl, rfl⟩
    · simp [Ne.symm hta]
    · have hbt : b ≠ tail := by
        rintro rfl
        exact hbown htown
      simp [hbt, hba]
    · by_cases hbt : b = tail
      · subst hbt
        simp [hy]
      · simp [hbt, hba]
    · have hnodup := List.nodup_append.1 hl.chain.nodup
      refine hl.chain.link (fun b hb => ?_) (by simp [nextOf]) ?_
      · have hbt : b ≠ tail := hnodup.2.2 b hb tail List.mem_cons_self
        have hba : b ≠ a := ne_of_own (hl.queue b (List.mem_append_left _ hb)) hown (by simp)
        simp [nextOf, hbt, hba]
      · simp [nextOf, Ne.symm hta, hxnext]
  · next hnone =>
    obtain ⟨rfl, rfl⟩ := Prod.mk.inj (Option.some.inj h)
    rw [hnone] at hhead
    obtain rfl := List.head?_eq_none_iff.1 hhead.symm
    refine ⟨Function.update_self _ _ _, fun b hba _ => Function.update_of_ne hba _ _,
      fun b hba => congrArg _ (Function.update_of_ne hba _ _), ?_, rfl, rfl, rfl⟩
    exact ⟨rfl, none, by simp [nextOf, hxnext], rfl⟩

/-- The loop of `resman_tpool_clear` frees the items of the list, in their order. -/
theorem freeQueue_eq {p : Option ItemPtr} {fuel : Nat} (h : Chain (nextOf heap) p q)
    (hfuel : q.length ≤ fuel) : freeQueue fuel heap p =
      some (fun a => if a ∈ q then none else heap a, (entries heap q).map Prod.fst) := by
  induction q generalizing p heap fuel with
  | nil =>
    obtain rfl : p = none := h
    rw [freeQueue]
    simp [entries]
  | cons a q ih =>
    have hnodup := List.nodup_cons.1 h.nodup
    obtain ⟨rfl, next, hnext, hchain⟩ := h
    obtain ⟨x, hx, rfl⟩ := Option.map_eq_some_iff.1 hnext
    have hother : ∀ b ∈ q, Function.update heap a none b = heap b := by
      intro b hb
      refine Function.update_of_ne ?_ _ _
      rintro rfl
      exact hnodup.1 hb
    have hchain' : Chain (nextOf (Function.update heap a none)) x.next q :=
      hchain.congr fun b hb => by rw [nextOf, nextOf, hother b hb]
    obtain ⟨fuel, rfl⟩ : ∃ k, fuel = k + 1 := ⟨fuel - 1, by simp at hfuel; omega⟩
    rw [freeQueue]
    simp only [hx, Option.bind_eq_bind, Option.bind_some, ih hchain' (Nat.le_of_succ_le_succ hfuel)]
    refine congrArg some (Prod.ext ?_ ?_)
    · funext b
      by_cases hb : b = a
      · simp [hb]
      · simp [hb]
    · rw [entries_congr fun b hb => by rw [hother b hb]]
      simp [entries, hx, WorkItem.entry]

/-- The queue is as long as its counter says, so the loop comes to its end. -/
theorem clearQueue_eq (hl : Linked own items.heap P pool q) : clearQueue items pool =
    some ({ items with heap := fun a => if a ∈ q then none else items.heap a }, { pool with
      workq := none
      workqTail := none
      qsize := 0
      log := (((entries items.heap q).map Prod.fst).map .discarded).reverse ++ pool.log }) := by
  rw [clearQueue, freeQueue_eq hl.chain (by rw [hl.qsize]; simp)]
  rfl

namespace Follows

/-- A pool is not touched by changes to items that it does not own. -/
theorem frame (hsame : ∀ a o, own a = some o → o.pool? = some P → own' a = own a ∧
    heap' a = heap a) :
    Follows P own heap pool own' heap' pool := by
  intro q hl
  have hq : ∀ a ∈ q, own' a = own a ∧ heap' a = heap a := fun a ha => hsame a _ (hl.queue a ha) rfl
  have hw : ∀ (w : Nat) (wk : Worker), pool.workers[w]? = some wk → ∀ a ∈ wk.item,
      own' a = own a ∧ heap' a = heap a :=
    fun w wk hwk a ha => hsame a _ (hl.worker w wk hwk a ha) rfl
  have hview : view heap' pool q = view heap pool q := by
    rw [view, view, Pool.running_congr fun w wk hwk a ha => (hw w wk hwk a ha).2,
      entries_congr fun a ha => by rw [(hq a ha).2]]
  refine ⟨q, ?_, hview ▸ .refl⟩
  exact {
    chain := hl.chain.congr fun a ha => by rw [nextOf, nextOf, (hq a ha).2]
    queue := fun a ha => (hq a ha).1.trans (hl.queue a ha)
    worker := fun w wk hwk a ha => (hw w wk hwk a ha).1.trans (hl.worker w wk hwk a ha)
    qsize := hl.qsize
    tail := hl.tail
    nactive := hl.nactive }

/-- A change to fields that do not matter for the jobs. -/
theorem same (hs : pool.Same pool') : Follows P own heap pool own heap pool' := by
  intro q hl
  have hcore : ∀ w : Nat, pool'.workers[w]?.map Worker.core = pool.workers[w]?.map Worker.core := by
    intro w
    rw [← List.getElem?_map, ← List.getElem?_map, hs.workers]
  have hview : view heap pool' q = view heap pool q := by
    have hrunning : pool'.running heap = pool.running heap := by
      funext w
      have hbind := congrArg (Option.bind · (Worker.running heap)) (hcore w)
      simpa only [Pool.running, Option.bind_map, Function.comp_def, Worker.running_core] using hbind
    rw [view, view, hrunning, hs.nlinked, hs.log]
  refine ⟨q, ?_, hview ▸ .refl⟩
  exact {
    chain := hs.workq ▸ hl.chain
    queue := hl.queue
    worker := fun w wk' hwk' a ha => by
      have hw := hcore w
      rw [hwk'] at hw
      obtain ⟨wk, hwk, heq⟩ := Option.map_eq_some_iff.1 hw.symm
      refine hl.worker w wk hwk a ?_
      rwa [← wk.item_core, heq, wk'.item_core]
    qsize := hs.qsize.trans hl.qsize
    tail := hs.workqTail.trans hl.tail
    nactive := by
      have hcount := congrArg (List.countP Worker.active) hs.workers
      simp only [List.countP_map, Function.comp_def, Worker.active_core] at hcount
      rw [hs.nactive, hl.nactive, ← hcount] }

/-- A worker moves on with its item or without one; the list stays as it is. -/
theorem worker (hwk : pool.workers[w]? = some wk)
    (hset : pool'.workers = pool.workers.set w wk') (hitem : ∀ a ∈ wk'.item, a ∈ wk.item)
    (hqsize : pool'.qsize = pool.qsize) (hworkq : pool'.workq = pool.workq)
    (htail : pool'.workqTail = pool.workqTail)
    (hnactive : pool'.nactive + wk.active.toNat = pool.nactive + wk'.active.toNat)
    (hstep : ∀ q, Linked own heap P pool q → WorkQueue.Steps (view heap pool q)
      ⟨entries heap q, Function.update (pool.running heap) w (wk'.running heap), pool'.nlinked,
        pool'.log⟩) : Follows P own heap pool own heap pool' := by
  intro q hl
  refine ⟨q, ?_, ?_⟩
  · exact {
      chain := hworkq ▸ hl.chain
      queue := hl.queue
      worker := fun i wk₁ hwk₁ a ha => by
        rw [hset] at hwk₁
        rcases slot_of_set hwk₁ with ⟨rfl, rfl⟩ | ⟨-, hold⟩
        · exact hl.worker i wk hwk a (hitem a ha)
        · exact hl.worker i wk₁ hold a ha
      qsize := hqsize.trans hl.qsize
      tail := htail.trans hl.tail
      nactive := by
        have hcount := countP_set_add (f := Worker.active) (b := wk') hwk
        have hold := hl.nactive
        rw [hset]
        omega }
  · rw [view, view, Pool.running_set hwk hset]
    exact hstep q hl

/-- An item is linked. -/
theorem link {t : CallerId} (hown : own a = some (.caller t))
    (hnext : nextOf items.heap a = some none)
    (h : linkItem items pool a = some (items', pool')) :
    Follows P own items.heap pool (Function.update own a (some (.queue P))) items'.heap pool' := by
  intro q hl
  obtain ⟨x, hx, hself, hother, hjob, hchain, -, -, hpool⟩ := linkItem_spec hl hown hnext h
  have hworker : ∀ (w : Nat) (wk : Worker), pool.workers[w]? = some wk → ∀ b ∈ wk.item,
      b ≠ a ∧ items'.heap b = items.heap b := by
    intro w wk hwk b hb
    have hbown := hl.worker w wk hwk b hb
    have hba : b ≠ a := ne_of_own hbown hown (by simp)
    exact ⟨hba, hother b hba (by simp [hbown])⟩
  have hqa : ∀ b ∈ q, b ≠ a := fun b hb => ne_of_own (hl.queue b hb) hown (by simp)
  refine ⟨q ++ [a], ?_, ?_⟩
  · rw [hpool]
    exact {
      chain := hchain
      queue := fun b hb => by
        rcases List.mem_append.1 hb with hb | hb
        · rw [Function.update_of_ne (hqa b hb)]
          exact hl.queue b hb
        · rw [List.mem_singleton.1 hb]
          exact Function.update_self _ _ _
      worker := fun w wk hwk b hb => by
        rw [Function.update_of_ne (hworker w wk hwk b hb).1]
        exact hl.worker w wk hwk b hb
      qsize := by simp [hl.qsize]
      tail := by simp
      nactive := hl.nactive }
  · have hview : view items'.heap pool' (q ++ [a]) =
        { view items.heap pool q with
          queue := (view items.heap pool q).queue ++ [(pool.nlinked, x.calls)]
          nlinked := pool.nlinked + 1
          log := .linked pool.nlinked x.calls :: pool.log } := by
      have hrunning : pool'.running items'.heap = pool.running items.heap := by
        rw [hpool]
        exact Pool.running_congr fun w wk hwk b hb => (hworker w wk hwk b hb).2
      have hentries : entries items'.heap (q ++ [a]) =
          entries items.heap q ++ [(pool.nlinked, x.calls)] := by
        rw [entries, List.filterMap_append]
        exact congr (congrArg _ (entries_congr fun b hb => entry_eq (hjob b (hqa b hb))))
          (by simp [hself, WorkItem.entry, Job.calls])
      rw [view, view, hrunning, hentries, hpool]
    rw [hview]
    exact .single (.link x.calls)

/-- A worker without a job takes the first item. -/
theorem take (own : ItemPtr → Option Owner) (hwk : pool.workers[w]? = some wk)
    (hidle : wk.core = .start) (h : takeItem items pool w = some pool') :
    ∃ a, (∀ q, Linked own items.heap P pool q → a ∈ q) ∧
      Follows P own items.heap pool (Function.update own a (some (.worker P w)))
        items.heap pool' := by
  simp only [takeItem, Option.bind_eq_bind, Option.bind_eq_some_iff] at h
  obtain ⟨a, ha, x, hx, h⟩ := h
  have hpool := Option.some.inj h
  have hpop : ∀ q, Linked own items.heap P pool q →
      ∃ q', q = a :: q' ∧ Chain (nextOf items.heap) x.next q' := by
    intro q hl
    obtain ⟨next, q', rfl, hnext, hchain⟩ := (ha ▸ hl.chain).pop
    obtain rfl : x.next = next := by simpa [nextOf, hx] using hnext
    exact ⟨q', rfl, hchain⟩
  refine ⟨a, fun q hl => ?_, fun q hl => ?_⟩
  · obtain ⟨q', rfl, -⟩ := hpop q hl
    exact List.mem_cons_self
  obtain ⟨q', rfl, hchain⟩ := hpop q hl
  have haown := hl.queue a List.mem_cons_self
  have hidlerun : pool.running items.heap w = none := by
    rw [Pool.running, hwk]
    exact (wk.running_core).symm.trans (by rw [hidle]; rfl)
  have hidleactive : wk.active = false := by rw [← wk.active_core, hidle]; rfl
  refine ⟨q', ?_, ?_⟩
  · rw [← hpool]
    exact {
      chain := hchain
      queue := fun b hb => by
        have hba : b ≠ a := by
          rintro rfl
          exact (List.nodup_cons.1 hl.chain.nodup).1 hb
        rw [Function.update_of_ne hba]
        exact hl.queue b (List.mem_cons_of_mem _ hb)
      worker := fun i wk₁ hwk₁ b hb => by
        rcases slot_of_set hwk₁ with ⟨rfl, rfl⟩ | ⟨-, hold⟩
        · obtain rfl : a = b := Option.some.inj hb
          exact Function.update_self _ _ _
        · have hbown := hl.worker i wk₁ hold b hb
          have hba : b ≠ a := ne_of_own hbown haown (by simp)
          rw [Function.update_of_ne hba]
          exact hbown
      qsize := by simp [hl.qsize]
      tail := by
        have htail := hl.tail
        have hhead := hchain.head_eq
        cases q' with
        | nil => simp [show x.next = none from hhead]
        | cons b q' => simp [show x.next = some b from hhead, htail, List.getLast?_cons_cons]
      nactive := by
        have hcount := countP_set_add (f := Worker.active) (b := .working a) hwk
        have hold := hl.nactive
        rw [hidleactive] at hcount
        simp only [Worker.active, Bool.toNat_true, Bool.toNat_false] at hcount
        show pool.nactive + 1 = ((pool.workers.set w (.working a)).countP Worker.active : Int)
        omega }
  · have hentries : entries items.heap (a :: q') = (x.id, x.calls) :: entries items.heap q' := by
      simp [entries, hx, WorkItem.entry]
    have hset : pool'.workers = pool.workers.set w (.working a) := by rw [← hpool]
    have hrun : (Worker.working a).running items.heap = some ⟨x.id, [], x.calls⟩ := by
      simp [Worker.running, hx]
    rw [view, view, Pool.running_set hwk hset, hrun, ← hpool]
    exact .single (.take (q := view items.heap pool (a :: q')) hentries hidlerun)

/-- The queue is cleared. -/
theorem clear (h : clearQueue items pool = some (items', pool')) :
    Follows P own items.heap pool (fun a => if own a = some (.queue P) then none else own a)
      items'.heap pool' := by
  intro q hl
  rw [clearQueue_eq hl] at h
  obtain ⟨rfl, hpool⟩ := Prod.mk.inj (Option.some.inj h)
  have hworker : ∀ (w : Nat) (wk : Worker), pool.workers[w]? = some wk → ∀ a ∈ wk.item,
      own a = some (.worker P w) ∧ a ∉ q := by
    intro w wk hwk a ha
    have hown := hl.worker w wk hwk a ha
    exact ⟨hown, fun hq => absurd (hown.symm.trans (hl.queue a hq)) (by simp)⟩
  refine ⟨[], ?_, ?_⟩
  · rw [← hpool]
    exact {
      chain := rfl
      queue := fun a ha => by cases ha
      worker := fun w wk hwk a ha => by
        have hown := (hworker w wk hwk a ha).1
        simp [hown]
      qsize := rfl
      tail := rfl
      nactive := hl.nactive }
  · have hrunning : pool'.running (fun a => if a ∈ q then none else items.heap a) =
        pool.running items.heap := by
      rw [← hpool]
      exact Pool.running_congr fun w wk hwk a ha => if_neg (hworker w wk hwk a ha).2
    rw [view, view, hrunning, ← hpool]
    exact WorkQueue.steps_clear _ _ _ _

/-- A callback returns in a worker. -/
theorem call (hwk : pool.workers[w]? = some wk) (hactive : wk.active = true)
    (hactive' : wk'.active = true) (hitem : wk'.item = wk.item)
    (hrun : wk.running heap = some ⟨id, made, c :: rest⟩)
    (hrun' : wk'.running heap = some ⟨id, made ++ [c], rest⟩) :
    Follows P own heap pool own heap ((pool.record (.called id w c)).setWorker w wk') := by
  refine worker hwk rfl (fun a ha => hitem ▸ ha) rfl rfl rfl ?_ fun q hl => ?_
  · rw [hactive, hactive']
    rfl
  · rw [hrun']
    refine .single (.call (q := view heap pool q) ?_)
    show pool.running heap w = _
    rw [Pool.running, hwk]
    exact hrun

/-- A worker is done with a job. -/
theorem finish {capacity : Nat} {job : Job} (hwk : pool.workers[w]? = some (.writing id job))
    (h : finishItem capacity pool w id = some pool') : Follows P own heap pool own heap pool' := by
  rw [finishItem] at h
  split at h
  · cases h
  · obtain rfl := Option.some.inj h
    refine worker hwk rfl (fun a ha => by cases ha) rfl rfl rfl ?_ fun q hl => ?_
    · simp [Worker.active]
    · have hrun : pool.running heap w = some ⟨id, job.calls, []⟩ := by
        rw [Pool.running, hwk]
        rfl
      exact .single (.finish (q := view heap pool q) hrun)

/-- A worker frees its item, which no pool owns from then on. -/
theorem free (hwk : pool.workers[w]? = some (.freeing a)) (hx : heap a = some x) {o : Option Owner}
    (hheap : ∀ b, b ≠ a → heap' b = heap b) :
    Follows P own heap pool (Function.update own a o) heap'
      (pool.setWorker w (.finishing x.id x.toJob)) := by
  intro q hl
  have haown := hl.worker w _ hwk a rfl
  have hw := (List.getElem?_eq_some_iff.1 hwk).1
  have hqa : ∀ b ∈ q, b ≠ a := fun b hb => ne_of_own (hl.queue b hb) haown (by simp)
  -- the other workers hold other items
  have hworker : ∀ (i : Nat) (wk : Worker), i ≠ w → pool.workers[i]? = some wk → ∀ b ∈ wk.item,
      b ≠ a ∧ own b = some (.worker P i) := by
    intro i wk hi hwk b hb
    have hbown := hl.worker i wk hwk b hb
    exact ⟨ne_of_own hbown haown (by simpa using hi), hbown⟩
  refine ⟨q, ?_, ?_⟩
  · exact {
      chain := hl.chain.congr fun b hb => by rw [nextOf, nextOf, hheap b (hqa b hb)]
      queue := fun b hb => by
        rw [Function.update_of_ne (hqa b hb)]
        exact hl.queue b hb
      worker := fun i wk hwk' b hb => by
        rcases slot_of_set hwk' with ⟨rfl, rfl⟩ | ⟨hi, hold⟩
        · cases hb
        · obtain ⟨hba, hbown⟩ := hworker i wk hi hold b hb
          rw [Function.update_of_ne hba]
          exact hbown
      qsize := hl.qsize
      tail := hl.tail
      nactive := by
        have hcount := countP_set_add (f := Worker.active) (b := .finishing x.id x.toJob) hwk
        have hold := hl.nactive
        simp only [Worker.active, Bool.toNat_true] at hcount
        show pool.nactive = ((pool.workers.set w _).countP Worker.active : Int)
        omega }
  · have hrunning : (pool.setWorker w (.finishing x.id x.toJob)).running heap' =
        pool.running heap := by
      funext i
      by_cases hi : i = w
      · subst hi
        rw [Pool.running, Pool.running, Pool.setWorker, List.getElem?_set_self hw, hwk]
        simp [Worker.running, hx]
      · rw [Pool.running, Pool.running, Pool.setWorker, List.getElem?_set_ne (Ne.symm hi)]
        cases hwk' : pool.workers[i]? with
        | none => rfl
        | some wk =>
          exact Worker.running_congr fun b hb => hheap b (hworker i wk hi hwk' b hb).1
    have hentries : entries heap' q = entries heap q :=
      entries_congr fun b hb => by rw [hheap b (hqa b hb)]
    rw [view, view, hrunning, hentries]
    exact .refl

end Follows

end Resman.TPool
