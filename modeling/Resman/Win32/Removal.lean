import Resman.Win32.Counts

/-!
# Removing an item from a watched directory

A directory with other references keeps its watch when one of its resources goes away, and the item
of the resource is unlinked. The loop that looks for the item moves `witem` along the list and
leaves `wprev` at the head, so everything between the head and the item goes with it. `unlinks_iff`
says for which items nothing does.
-/

namespace Resman.Win32

open Rb Lib

variable {s : State} {p : ResPtr} {d : DirPtr} {w : WatchDir} {env : StopEnv}

/-- `resman_stop_watch` takes the item of the resource out of the list and one off the count, and
changes nothing else. -/
def Unlinks (s : State) (p : ResPtr) (d : DirPtr) (w : WatchDir) (env : StopEnv) : Prop :=
  stopWatch s p env =
    some (s.setDir d (some { w with nref := (w.items.length : Int) - 1, items := w.items.erase p }))

/-- With another reference to its directory, the call for a resource only removes its item. -/
theorem stopWatch_of_shared (hd : s.dirOf p = some d) (hw : s.wdirs d = some w) (hn : 1 < w.nref) :
    stopWatch s p env =
      (removeItem p w.items).map fun items => s.setDir d
      (some { w with nref := w.nref - 1, items }) := by
  simp only [State.dirOf, Option.bind_eq_bind, Option.bind_eq_some_iff] at hd
  obtain ⟨r, hr, q, hq, path, hpath, hfind⟩ := hd
  have hmore : ¬ w.nref - 1 ≤ 0 := by omega
  simp only [stopWatch, hr, hq, hpath, hfind, hw, Option.bind_eq_bind,
    Option.bind_some, if_neg hmore]
  cases removeItem p w.items with
  | none => rfl
  | some items => rfl

/-- An item that is in the list is not there after it has been erased. -/
theorem ne_erased (hp : p ∈ w.items) {n : Int} :
    w ≠ { w with nref := n, items := w.items.erase p } := by
  intro h
  have hlen := List.length_erase_of_mem hp
  have hpos := List.length_pos_of_mem hp
  have hitems : w.items = w.items.erase p := congrArg WatchDir.items h
  rw [← hitems] at hlen
  omega

/-- The directory of the items is the one that the call changes. -/
theorem Unlinks.dirOf (hw : s.wdirs d = some w) (hp : p ∈ w.items) (h : Unlinks s p d w env) :
    s.dirOf p = some d := by
  unfold Unlinks at h
  generalize hs : s.setDir d _ = s' at h
  have hset : s'.wdirs d = some
      { w with nref := (w.items.length : Int) - 1, items := w.items.erase p } := by
    rw [← hs]
    exact Function.update_self ..
  cases stopWatch_stopped h with
  | unwatched hr hd =>
    rw [hw] at hset
    exact absurd (Option.some.inj hset) (ne_erased hp)
  | @kept r d' w' items hr hd hw' hn hi =>
    by_cases hdd : d = d'
    · rw [hdd, hd]
    · have hsame := (Function.update_of_ne hdd ..).symm.trans hset
      rw [hw] at hsame
      exact absurd (Option.some.inj hsame) (ne_erased hp)
  | @released r d' w' q path da watchdirs wdirbyev waitHandles calls calls' hr hd =>
    by_cases hdd : d = d'
    · rw [hdd, hd]
    · have hsame := (Function.update_of_ne hdd ..).symm.trans hset
      rw [hw] at hsame
      exact absurd (Option.some.inj hsame) (ne_erased hp)

/-- **Item removal** is right exactly for the first two items of the directory
that the resource is found in. -/
theorem unlinks_iff (hw : s.wdirs d = some w) (honce : w.items.Nodup) (hlen : 2 ≤ w.items.length)
    (hn : w.nref = w.items.length) (hp : p ∈ w.items) :
    Unlinks s p d w env ↔ s.dirOf p = some d ∧ p ∈ w.items.take 2 := by
  have hshared : 1 < w.nref := by omega
  constructor
  · intro h
    have hd := h.dirOf hw hp
    refine ⟨hd, ?_⟩
    by_contra hfar
    rw [Unlinks, stopWatch_of_shared hd hw hshared, Option.map_eq_some_iff] at h
    obtain ⟨items, hi, hs⟩ := h
    obtain ⟨x, hx, hne, hlost⟩ := removeItem_of_far honce hp hfar hi
    have hdir := congrFun (congrArg State.wdirs hs) d
    simp only [State.setDir, Function.update_self, Option.some.injEq, WatchDir.mk.injEq] at hdir
    rw [hdir.2.2.2.2.2] at hlost
    exact hlost ((List.mem_erase_of_ne hne).2 hx)
  · rintro ⟨hd, hnear⟩
    rw [Unlinks, stopWatch_of_shared hd hw hshared, removeItem_of_near hnear, Option.map_some, hn]

/-- Three files of one directory are loaded. -/
def loadsFolder : List Action :=
  [.create 1 "a/f".toList, .startWatch 1 (.nth 1), .create 2 "a/g".toList, .startWatch 2 (.nth 2),
    .create 3 "a/h".toList, .startWatch 3 (.nth 3)]

/-- The state after the three loads, and the directory. -/
theorem exec_loadsFolder : ∃ s w, exec step (.initial 4) loadsFolder = some s ∧ s.wdirs 1 = some w ∧
    w.items = [3, 2, 1] ∧ w.nref = 3 ∧ ∀ p ∈ w.items, s.dirOf p = some 1 := by
  have hrun : ((exec step (.initial 4) loadsFolder).any fun s =>
      (s.wdirs 1).any fun w => w.items = [3, 2, 1] ∧ w.nref = 3 ∧ ∀ p ∈ [3, 2, 1],
        s.dirOf p = some 1) =
      true := by
    decide +kernel
  obtain ⟨s, hs, hrun⟩ := (Option.any_eq_true _ _).1 hrun
  obtain ⟨w, hw, hrun⟩ := (Option.any_eq_true _ _).1 hrun
  obtain ⟨hitems, hn, hdirs⟩ := of_decide_eq_true hrun
  exact ⟨s, w, hs, hw, hitems, hn, hitems ▸ hdirs⟩

theorem unlinks_iff_second :
    ∃ s w, exec step (.initial 4) loadsFolder = some s ∧ s.wdirs 1 = some w ∧
    (Unlinks s 2 1 w ⟨true, false⟩ ↔ s.dirOf 2 = some 1 ∧ 2 ∈ w.items.take 2) := by
  obtain ⟨s, w, hs, hw, hitems, hn, -⟩ := exec_loadsFolder
  refine ⟨s, w, hs, hw, unlinks_iff hw ?_ ?_ ?_ ?_⟩
  · rw [hitems]
    decide
  · rw [hitems]
    decide
  · rw [hn, hitems]
    rfl
  · rw [hitems]
    decide

/-- The last of three items takes the second with it. -/
theorem not_unlinks_third :
    ¬ ∀ s p d w env, s.wdirs d = some w → w.items.Nodup → 2 ≤ w.items.length →
    w.nref = w.items.length → p ∈ w.items → s.dirOf p = some d → Unlinks s p d w env := by
  intro hall
  obtain ⟨s, w, -, hw, hitems, hn, hdirs⟩ := exec_loadsFolder
  have h := hall s 1 1 w ⟨true, false⟩ hw (by rw [hitems]; decide) (by rw [hitems]; decide)
    (by rw [hn, hitems]; rfl) (by rw [hitems]; decide) (hdirs 1 (by rw [hitems]; decide))
  rw [Unlinks, stopWatch_of_shared (hdirs 1 (by rw [hitems]; decide)) hw (by omega), hitems,
    Option.map_eq_some_iff] at h
  obtain ⟨items, hi, hs⟩ := h
  obtain rfl : [3] = items := Option.some.inj hi
  have hdir := congrFun (congrArg State.wdirs hs) 1
  simp only [State.setDir, Function.update_self, Option.some.injEq, WatchDir.mk.injEq] at hdir
  exact absurd hdir.2.2.2.2.2 (by decide)

end Resman.Win32
