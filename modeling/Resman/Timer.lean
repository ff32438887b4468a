import Resman.Manager.System
import Resman.TPool.Timedwait

/-!
# The millisecond clock

`resman_get_time_msec` with the monotonic clock. The first call remembers its reading in a static
variable, and each later one answers with the difference, in which seconds and nanoseconds are
subtracted apart and the nanoseconds are divided towards zero. With readings that do not decrease,
the values do not either, and they are the elapsed milliseconds or one more.
-/

namespace Resman.Timer

open TPool

/-- `resman_get_time_msec` up to the conversion of its result, with the static `ts0` and the reading
`ts`: `ts0` after the call, and the result. -/
def getTimeMsec (ts0 ts : Timespec) : Option (Timespec × Int) :=
  if ts0.sec = 0 ∧ ts0.nsec = 0 then some (ts, 0)
  else do
    let sec ← toLong (ts.sec - ts0.sec)
    let msec ← toLong (sec * 1000)
    let nsec ← toLong (ts.nsec - ts0.nsec)
    return (ts0, ← toLong (msec + nsec.tdiv 1000000))

/-- The conversion of a `long` to `unsigned long`. -/
def toUnsignedLong (x : Int) : Nat := (x % 2 ^ 64).toNat

/-- One call after the other. -/
def getTimesMsec : Timespec → List Timespec → Option (List Int)
  | _, [] => some []
  | ts0, ts :: readings => do
    let (ts0, t) ← getTimeMsec ts0 ts
    return t :: (← getTimesMsec ts0 readings)

/-- The milliseconds from one reading to another, as they are computed. -/
def msecSince (ts0 ts : Timespec) : Int :=
  (ts.sec - ts0.sec) * 1000 + (ts.nsec - ts0.nsec).tdiv 1000000

/-- The milliseconds that have passed, rounded down. -/
def elapsedMsec (ts0 ts : Timespec) : Int := (ts.toNsec - ts0.toNsec) / 1000000

/-- The values that are computed for the reading are within a `long`. -/
def Representable (ts0 ts : Timespec) : Prop :=
  (ts.sec - ts0.sec) * 1000 < 2 ^ 63 ∧ msecSince ts0 ts < 2 ^ 63

instance (ts0 ts : Timespec) : Decidable (Representable ts0 ts) :=
  inferInstanceAs (Decidable (_ ∧ _))

/-! ## The division -/

section Division

variable {d : Int}

theorem tdiv_of_nonneg (h : 0 ≤ d) :
    d.tdiv 1000000 * 1000000 ≤ d ∧ d < d.tdiv 1000000 * 1000000 + 1000000 := by
  rw [Int.tdiv_eq_ediv_of_nonneg h]
  omega

/-- A negative difference is rounded up. -/
theorem tdiv_of_neg (h : d < 0) :
    d.tdiv 1000000 * 1000000 - 1000000 < d ∧ d ≤ d.tdiv 1000000 * 1000000 := by
  have hneg : d.tdiv 1000000 = -((-d).tdiv 1000000) := by
    rw [Int.neg_tdiv, Int.neg_neg]
  have hpos := tdiv_of_nonneg (d := -d) (by omega)
  rw [hneg]
  omega

end Division

/-! ## One call -/

section Call

variable {ts0 ts ts' : Timespec}

theorem getTimeMsec_zero (ts : Timespec) : getTimeMsec ⟨0, 0⟩ ts = some (ts, 0) := rfl

theorem toLong_eq {x : Int} (hlo : -2 ^ 63 ≤ x) (hhi : x < 2 ^ 63) : toLong x = some x := by
  unfold toLong
  rw [if_pos ⟨hlo, hhi⟩]

/-- The computed milliseconds are those that have passed, or one more. -/
theorem msecSince_bounds (ts0 ts : Timespec) :
    elapsedMsec ts0 ts ≤ msecSince ts0 ts ∧ msecSince ts0 ts ≤ elapsedMsec ts0 ts + 1 := by
  unfold elapsedMsec msecSince Timespec.toNsec
  rcases lt_or_ge (ts.nsec - ts0.nsec) 0 with hneg | hpos
  · have hdiv := tdiv_of_neg hneg
    omega
  · have hdiv := tdiv_of_nonneg hpos
    omega

/-- A later reading gives no smaller value, also over the end of a second. -/
theorem msecSince_mono (ts0 : Timespec) (h : ts.Valid) (h' : ts'.Valid)
    (hle : ts.toNsec ≤ ts'.toNsec) :
    msecSince ts0 ts ≤ msecSince ts0 ts' := by
  unfold msecSince
  unfold Timespec.toNsec at hle
  unfold Timespec.Valid at h h'
  rcases lt_or_ge (ts.nsec - ts0.nsec) 0 with hneg | hpos <;>
    rcases lt_or_ge (ts'.nsec - ts0.nsec) 0 with hneg' | hpos'
  · have hdiv := tdiv_of_neg hneg
    have hdiv' := tdiv_of_neg hneg'
    omega
  · have hdiv := tdiv_of_neg hneg
    have hdiv' := tdiv_of_nonneg hpos'
    omega
  · have hdiv := tdiv_of_nonneg hpos
    have hdiv' := tdiv_of_neg hneg'
    omega
  · have hdiv := tdiv_of_nonneg hpos
    have hdiv' := tdiv_of_nonneg hpos'
    omega

theorem msecSince_self (ts : Timespec) : msecSince ts ts = 0 := by
  unfold msecSince
  rw [Int.sub_self, Int.sub_self]
  rfl

theorem msecSince_nonneg (h0 : ts0.Valid) (h : ts.Valid) (hle : ts0.toNsec ≤ ts.toNsec) :
    0 ≤ msecSince ts0 ts := by
  have hmono := msecSince_mono ts0 h0 h hle
  rwa [msecSince_self] at hmono

/-- Once it is set, the first reading stays, and nothing overflows. -/
theorem getTimeMsec_later (hne : ts0 ≠ ⟨0, 0⟩) (h0 : ts0.Valid) (h : ts.Valid)
    (hle : ts0.toNsec ≤ ts.toNsec) (hrep : Representable ts0 ts) :
    getTimeMsec ts0 ts = some (ts0, msecSince ts0 ts) := by
  have hset : ¬(ts0.sec = 0 ∧ ts0.nsec = 0) := by
    rintro ⟨hsec, hnsec⟩
    apply hne
    cases ts0
    subst hsec hnsec
    rfl
  have hnonneg := msecSince_nonneg h0 h hle
  obtain ⟨hmsec, hsum⟩ := hrep
  unfold Timespec.toNsec at hle
  unfold Timespec.Valid at h0 h
  have hsec : 0 ≤ ts.sec - ts0.sec := by omega
  unfold msecSince at hnonneg hsum
  unfold getTimeMsec
  simp only [if_neg hset, Option.bind_eq_bind]
  rw [toLong_eq (by omega) (by omega), Option.bind_some, toLong_eq (by omega) hmsec,
    Option.bind_some, toLong_eq (by omega) (by omega), Option.bind_some, toLong_eq (by omega) hsum]
  rfl

end Call

/-! ## A sequence of calls -/

/-- What `clock_gettime` writes, call after call. The first reading is not zero, and the later ones
are not so far from it that the milliseconds leave a `long`. -/
structure Monotonic (first : Timespec) (readings : List Timespec) : Prop where
  first_ne : first ≠ ⟨0, 0⟩
  valid : ∀ ts ∈ first :: readings, ts.Valid
  mono : (first :: readings).Pairwise fun ts ts' => ts.toNsec ≤ ts'.toNsec
  representable : ∀ ts ∈ readings, Representable first ts

section Calls

variable {first : Timespec} {readings : List Timespec}

theorem getTimesMsec_later (hne : first ≠ ⟨0, 0⟩) (h0 : first.Valid)
    (hvalid : ∀ ts ∈ readings, ts.Valid) (hle : ∀ ts ∈ readings, first.toNsec ≤ ts.toNsec)
    (hrep : ∀ ts ∈ readings, Representable first ts) :
    getTimesMsec first readings = some (readings.map (msecSince first)) := by
  induction readings with
  | nil => rfl
  | cons ts readings ih =>
    have hone := getTimeMsec_later hne h0 (hvalid ts List.mem_cons_self) (hle ts List.mem_cons_self)
      (hrep ts List.mem_cons_self)
    have hrest := ih (fun t ht => hvalid t (List.mem_cons_of_mem ts ht))
      (fun t ht => hle t (List.mem_cons_of_mem ts ht))
      (fun t ht => hrep t (List.mem_cons_of_mem ts ht))
    unfold getTimesMsec
    simp only [hone, Option.bind_eq_bind, Option.bind_some, hrest]
    rfl

/-- The values of all calls, of which the first sets the clock. -/
theorem Monotonic.values_eq (h : Monotonic first readings) :
    getTimesMsec ⟨0, 0⟩ (first :: readings) = some ((first :: readings).map (msecSince first)) := by
  have hlater := getTimesMsec_later h.first_ne (h.valid first List.mem_cons_self)
    (fun ts hts => h.valid ts (List.mem_cons_of_mem first hts))
    (fun ts hts => List.rel_of_pairwise_cons h.mono hts) h.representable
  unfold getTimesMsec
  simp only [getTimeMsec_zero, Option.bind_eq_bind, Option.bind_some, hlater,
    List.map_cons, msecSince_self]
  rfl

theorem Monotonic.nonneg (h : Monotonic first readings) :
    ∀ ts ∈ first :: readings, 0 ≤ msecSince first ts := by
  intro ts hts
  apply msecSince_nonneg (h.valid first List.mem_cons_self) (h.valid ts hts)
  rcases List.mem_cons.1 hts with rfl | hts
  · exact Int.le_refl _
  · exact List.rel_of_pairwise_cons h.mono hts

/-- The conversion changes none of the values. -/
theorem Monotonic.toUnsignedLong_eq (h : Monotonic first readings) :
    ∀ ts ∈ first :: readings, (toUnsignedLong (msecSince first ts) : Int) = msecSince first ts := by
  intro ts hts
  have hlo := h.nonneg ts hts
  have hhi : msecSince first ts < 2 ^ 63 := by
    rcases List.mem_cons.1 hts with rfl | hts
    · rw [msecSince_self]
      decide
    · exact (h.representable ts hts).2
  unfold toUnsignedLong
  omega

/-- The clock never goes back. -/
theorem Monotonic.pairwise (h : Monotonic first readings) :
    (((first :: readings).map (msecSince first)).map toUnsignedLong).Pairwise (· ≤ ·) := by
  rw [List.map_map, List.pairwise_map]
  apply h.mono.imp_of_mem
  intro ts ts' hts hts' hle
  have hstep := msecSince_mono first (h.valid ts hts) (h.valid ts' hts') hle
  have hv := h.toUnsignedLong_eq ts hts
  have hv' := h.toUnsignedLong_eq ts' hts'
  rw [Function.comp_apply, Function.comp_apply]
  omega

/-- The clock starts at zero, never goes back, and is the elapsed time in
milliseconds or one more. -/
theorem clock_of_readings (h : Monotonic first readings) :
    ∃ values, getTimesMsec ⟨0, 0⟩ (first :: readings) = some values ∧
      (∀ t ∈ values, 0 ≤ t) ∧
      (values.map toUnsignedLong).head? = some 0 ∧
      (values.map toUnsignedLong).Pairwise (· ≤ ·) ∧
      List.Forall₂ (fun ts (t : Nat) => elapsedMsec first ts ≤ t ∧
        (t : Int) ≤ elapsedMsec first ts + 1) (first :: readings) (values.map toUnsignedLong) := by
  refine ⟨_, h.values_eq, ?_, ?_, h.pairwise, ?_⟩
  · intro t ht
    obtain ⟨ts, hts, rfl⟩ := List.mem_map.1 ht
    exact h.nonneg ts hts
  · rw [List.map_cons, List.map_cons, List.head?_cons, msecSince_self]
    rfl
  · rw [List.map_map, List.forall₂_map_right_iff, List.forall₂_same]
    intro ts hts
    rw [Function.comp_apply, h.toUnsignedLong_eq ts hts]
    exact msecSince_bounds first ts

/-- Across the end of a second, and with more nanoseconds taken from fewer. -/
theorem clock_of_readings_second :
    ∃ values, getTimesMsec ⟨0, 0⟩ [⟨5, 999999999⟩, ⟨6, 0⟩, ⟨7, 500000000⟩] = some values ∧
      (∀ t ∈ values, 0 ≤ t) ∧
      (values.map toUnsignedLong).head? = some 0 ∧
      (values.map toUnsignedLong).Pairwise (· ≤ ·) ∧
      List.Forall₂ (fun ts (t : Nat) => elapsedMsec ⟨5, 999999999⟩ ts ≤ t ∧
        (t : Int) ≤ elapsedMsec ⟨5, 999999999⟩ ts + 1)
        [⟨5, 999999999⟩, ⟨6, 0⟩, ⟨7, 500000000⟩] (values.map toUnsignedLong) :=
  clock_of_readings ⟨by decide, by decide, by decide, by decide⟩

/-- The value can be one more than what has passed: a nanosecond is a
millisecond over the end of a second. -/
example : getTimesMsec ⟨0, 0⟩ [⟨5, 999999999⟩, ⟨6, 0⟩] = some [0, 1] := by decide

/-- The time slice subtracts values that do not wrap. -/
theorem Monotonic.elapsed_eq (h : Monotonic first readings) :
    (((first :: readings).map (msecSince first)).map toUnsignedLong).Pairwise fun start now =>
      Manager.elapsed start now = now - start := by
  apply h.pairwise.imp_of_mem
  intro start now hstart hnow hle
  obtain ⟨t, ht, rfl⟩ := List.mem_map.1 hnow
  have hlt : toUnsignedLong t < 2 ^ 64 := by
    unfold toUnsignedLong
    omega
  unfold Manager.elapsed
  omega

end Calls

end Resman.Timer
