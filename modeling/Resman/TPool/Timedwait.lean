import Mathlib.Algebra.Ring.Int.Defs
import Resman.TPool.System

/-!
# The deadline of `resman_tpool_timedwait`

The deadline is the current time and the timeout, added in seconds and in nanoseconds, and a second
is never carried over. `pthread_cond_timedwait` answers `EINVAL` to more than a second of
nanoseconds, at once and with the mutex still locked, and the loop around it goes on at anything but
`ETIMEDOUT`. `deadlineOk_iff` says for which times and timeouts that does not happen.
-/

namespace Resman.TPool

/-! ## Times -/

/-- What `gettimeofday` writes: less than a second of microseconds, in two `long` values. -/
structure Timeval where
  sec : Int
  usec : Int
  le_sec : -2 ^ 63 ≤ sec
  usec_nonneg : 0 ≤ usec
  usec_lt : usec < 1000000

/-- `struct timespec` -/
structure Timespec where
  sec : Int
  nsec : Int
  deriving DecidableEq, Repr

/-- What `pthread_cond_timedwait` asks of a deadline. -/
def Timespec.Valid (ts : Timespec) : Prop := 0 ≤ ts.nsec ∧ ts.nsec < 1000000000

instance (ts : Timespec) : Decidable ts.Valid := inferInstanceAs (Decidable (_ ∧ _))

def Timeval.toNsec (tv : Timeval) : Int := tv.sec * 1000000000 + tv.usec * 1000

def Timespec.toNsec (ts : Timespec) : Int := ts.sec * 1000000000 + ts.nsec

/-- A sum of two `long` values; its overflow is undefined. -/
def toLong (x : Int) : Option Int := if -2 ^ 63 ≤ x ∧ x < 2 ^ 63 then some x else none

/-- `tout_ts`, for a timeout in milliseconds. -/
def deadline (timeout : Int) (tv0 : Timeval) : Option Timespec := do
  let sec := timeout.tdiv 1000
  let nsec ← toLong (tv0.usec * 1000 + timeout.tmod 1000 * 1000000)
  let sec ← toLong (tv0.sec + sec)
  return ⟨sec, nsec⟩

/-! ## The loop -/

/-- One round of the loop ends it; or it releases the mutex and waits; or it gets
`EINVAL` with the mutex locked. -/
inductive Round where
  | left
  | slept
  | spun
  deriving DecidableEq, Repr

def timedRound (ts : Timespec) (pool : Pool) : Round :=
  if Wait.timed.blocks pool then if ts.Valid then .slept else .spun else .left

/-- So many rounds of the loop at most. Each time that the mutex has been released, the pool is
another one when the wait returns, and the time may be up. -/
def timedwaitRounds (ts : Timespec) : Nat → Pool → List (Pool × Bool) → List Round
  | 0, _, _ => []
  | n + 1, pool, answers =>
    match timedRound ts pool, answers with
    | .left, _ => [.left]
    | .spun, answers => .spun :: timedwaitRounds ts n pool answers
    | .slept, [] => [.slept]
    | .slept, (_, true) :: _ => [.slept, .left]
    | .slept, (pool', false) :: answers => .slept :: timedwaitRounds ts n pool' answers

/-- The loop never goes round with the mutex locked. -/
def NeverSpins (ts : Timespec) : Prop := ∀ n pool answers, .spun ∉ timedwaitRounds ts n pool answers

variable {ts : Timespec} {pool : Pool}

theorem timedRound_ne_spun (h : ts.Valid) : timedRound ts pool ≠ .spun := by
  simp only [timedRound, if_pos h]
  split
  · exact nofun
  · exact nofun

theorem neverSpins_of_valid (h : ts.Valid) : NeverSpins ts := by
  intro n
  induction n with
  | zero => exact fun _ _ => List.not_mem_nil
  | succ n ih =>
    intro pool answers
    unfold timedwaitRounds
    split
    · simp
    · next hspun => exact absurd hspun (timedRound_ne_spun h)
    · simp
    · simp
    · next pool' answers _ => simpa using ih pool' answers

/-- With an invalid deadline and a job that is left over, every round is one with the mutex
locked. -/
theorem timedwaitRounds_spin (h : ¬ ts.Valid) (hb : Wait.timed.blocks pool = true) (n : Nat)
    (answers : List (Pool × Bool)) :
    timedwaitRounds ts n pool answers = List.replicate n .spun := by
  have hround : timedRound ts pool = .spun := by rw [timedRound, if_pos hb, if_neg h]
  induction n with
  | zero => rfl
  | succ n ih =>
    unfold timedwaitRounds
    simp only [hround, ih, List.replicate_succ]

theorem neverSpins_iff : NeverSpins ts ↔ ts.Valid := by
  refine ⟨fun h => ?_, neverSpins_of_valid⟩
  by_contra hinvalid
  refine h 1 { Pool.create 0 with nactive := 1 } [] ?_
  rw [timedwaitRounds_spin hinvalid rfl]
  exact List.mem_cons_self

/-! ## The deadline -/

/-- The deadline is valid, it is the current time and the timeout, and the loop does not spin. -/
def DeadlineOk (timeout : Int) (tv0 : Timeval) : Prop :=
  ∃ ts, deadline timeout tv0 = some ts ∧ ts.Valid ∧ ts.toNsec = tv0.toNsec + timeout * 1000000 ∧
    NeverSpins ts

/-- **The deadline** is right exactly when the microseconds of the current time and of the timeout
make less than a second, and the seconds are a `long`. -/
theorem deadlineOk_iff {timeout : Int} (ht : 0 ≤ timeout) (tv0 : Timeval) :
    DeadlineOk timeout tv0 ↔
      tv0.usec + timeout % 1000 * 1000 < 1000000 ∧ tv0.sec + timeout / 1000 < 2 ^ 63 := by
  have hsec := tv0.le_sec
  have husec := tv0.usec_nonneg
  have hlt := tv0.usec_lt
  have hdiv : timeout.tdiv 1000 = timeout / 1000 := Int.tdiv_eq_ediv_of_nonneg ht
  have hmod : timeout.tmod 1000 = timeout % 1000 := Int.tmod_eq_emod_of_nonneg ht
  have hnsec : toLong (tv0.usec * 1000 + timeout.tmod 1000 * 1000000) =
      some (tv0.usec * 1000 + timeout % 1000 * 1000000) := by
    rw [hmod]
    exact if_pos (by omega)
  constructor
  · rintro ⟨ts, hts, ⟨-, hvalid⟩, -, -⟩
    simp only [deadline, hnsec, hdiv, Option.bind_eq_bind, Option.bind_some,
      Option.bind_eq_some_iff] at hts
    obtain ⟨sec, hlong, hts⟩ := hts
    obtain rfl := Option.some.inj hts
    have hvalid : tv0.usec * 1000 + timeout % 1000 * 1000000 < 1000000000 := hvalid
    unfold toLong at hlong
    split at hlong
    · next hfits => exact ⟨by omega, hfits.2⟩
    · cases hlong
  · rintro ⟨hcarry, hlong⟩
    have hfits : toLong (tv0.sec + timeout.tdiv 1000) = some (tv0.sec + timeout / 1000) := by
      rw [hdiv]
      exact if_pos (by omega)
    have hvalid : Timespec.Valid
        ⟨tv0.sec + timeout / 1000, tv0.usec * 1000 + timeout % 1000 * 1000000⟩ := by
      constructor
      · show 0 ≤ tv0.usec * 1000 + timeout % 1000 * 1000000
        omega
      · show tv0.usec * 1000 + timeout % 1000 * 1000000 < 1000000000
        omega
    refine ⟨_, by simp [deadline, hnsec, hfits], hvalid, ?_, neverSpins_iff.2 hvalid⟩
    simp only [Timespec.toNsec, Timeval.toNsec]
    omega

/-- Four tenths of a second past the second, and half a second more. -/
theorem deadlineOk_iff_half :
    DeadlineOk 1500 ⟨7, 400000, by decide, by decide, by decide⟩ ↔
      (400000 : Int) + 1500 % 1000 * 1000 < 1000000 ∧ (7 : Int) + 1500 / 1000 < 2 ^ 63 :=
  deadlineOk_iff (by decide) _

/-- Six tenths of a second past the second, and half a second more: there are
1.1 seconds of nanoseconds. -/
theorem not_deadlineOk_half :
    ¬ ∀ timeout tv0, 0 ≤ timeout → DeadlineOk timeout tv0 := by
  intro hall
  obtain ⟨ts, hts, hvalid, -⟩ := hall 500 ⟨7, 600000, by decide, by decide, by decide⟩ (by decide)
  obtain rfl : (⟨7, 1100000000⟩ : Timespec) = ts := Option.some.inj hts
  exact absurd hvalid (by decide)

end Resman.TPool
