import Bebop.Lib.Trapping

/-!
# Bebop — deadlines in Swift

`BebopTimestamp+Deadline.swift` and `withDeadline`. The code subtracts in 64 bits: a
deadline so far in the past that the difference does not fit stops the program. A duration
is taken apart into 64-bit seconds first, so one below `-2^63` seconds stops it, too, even
where the sum would fit.
-/

namespace Bebop.Swift.Deadline

open Trapping

abbrev Int32 := SignedInt 32

abbrev Int64 := SignedInt 64

/-- The offset of the time zone is not part of the arithmetic. -/
structure BebopTimestamp where
  seconds : Int64
  nanoseconds : Int32

/-- `Duration` of the standard library, a number of attoseconds. -/
structure Duration where
  attoseconds : SignedInt 128
  deriving DecidableEq

/-- `1_000_000_000` -/
def billion : Int64 := ⟨1000000000, by decide⟩

def one : Int64 := ⟨1, by decide⟩

/-- `Duration(secondsComponent:attosecondsComponent:)` -/
def Duration.ofComponents (seconds attoseconds : Int64) : Option Duration := do
  let total ← exactly 128 (seconds.val * 1000000000000000000 + attoseconds.val)
  return ⟨total⟩

/-- `Duration.components` -/
def Duration.components (duration : Duration) : Option (Int64 × Int64) := do
  let seconds ← exactly 64 (duration.attoseconds.val.tdiv 1000000000000000000)
  let attoseconds ← exactly 64 (duration.attoseconds.val.tmod 1000000000000000000)
  return (seconds, attoseconds)

/-- `BebopTimestamp.isPast` -/
def BebopTimestamp.isPast (deadline current : BebopTimestamp) : Bool :=
  deadline.seconds.val < current.seconds.val ||
    (deadline.seconds.val = current.seconds.val && deadline.nanoseconds.val ≤ current.nanoseconds.val)

/-- A negative difference of nanoseconds borrows a second. -/
def borrowSecond (diffSec diffNano : Int64) : Option (Int64 × Int64) :=
  if diffNano.val < 0 then do
    let diffSec ← diffSec.sub one
    let diffNano ← diffNano.add billion
    return (diffSec, diffNano)
  else some (diffSec, diffNano)

/-- `BebopTimestamp.timeRemaining`, which may trap. -/
def BebopTimestamp.timeRemaining (deadline current : BebopTimestamp) : Option (Option Duration) := do
  let diffSec ← deadline.seconds.sub current.seconds
  let diffNano ← (← deadline.nanoseconds.convert 64).sub (← current.nanoseconds.convert 64)
  let (diffSec, diffNano) ← borrowSecond diffSec diffNano
  if 0 ≤ diffSec.val then
    let remaining ← Duration.ofComponents diffSec (← diffNano.mul billion)
    return some remaining
  else return none

/-- The nanoseconds of a sum are brought into their range. -/
def carrySeconds (totalSeconds totalNanos : Int64) : Option (Int64 × Int64) :=
  if billion.val ≤ totalNanos.val then do
    let totalSeconds ← totalSeconds.add (← totalNanos.div billion)
    let totalNanos ← totalNanos.mod billion
    return (totalSeconds, totalNanos)
  else if totalNanos.val < 0 then do
    let borrow ← (← (← totalNanos.neg).add ⟨999999999, by decide⟩).div billion
    let totalSeconds ← totalSeconds.sub borrow
    let totalNanos ← totalNanos.add (← borrow.mul billion)
    return (totalSeconds, totalNanos)
  else some (totalSeconds, totalNanos)

/-- `BebopTimestamp(fromNow:)`, which may trap. -/
def BebopTimestamp.fromNow (duration : Duration) (current : BebopTimestamp) : Option BebopTimestamp := do
  let (extraSeconds, attos) ← duration.components
  let addNanos ← attos.div billion
  let totalNanos ← (← current.nanoseconds.convert 64).add addNanos
  let totalSeconds ← current.seconds.add extraSeconds
  let (totalSeconds, totalNanos) ← carrySeconds totalSeconds totalNanos
  return ⟨totalSeconds, ← totalNanos.convert 32⟩

/-- What `withDeadline` begins with. -/
inductive DeadlineStart where
  /-- `deadlineExceeded` is thrown. -/
  | exceeded
  /-- The operation runs, and is cancelled after this time. -/
  | race (remaining : Duration)
  deriving DecidableEq

/-- `withDeadline` -/
def withDeadline (deadline current : BebopTimestamp) : Option DeadlineStart := do
  match ← deadline.timeRemaining current with
  | none => return .exceeded
  | some remaining => return .race remaining

/-! ## What they are for -/

structure Clock where
  current : BebopTimestamp
  seconds_nonneg : 0 ≤ current.seconds.val
  seconds_le : current.seconds.val ≤ 2 ^ 40
  nanoseconds_nonneg : 0 ≤ current.nanoseconds.val
  nanoseconds_le : current.nanoseconds.val ≤ 999999999

def BebopTimestamp.total (t : BebopTimestamp) : Int := t.seconds.val * 1000000000 + t.nanoseconds.val

def BebopTimestamp.Normal (t : BebopTimestamp) : Prop := 0 ≤ t.nanoseconds.val ∧ t.nanoseconds.val ≤ 999999999

/-- Nothing traps, and the answers are those of the exact difference. -/
def DeadlineExact (deadline : BebopTimestamp) (clock : Clock) : Prop :=
  ∃ remaining start, deadline.timeRemaining clock.current = some remaining ∧
    withDeadline deadline clock.current = some start ∧
    (deadline.Normal →
      (remaining = none ↔ deadline.total < clock.current.total) ∧
      (∀ duration, remaining = some duration →
        duration.attoseconds.val = (deadline.total - clock.current.total) * 1000000000) ∧
      (deadline.isPast clock.current = true ↔ deadline.total - clock.current.total ≤ 0))

def Duration.nanoseconds (duration : Duration) : Int := duration.attoseconds.val.tdiv 1000000000

def Representable (duration : Duration) (clock : Clock) : Prop :=
  Fits 64 ((clock.current.total + duration.nanoseconds) / 1000000000)

def FromNowExact (duration : Duration) (clock : Clock) : Prop :=
  Representable duration clock → ∃ t, BebopTimestamp.fromNow duration clock.current = some t ∧ t.Normal ∧
    t.total = clock.current.total + duration.nanoseconds

/-- The second that the nanoseconds of the deadline borrow. -/
def borrowed (deadline current : BebopTimestamp) : Int :=
  if deadline.nanoseconds.val < current.nanoseconds.val then 1 else 0

/-- The difference of the seconds, less the second borrowed, is a 64-bit integer. -/
def DifferenceFits (deadline current : BebopTimestamp) : Prop :=
  -2 ^ 63 ≤ deadline.seconds.val - current.seconds.val - borrowed deadline current

instance (deadline current : BebopTimestamp) : Decidable (DifferenceFits deadline current) :=
  inferInstanceAs (Decidable (_ ≤ _))

/-- The whole seconds of a duration are a 64-bit integer. -/
def SecondsFit (duration : Duration) : Prop := Fits 64 (duration.attoseconds.val.tdiv 1000000000000000000)

/-! ## Time that remains -/

section

variable {deadline : BebopTimestamp} {clock : Clock}

theorem borrowed_cases (deadline current : BebopTimestamp) :
    deadline.nanoseconds.val < current.nanoseconds.val ∧ borrowed deadline current = 1 ∨
      ¬deadline.nanoseconds.val < current.nanoseconds.val ∧ borrowed deadline current = 0 := by
  unfold borrowed
  by_cases h : deadline.nanoseconds.val < current.nanoseconds.val
  · exact .inl ⟨h, if_pos h⟩
  · exact .inr ⟨h, if_neg h⟩

theorem borrowSecond_of (diffSec diffNano : Int64) (borrow : Int)
    (hborrow : diffNano.val < 0 ∧ borrow = 1 ∨ ¬diffNano.val < 0 ∧ borrow = 0)
    (hsec : Fits 64 (diffSec.val - borrow)) (hnano : Fits 64 (diffNano.val + borrow * 1000000000)) :
    ∃ diffSec' diffNano', borrowSecond diffSec diffNano = some (diffSec', diffNano') ∧
      diffSec'.val = diffSec.val - borrow ∧ diffNano'.val = diffNano.val + borrow * 1000000000 := by
  unfold borrowSecond
  rcases hborrow with ⟨hneg, rfl⟩ | ⟨hnonneg, rfl⟩
  · obtain ⟨diffSec', hsub, hval⟩ := SignedInt.sub_of (b := one) hsec
    obtain ⟨diffNano', hadd, hval'⟩ := SignedInt.add_of (b := billion) hnano
    rw [if_pos hneg, hsub, hadd]
    exact ⟨diffSec', diffNano', rfl, hval, hval'⟩
  · rw [if_neg hnonneg]
    exact ⟨diffSec, diffNano, rfl, by omega, by omega⟩

theorem nanoseconds_bounds (deadline : BebopTimestamp) (clock : Clock) :
    -2147483648 - 999999999 ≤ deadline.nanoseconds.val - clock.current.nanoseconds.val ∧
      deadline.nanoseconds.val - clock.current.nanoseconds.val ≤ 2147483647 := by
  have hfits := deadline.nanoseconds.fits
  have hlow := clock.nanoseconds_nonneg
  have hhigh := clock.nanoseconds_le
  unfold Fits at hfits
  omega

theorem timeRemaining_of_fits (h : DifferenceFits deadline clock.current) :
    ∃ remaining, deadline.timeRemaining clock.current = some remaining ∧
      (remaining = none ↔ deadline.seconds.val - clock.current.seconds.val - borrowed deadline clock.current < 0) ∧
      ∀ duration, remaining = some duration →
        duration.attoseconds.val = (deadline.total - clock.current.total) * 1000000000 := by
  obtain ⟨hlow, hhigh⟩ := nanoseconds_bounds deadline clock
  have hseconds := deadline.seconds.fits
  have hnanoseconds := deadline.nanoseconds.fits
  have hcurrent := clock.current.nanoseconds.fits
  have hclock := clock.seconds_nonneg
  have hcases := borrowed_cases deadline clock.current
  unfold DifferenceFits at h
  unfold Fits at hseconds hnanoseconds hcurrent
  generalize borrowed deadline clock.current = borrow at *
  obtain ⟨diffSec, hsub, hdiffSec⟩ := SignedInt.sub_of (a := deadline.seconds) (b := clock.current.seconds)
    (by unfold Fits; omega)
  obtain ⟨nano, hconvert, hnano⟩ := SignedInt.convert_of (v := 64) (a := deadline.nanoseconds) (by unfold Fits; omega)
  obtain ⟨nano', hconvert', hnano'⟩ := SignedInt.convert_of (v := 64) (a := clock.current.nanoseconds)
    (by unfold Fits; omega)
  obtain ⟨diffNano, hsub', hdiffNano⟩ := SignedInt.sub_of (a := nano) (b := nano') (by unfold Fits; omega)
  obtain ⟨seconds, nanoseconds, hborrowed, hsec, hnanos⟩ := borrowSecond_of diffSec diffNano borrow
    (by omega) (by unfold Fits; omega) (by unfold Fits; omega)
  unfold BebopTimestamp.timeRemaining
  simp only [Option.bind_eq_bind, hsub, hconvert, hconvert', hsub', hborrowed, Option.bind_some]
  by_cases hpast : seconds.val < 0
  · rw [if_neg (by omega)]
    refine ⟨none, rfl, iff_of_true rfl (by omega), ?_⟩
    intro duration hsome
    cases hsome
  · obtain ⟨attos, hmul, hattos⟩ := SignedInt.mul_of (a := nanoseconds) (b := billion)
      (by unfold Fits billion; dsimp only; omega)
    obtain ⟨total, hexactly, htotal⟩ := exactly_of (w := 128)
      (n := seconds.val * 1000000000000000000 + attos.val) (by unfold Fits billion at *; dsimp only at hattos; omega)
    unfold Duration.ofComponents
    rw [if_pos (by omega), hmul]
    simp only [Option.bind_eq_bind, hexactly, Option.bind_some]
    refine ⟨some ⟨total⟩, rfl, iff_of_false (Option.some_ne_none _) (by omega), ?_⟩
    intro duration hsome
    obtain rfl := Option.some.inj hsome
    unfold BebopTimestamp.total billion at *
    dsimp only at *
    omega

theorem timeRemaining_of_not_fits (h : ¬DifferenceFits deadline clock.current) :
    deadline.timeRemaining clock.current = none := by
  obtain ⟨hlow, hhigh⟩ := nanoseconds_bounds deadline clock
  have hnanoseconds := deadline.nanoseconds.fits
  have hcurrent := clock.current.nanoseconds.fits
  have hcases := borrowed_cases deadline clock.current
  unfold DifferenceFits at h
  unfold Fits at hnanoseconds hcurrent
  generalize borrowed deadline clock.current = borrow at *
  unfold BebopTimestamp.timeRemaining
  by_cases hfits : Fits 64 (deadline.seconds.val - clock.current.seconds.val)
  · -- the difference is the least integer, and a second is borrowed from it
    obtain ⟨diffSec, hsub, hdiffSec⟩ := SignedInt.sub_of hfits
    obtain ⟨nano, hconvert, hnano⟩ := SignedInt.convert_of (v := 64) (a := deadline.nanoseconds)
      (by unfold Fits; omega)
    obtain ⟨nano', hconvert', hnano'⟩ := SignedInt.convert_of (v := 64) (a := clock.current.nanoseconds)
      (by unfold Fits; omega)
    obtain ⟨diffNano, hsub', hdiffNano⟩ := SignedInt.sub_of (a := nano) (b := nano') (by unfold Fits; omega)
    unfold Fits at hfits
    have htrap : diffSec.sub one = none := by
      apply SignedInt.sub_of_not
      unfold Fits one
      dsimp only
      omega
    have hborrow : borrowSecond diffSec diffNano = none := by
      unfold borrowSecond
      rw [if_pos (by omega), htrap]
      rfl
    simp only [Option.bind_eq_bind, hsub, hconvert, hconvert', hsub', hborrow, Option.bind_some, Option.bind_none]
  · rw [SignedInt.sub_of_not hfits]
    rfl

theorem deadlineExact_iff (deadline : BebopTimestamp) (clock : Clock) :
    DeadlineExact deadline clock ↔ DifferenceFits deadline clock.current := by
  constructor
  · rintro ⟨remaining, start, hremaining, -⟩
    by_contra hnot
    rw [timeRemaining_of_not_fits hnot] at hremaining
    cases hremaining
  · intro h
    obtain ⟨remaining, hcall, hnone, hexact⟩ := timeRemaining_of_fits h
    have hlow := clock.nanoseconds_nonneg
    have hhigh := clock.nanoseconds_le
    have hcases := borrowed_cases deadline clock.current
    have hstart : ∃ start, withDeadline deadline clock.current = some start := by
      unfold withDeadline
      rw [hcall]
      cases remaining with
      | none => exact ⟨_, rfl⟩
      | some duration => exact ⟨_, rfl⟩
    obtain ⟨start, hstart⟩ := hstart
    refine ⟨remaining, start, hcall, hstart, ?_⟩
    rintro ⟨hnonneg, hle⟩
    refine ⟨?_, hexact, ?_⟩
    · rw [hnone]
      unfold BebopTimestamp.total
      omega
    · unfold BebopTimestamp.isPast BebopTimestamp.total
      rw [Bool.or_eq_true, Bool.and_eq_true, decide_eq_true_eq, decide_eq_true_eq, decide_eq_true_eq]
      omega

end

/-! ## A time from now -/

section

variable {duration : Duration} {clock : Clock}

theorem carrySeconds_of (totalSeconds totalNanos : Int64) (hlow : -1000000000 < totalNanos.val)
    (hhigh : totalNanos.val < 2000000000)
    (hfits : Fits 64 ((totalSeconds.val * 1000000000 + totalNanos.val) / 1000000000)) :
    ∃ seconds nanoseconds, carrySeconds totalSeconds totalNanos = some (seconds, nanoseconds) ∧
      0 ≤ nanoseconds.val ∧ nanoseconds.val ≤ 999999999 ∧
      seconds.val * 1000000000 + nanoseconds.val = totalSeconds.val * 1000000000 + totalNanos.val := by
  have hseconds := totalSeconds.fits
  unfold Fits at hfits hseconds
  unfold carrySeconds
  have hbillion : billion.val = 1000000000 := rfl
  by_cases hmore : billion.val ≤ totalNanos.val
  · have htdiv : totalNanos.val.tdiv billion.val = totalNanos.val / billion.val :=
      Int.tdiv_eq_ediv_of_nonneg (by omega)
    have htmod : totalNanos.val.tmod billion.val = totalNanos.val % billion.val :=
      Int.tmod_eq_emod_of_nonneg (by omega)
    rw [hbillion] at htdiv htmod hmore
    obtain ⟨carry, hdiv, hcarry⟩ := SignedInt.div_of (a := totalNanos) (b := billion) (by rw [hbillion]; omega)
      (by rw [hbillion, htdiv]; unfold Fits; omega)
    obtain ⟨nanoseconds, hmod, hnano⟩ := SignedInt.mod_of (a := totalNanos) (b := billion) (by rw [hbillion]; omega)
      (by rw [hbillion, htmod]; unfold Fits; omega)
    rw [hbillion, htdiv] at hcarry
    rw [hbillion, htmod] at hnano
    obtain ⟨seconds, hadd, hsec⟩ := SignedInt.add_of (a := totalSeconds) (b := carry) (by unfold Fits; omega)
    rw [if_pos (by omega), hdiv]
    simp only [Option.bind_eq_bind, Option.bind_some, hadd, hmod]
    exact ⟨seconds, nanoseconds, rfl, by omega, by omega, by omega⟩
  · rw [if_neg hmore]
    by_cases hless : totalNanos.val < 0
    · obtain ⟨negated, hneg, hnegated⟩ := SignedInt.neg_of (a := totalNanos) (by unfold Fits; omega)
      obtain ⟨up, hup, hupval⟩ := SignedInt.add_of (a := negated) (b := (⟨999999999, by decide⟩ : Int64))
        (by unfold Fits; dsimp only; omega)
      dsimp only at hupval
      have htdiv : up.val.tdiv billion.val = up.val / billion.val := Int.tdiv_eq_ediv_of_nonneg (by omega)
      rw [hbillion] at htdiv
      obtain ⟨borrow, hdiv, hborrow⟩ := SignedInt.div_of (a := up) (b := billion) (by rw [hbillion]; omega)
        (by rw [hbillion, htdiv]; unfold Fits; omega)
      rw [hbillion, htdiv] at hborrow
      obtain ⟨seconds, hsub, hsec⟩ := SignedInt.sub_of (a := totalSeconds) (b := borrow) (by unfold Fits; omega)
      obtain ⟨back, hmul, hback⟩ := SignedInt.mul_of (a := borrow) (b := billion)
        (by rw [hbillion]; unfold Fits; omega)
      rw [hbillion] at hback
      obtain ⟨nanoseconds, hadd, hnano⟩ := SignedInt.add_of (a := totalNanos) (b := back) (by unfold Fits; omega)
      rw [if_pos hless, hneg]
      simp only [Option.bind_eq_bind, Option.bind_some, hup, hdiv, hsub, hmul, hadd]
      exact ⟨seconds, nanoseconds, rfl, by omega, by omega, by omega⟩
    · rw [if_neg hless]
      exact ⟨totalSeconds, totalNanos, rfl, by omega, by omega, rfl⟩

theorem components_of_not_fit (h : ¬SecondsFit duration) : duration.components = none := by
  unfold Duration.components
  rw [exactly_of_not h]
  rfl

theorem components_of_fit (h : SecondsFit duration) :
    ∃ seconds attos, duration.components = some (seconds, attos) ∧
      -1000000000000000000 < attos.val ∧ attos.val < 1000000000000000000 ∧ (0 < seconds.val → 0 ≤ attos.val) ∧
      duration.nanoseconds = seconds.val * 1000000000 + attos.val.tdiv 1000000000 := by
  have hlow := Int.lt_tmod_of_pos duration.attoseconds.val (show (0 : Int) < 1000000000000000000 by decide)
  have hhigh := Int.tmod_lt_of_pos duration.attoseconds.val (show (0 : Int) < 1000000000000000000 by decide)
  obtain ⟨seconds, hexactly, hsec⟩ := exactly_of h
  obtain ⟨attos, hexactly', hattos⟩ := exactly_of (w := 64)
    (n := duration.attoseconds.val.tmod 1000000000000000000) (by unfold Fits; omega)
  have hsplit := tdiv_mul_add duration.attoseconds.val (show (0 : Int) < 1000000000 by decide)
    (show (0 : Int) < 1000000000 by decide)
  refine ⟨seconds, attos, ?_, by omega, by omega, ?_, ?_⟩
  · unfold Duration.components
    rw [hexactly]
    simp only [Option.bind_eq_bind, Option.bind_some, hexactly']
    rfl
  · intro hpos
    rw [hsec] at hpos
    rw [hattos]
    apply Int.tmod_nonneg
    by_contra hneg
    have hnonneg := Int.tdiv_nonneg (a := -duration.attoseconds.val) (b := 1000000000000000000) (by omega) (by decide)
    rw [Int.neg_tdiv] at hnonneg
    omega
  · rw [hsec, hattos]
    exact hsplit

theorem fromNow_of_fit (h : SecondsFit duration) (hsum : Representable duration clock) :
    ∃ t, BebopTimestamp.fromNow duration clock.current = some t ∧ t.Normal ∧
      t.total = clock.current.total + duration.nanoseconds := by
  obtain ⟨extra, attos, hcomponents, hlow, hhigh, hsign, hnanos⟩ := components_of_fit h
  have hextra := extra.fits
  have hclock := clock.seconds_nonneg
  have hclock' := clock.seconds_le
  have hnonneg := clock.nanoseconds_nonneg
  have hle := clock.nanoseconds_le
  have hbillion : billion.val = 1000000000 := rfl
  -- the attoseconds are less than a second
  obtain ⟨hrest, hrest'⟩ := tdiv_bounds (n := attos.val) (a := 1000000000) (b := 1000000000) (by decide) hlow hhigh
  have hnanosign : 0 < extra.val → 0 ≤ attos.val.tdiv 1000000000 := fun hpos =>
    Int.tdiv_nonneg (hsign hpos) (by decide)
  unfold Representable BebopTimestamp.total at hsum
  rw [hnanos] at hsum
  unfold Fits at hsum hextra
  obtain ⟨addNanos, hdiv, hadd⟩ := SignedInt.div_of (a := attos) (b := billion) (by rw [hbillion]; decide)
    (by rw [hbillion]; unfold Fits; omega)
  rw [hbillion] at hadd
  obtain ⟨nano, hconvert, hnano⟩ := SignedInt.convert_of (v := 64) (a := clock.current.nanoseconds)
    (by unfold Fits; omega)
  obtain ⟨totalNanos, htotal, htotalNanos⟩ := SignedInt.add_of (a := nano) (b := addNanos) (by unfold Fits; omega)
  obtain ⟨totalSeconds, hsec, htotalSeconds⟩ := SignedInt.add_of (a := clock.current.seconds) (b := extra)
    (by unfold Fits; omega)
  obtain ⟨seconds, nanoseconds, hcarry, hlow', hhigh', hvalue⟩ := carrySeconds_of totalSeconds totalNanos
    (by omega) (by omega) (by unfold Fits; omega)
  obtain ⟨short, hconvert', hshort⟩ := SignedInt.convert_of (v := 32) (a := nanoseconds) (by unfold Fits; omega)
  refine ⟨⟨seconds, short⟩, ?_, ⟨by dsimp only; omega, by dsimp only; omega⟩, ?_⟩
  · unfold BebopTimestamp.fromNow
    simp only [Option.bind_eq_bind, Option.bind_some, hcomponents, hdiv, hconvert, htotal, hsec, hcarry, hconvert']
    rfl
  · rw [hnanos]
    unfold BebopTimestamp.total
    dsimp only
    omega

theorem fromNowExact_iff (duration : Duration) (clock : Clock) :
    FromNowExact duration clock ↔ (Representable duration clock → SecondsFit duration) := by
  constructor
  · intro h hsum
    by_contra hnot
    obtain ⟨t, hcall, -⟩ := h hsum
    unfold BebopTimestamp.fromNow at hcall
    rw [components_of_not_fit hnot] at hcall
    cases hcall
  · intro h hsum
    exact fromNow_of_fit (h hsum) hsum

end

/-- The arithmetic of deadlines, for every deadline and every duration. -/
theorem deadlineArithmetic_iff (clock : Clock) :
    (∀ deadline, DeadlineExact deadline clock ↔ DifferenceFits deadline clock.current) ∧
      ∀ duration, FromNowExact duration clock ↔ (Representable duration clock → SecondsFit duration) :=
  ⟨fun deadline => deadlineExact_iff deadline clock, fun duration => fromNowExact_iff duration clock⟩

/-- The least deadline, at a second past the epoch. -/
theorem deadline_least_traps :
    ¬((∀ deadline clock, DeadlineExact deadline clock) ∧ ∀ duration clock, FromNowExact duration clock) := by
  rintro ⟨h, -⟩
  obtain ⟨remaining, start, hcall, -⟩ := h ⟨⟨-2 ^ 63, by decide⟩, ⟨0, by decide⟩⟩
    ⟨⟨⟨1, by decide⟩, ⟨0, by decide⟩⟩, by decide, by decide, by decide, by decide⟩
  exact Option.some_ne_none _ (hcall.symm.trans (by decide))

end Bebop.Swift.Deadline
