import Bebop.Compiler.TimestampLiteral
import Bebop.Lib.Temporal
import Mathlib.Tactic.Linarith

/-!
# Bebop — timestamps in the TypeScript runtime

`BebopTimestamp` of `temporal.ts`. A number that holds an integer is an `Int`, and so is a
`bigint`. On the wire the nanoseconds count up from the second they follow; `toWire` splits
an instant with a division that truncates, and `fromWire` asks for the same. The offset
goes through the text that names a time zone, which has no seconds.
-/

namespace Bebop.TypeScript

open Temporal (Instant ZonedDateTime)

def nanosecondsPerSecond : Int := 1000000000

def nanosecondsPerMillisecond : Int := 1000000

def pad2 (value : Nat) : List Char := (Nat.toDigits 10 value).leftpad 2 '0'

/-- `formatOffset`, where a thrown error is its text. -/
def formatOffset (offsetMs : Int) : Except String (List Char) :=
  if offsetMs.natAbs ≥ 86400000 then
    .error s!"invalid Bebop timezone offset: {offsetMs}ms"
  else if offsetMs = 0 then .ok ['U', 'T', 'C']
  else
    let sign := if offsetMs < 0 then '-' else '+'
    let remaining := offsetMs.natAbs
    let hours := remaining / 3600000
    let remaining := remaining - hours * 3600000
    let minutes := remaining / 60000
    let remaining := remaining - minutes * 60000
    let seconds := remaining / 1000
    let milliseconds := remaining - seconds * 1000
    let base := sign :: (pad2 hours ++ ':' :: pad2 minutes)
    if seconds = 0 ∧ milliseconds = 0 then .ok base
    else
      .ok (base ++ ':' :: pad2 seconds ++
        if milliseconds = 0 then [] else '.' :: (Nat.toDigits 10 milliseconds).leftpad 3 '0')

namespace BebopTimestamp

structure Wire where
  seconds : Int
  nanoseconds : Int
  offsetMs : Int
  deriving DecidableEq, Repr

def fromWire (seconds nanoseconds offsetMs : Int) : Except String ZonedDateTime :=
  if nanoseconds.natAbs ≥ 1000000000 then
    .error s!"invalid Bebop timestamp nanoseconds: {nanoseconds}"
  else if seconds < 0 ∧ nanoseconds > 0 ∨ seconds > 0 ∧ nanoseconds < 0 then
    .error "Bebop timestamp components must have the same sign"
  else
    match Instant.fromEpochNanoseconds (seconds * nanosecondsPerSecond + nanoseconds) with
    | none => .error "RangeError"
    | some instant =>
      match formatOffset offsetMs with
      | .error error => .error error
      | .ok timeZone =>
        match instant.toZonedDateTimeISO timeZone with
        | none => .error "RangeError"
        | some value => .ok value

/-- `/` and `%` on numbers and `bigint`s truncate. -/
def toWire (value : ZonedDateTime) : Except String Wire :=
  if value.offsetNanoseconds.tmod nanosecondsPerMillisecond ≠ 0 then
    .error "Bebop timestamps require timezone offsets with millisecond precision"
  else
    .ok ⟨value.epochNanoseconds.tdiv nanosecondsPerSecond,
      value.epochNanoseconds.tmod nanosecondsPerSecond,
      value.offsetNanoseconds.tdiv nanosecondsPerMillisecond⟩

end BebopTimestamp

/-! ## The offset -/

theorem pad2_of_lt {n : Nat} (hn : n < 100) :
    pad2 n = [Nat.digitChar (n / 10), Nat.digitChar (n % 10)] := by
  have hall : ∀ n < 100, pad2 n = [Nat.digitChar (n / 10), Nat.digitChar (n % 10)] := by decide
  exact hall n hn

theorem formatOffset_error {offsetMs : Int} (h : offsetMs.natAbs ≥ 86400000) :
    ∃ error, formatOffset offsetMs = .error error := by
  unfold formatOffset
  rw [if_pos h]
  exact ⟨_, rfl⟩

theorem timeZoneOffset_formatOffset {offsetMs : Int} (h : offsetMs.natAbs < 86400000)
    (hminutes : offsetMs % 60000 = 0) :
    ∃ timeZone, formatOffset offsetMs = .ok timeZone ∧
      Temporal.timeZoneOffset timeZone = some (offsetMs / 60000) := by
  unfold formatOffset
  rw [if_neg (Nat.not_le.mpr h)]
  by_cases hzero : offsetMs = 0
  · rw [if_pos hzero, hzero]
    exact ⟨_, rfl, rfl⟩
  · rw [if_neg hzero]
    dsimp only
    -- Nothing is left for the seconds and the milliseconds.
    rw [if_pos (by omega)]
    refine ⟨_, rfl, ?_⟩
    generalize hn : offsetMs.natAbs = n at *
    have hhours : n / 3600000 < 24 := by omega
    have hmins : (n - n / 3600000 * 3600000) / 60000 < 60 := by omega
    rw [pad2_of_lt (by omega), pad2_of_lt (by omega)]
    by_cases hneg : offsetMs < 0
    · rw [if_pos hneg]
      simp [Temporal.timeZoneOffset, Temporal.parseUTCOffset, Temporal.asciiSign,
        Temporal.twoDigits_digitChar hhours, Temporal.twoDigits_digitChar hmins]
      omega
    · rw [if_neg hneg]
      simp [Temporal.timeZoneOffset, Temporal.parseUTCOffset, Temporal.asciiSign,
        Temporal.twoDigits_digitChar hhours, Temporal.twoDigits_digitChar hmins]
      omega

theorem timeZoneOffset_formatOffset_none {offsetMs : Int} {timeZone : List Char}
    (hminutes : offsetMs % 60000 ≠ 0) (h : formatOffset offsetMs = .ok timeZone) :
    Temporal.timeZoneOffset timeZone = none := by
  unfold formatOffset at h
  split at h
  · cases h
  · rw [if_neg (by rintro rfl; exact hminutes rfl)] at h
    dsimp only at h
    rw [if_neg (by omega), pad2_of_lt (by omega), pad2_of_lt (by omega),
      pad2_of_lt (by omega)] at h
    obtain rfl := Except.ok.inj h
    rw [Temporal.timeZoneOffset, if_neg (by split <;> simp)]
    exact Temporal.parseUTCOffset_seconds _ _ _ _ _ _

/-! ## The round trip -/

namespace BebopTimestamp

def RoundTrips (seconds nanoseconds offsetMs : Int) : Prop :=
  ∃ value, fromWire seconds nanoseconds offsetMs = .ok value ∧
    toWire value = .ok ⟨seconds, nanoseconds, offsetMs⟩

variable {seconds nanoseconds offsetMs : Int}

theorem fromWire_ok_iff (hnanos : 0 ≤ nanoseconds ∧ nanoseconds ≤ 999999999)
    (hinstant : -Temporal.nsMaxInstant ≤ seconds * nanosecondsPerSecond + nanoseconds ∧
      seconds * nanosecondsPerSecond + nanoseconds ≤ Temporal.nsMaxInstant) {value : ZonedDateTime} :
    fromWire seconds nanoseconds offsetMs = .ok value ↔
      (0 ≤ seconds ∨ nanoseconds = 0) ∧ offsetMs % 60000 = 0 ∧ offsetMs.natAbs < 86400000 ∧
        value = ⟨⟨seconds * nanosecondsPerSecond + nanoseconds, hinstant⟩, offsetMs / 60000⟩ := by
  unfold fromWire
  rw [if_neg (by omega)]
  by_cases hsign : 0 ≤ seconds ∨ nanoseconds = 0
  · rw [if_neg (by omega), Instant.fromEpochNanoseconds, dif_pos hinstant]
    dsimp only
    by_cases hday : offsetMs.natAbs < 86400000
    · by_cases hminutes : offsetMs % 60000 = 0
      · obtain ⟨timeZone, hformat, hoffset⟩ := timeZoneOffset_formatOffset hday hminutes
        simp [hformat, Instant.toZonedDateTimeISO, hoffset, hsign, hminutes, hday, eq_comm]
      · cases hformat : formatOffset offsetMs with
        | error error => simp [hminutes]
        | ok timeZone =>
          have hnone := timeZoneOffset_formatOffset_none hminutes hformat
          simp [Instant.toZonedDateTimeISO, hnone, hminutes]
    · obtain ⟨error, hformat⟩ := formatOffset_error (Nat.not_lt.mp hday)
      simp [hformat, hday]
  · rw [if_pos (by omega)]
    simp [hsign]

theorem toWire_fromParts (hsign : 0 ≤ seconds ∨ nanoseconds = 0)
    (hnanos : 0 ≤ nanoseconds ∧ nanoseconds ≤ 999999999) (hminutes : offsetMs % 60000 = 0)
    {valid} : toWire ⟨⟨seconds * nanosecondsPerSecond + nanoseconds, valid⟩, offsetMs / 60000⟩ =
      .ok ⟨seconds, nanoseconds, offsetMs⟩ := by
  have hsplit : (seconds * nanosecondsPerSecond + nanoseconds).tdiv nanosecondsPerSecond = seconds ∧
      (seconds * nanosecondsPerSecond + nanoseconds).tmod nanosecondsPerSecond = nanoseconds := by
    unfold nanosecondsPerSecond
    rcases hsign with hpos | rfl
    · rw [Int.tdiv_eq_ediv_of_nonneg (by omega), Int.tmod_eq_emod_of_nonneg (by omega)]
      omega
    · simp
  have hzone : (offsetMs / 60000 * 60000000000).tmod nanosecondsPerMillisecond = 0 ∧
      (offsetMs / 60000 * 60000000000).tdiv nanosecondsPerMillisecond = offsetMs := by
    have hwhole : offsetMs / 60000 * 60000000000 = offsetMs * nanosecondsPerMillisecond := by
      unfold nanosecondsPerMillisecond
      omega
    rw [hwhole]
    exact ⟨Int.mul_tmod_left _ _, Int.mul_tdiv_cancel _ (by decide)⟩
  unfold toWire
  rw [ZonedDateTime.offsetNanoseconds, if_neg (not_not.mpr hzone.1), ZonedDateTime.epochNanoseconds,
    hsplit.1, hsplit.2, hzone.2]

/-- It is no fraction before the epoch, and the offset has whole minutes within a day. -/
theorem timestamp_roundTrip_iff (hnanos : 0 ≤ nanoseconds ∧ nanoseconds ≤ 999999999)
    (hoffset : -86400000 ≤ offsetMs ∧ offsetMs ≤ 86400000)
    (hinstant : -Temporal.nsMaxInstant ≤ seconds * nanosecondsPerSecond + nanoseconds ∧
      seconds * nanosecondsPerSecond + nanoseconds ≤ Temporal.nsMaxInstant) :
    RoundTrips seconds nanoseconds offsetMs ↔
      (0 ≤ seconds ∨ nanoseconds = 0) ∧ offsetMs % 60000 = 0 ∧ offsetMs.natAbs ≠ 86400000 := by
  have hday : offsetMs.natAbs < 86400000 ↔ offsetMs.natAbs ≠ 86400000 := by omega
  rw [← hday]
  constructor
  · rintro ⟨value, hvalue, -⟩
    obtain ⟨hsign, hminutes, hless, -⟩ := (fromWire_ok_iff hnanos hinstant).mp hvalue
    exact ⟨hsign, hminutes, hless⟩
  · rintro ⟨hsign, hminutes, hless⟩
    exact ⟨_, (fromWire_ok_iff hnanos hinstant).mpr ⟨hsign, hminutes, hless, rfl⟩,
      toWire_fromParts hsign hnanos hminutes⟩

theorem timestamp_roundTrip_epoch : RoundTrips 0 1 (-3600000) :=
  (timestamp_roundTrip_iff (by decide) (by decide) (by decide)).mpr (by decide)

/-- Half a second before the epoch, which only the compiler reads. -/
theorem timestamp_not_roundTrip :
    Compiler.parseTimestamp "1969-12-31T23:59:59.5Z".toUTF8.toList = some (-1, 500000000, 0) ∧
      ¬RoundTrips (-1) 500000000 0 := by
  refine ⟨by decide +kernel, ?_⟩
  rintro ⟨value, hvalue, -⟩
  cases hvalue

end BebopTimestamp

end Bebop.TypeScript
