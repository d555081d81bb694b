import Mathlib.Data.List.Basic
import Mathlib.Tactic.IntervalCases
import Mathlib.Data.Nat.Digits.Defs

/-!
# Dates and instants
-/

/-!
## The proleptic Gregorian calendar

Years of 365 or 366 days and months of 28 to 31, counted from the first day of the year
zero.
-/

namespace Calendar

def IsLeap (year : Nat) : Prop := year % 4 = 0 ∧ year % 100 ≠ 0 ∨ year % 400 = 0

instance (year : Nat) : Decidable (IsLeap year) := inferInstanceAs (Decidable (_ ∨ _))

def yearLength (year : Nat) : Nat := if IsLeap year then 366 else 365

def monthLength (year month : Nat) : Nat :=
  if month = 2 then if IsLeap year then 29 else 28
  else if month = 4 ∨ month = 6 ∨ month = 9 ∨ month = 11 then 30
  else 31

def daysBeforeYear : Nat → Nat
  | 0 => 0
  | year + 1 => daysBeforeYear year + yearLength year

def daysOfMonths (year : Nat) : (count : Nat) → Nat
  | 0 => 0
  | count + 1 => daysOfMonths year count + monthLength year (count + 1)

/-- The days before a date, from the first day of the year zero. -/
def dayNumber (year month day : Nat) : Nat := daysBeforeYear year + daysOfMonths year (month - 1) + (day - 1)

/-- The days from the first of January 1970 to a date. -/
def epochDay (year month day : Nat) : Int := (dayNumber year month day : Int) - 719528

/-- Every fourth year is a leap year, no hundredth, but every four hundredth. -/
theorem daysBeforeYear_eq (year : Nat) :
    daysBeforeYear year + (year + 99) / 100 = 365 * year + (year + 3) / 4 + (year + 399) / 400 := by
  induction year with
  | zero => rfl
  | succ year ih =>
    unfold daysBeforeYear yearLength
    split
    · rename_i hleap
      unfold IsLeap at hleap
      omega
    · rename_i hleap
      unfold IsLeap at hleap
      omega

theorem epochDay_epoch : epochDay 1970 1 1 = 0 := by
  have hyears := daysBeforeYear_eq 1970
  have hmonths : daysOfMonths 1970 (1 - 1) = 0 := rfl
  unfold epochDay dayNumber
  omega

theorem daysOfMonths_eq (year : Nat) {month : Nat} (h : 1 ≤ month ∧ month ≤ 12) : daysOfMonths year (month - 1) =
    [0, 31, 59, 90, 120, 151, 181, 212, 243, 273, 304, 334].getD (month - 1) 0 +
      if 2 < month ∧ IsLeap year then 1 else 0 := by
  obtain ⟨hlow, hhigh⟩ := h
  by_cases hleap : IsLeap year
  · interval_cases month <;> simp [daysOfMonths, monthLength, hleap]
  · interval_cases month <;> simp [daysOfMonths, monthLength, hleap]

end Calendar

/-!
## ECMAScript Temporal

The part of the Temporal specification that instants with a UTC offset need: an `Instant`
lies within 10^8 days of the epoch, and an offset identifier has hours and minutes and
nothing smaller. Of the named zones only `UTC` is here.
-/

namespace Temporal

def nsMaxInstant : Int := 8640000000000000000000

/-- `IsValidEpochNanoseconds` is part of the value. -/
structure Instant where
  epochNanoseconds : Int
  valid : -nsMaxInstant ≤ epochNanoseconds ∧ epochNanoseconds ≤ nsMaxInstant
  deriving DecidableEq

/-- `none` is a `RangeError`. -/
def Instant.fromEpochNanoseconds (epochNanoseconds : Int) : Option Instant :=
  if h : -nsMaxInstant ≤ epochNanoseconds ∧ epochNanoseconds ≤ nsMaxInstant then
    some ⟨epochNanoseconds, h⟩
  else none

/-! ## Time zone identifiers -/

/-- `DecimalDigit DecimalDigit`, below a limit. -/
def twoDigits (limit : Nat) (high low : Char) : Option Nat :=
  if high.isDigit ∧ low.isDigit then
    let value := 10 * (high.toNat - '0'.toNat) + (low.toNat - '0'.toNat)
    if value < limit then some value else none
  else none

def asciiSign : Char → Option Int
  | '+' => some 1
  | '-' => some (-1)
  | _ => none

/-- `UTCOffset[~SubMinutePrecision]`, in minutes. -/
def parseUTCOffset : List Char → Option Int
  | sign :: h₁ :: h₂ :: rest => do
    let sign ← asciiSign sign
    let hours ← twoDigits 24 h₁ h₂
    match rest with
    | [] => some (sign * (hours * 60))
    | [':', m₁, m₂] | [m₁, m₂] => do
      let minutes ← twoDigits 60 m₁ m₂
      some (sign * (hours * 60 + minutes))
    | _ => none
  | _ => none

/-- The offset of the time zone with an identifier, in minutes. -/
def timeZoneOffset (identifier : List Char) : Option Int :=
  if identifier = ['U', 'T', 'C'] then some 0 else parseUTCOffset identifier

structure ZonedDateTime where
  instant : Instant
  offsetMinutes : Int
  deriving DecidableEq

/-- `toZonedDateTimeISO`; `none` is a `RangeError`. -/
def Instant.toZonedDateTimeISO (instant : Instant) (timeZone : List Char) : Option ZonedDateTime :=
  (timeZoneOffset timeZone).map fun offsetMinutes => ⟨instant, offsetMinutes⟩

def ZonedDateTime.epochNanoseconds (value : ZonedDateTime) : Int := value.instant.epochNanoseconds

def ZonedDateTime.offsetNanoseconds (value : ZonedDateTime) : Int :=
  value.offsetMinutes * 60000000000

/-! ## Results -/

theorem twoDigits_digitChar {limit n : Nat} (hn : n < limit) (hlimit : limit ≤ 100) :
    twoDigits limit (Nat.digitChar (n / 10)) (Nat.digitChar (n % 10)) = some n := by
  have hdigit : ∀ d < 10, (Nat.digitChar d).isDigit = true ∧
      (Nat.digitChar d).toNat - '0'.toNat = d := by decide
  obtain ⟨hhigh, hvalue⟩ := hdigit (n / 10) (by omega)
  obtain ⟨hlow, hvalue'⟩ := hdigit (n % 10) (by omega)
  have hsum : 10 * (n / 10) + n % 10 = n := Nat.div_add_mod n 10
  simp only [twoDigits, hhigh, hlow, hvalue, hvalue', hsum, and_self, if_true, if_pos hn]

theorem parseUTCOffset_seconds (sign h₁ h₂ m₁ m₂ : Char) (rest : List Char) :
    parseUTCOffset (sign :: h₁ :: h₂ :: ':' :: m₁ :: m₂ :: ':' :: rest) = none := by
  simp only [parseUTCOffset]
  cases asciiSign sign with
  | none => rfl
  | some sign => cases twoDigits 24 h₁ h₂ <;> rfl

end Temporal
