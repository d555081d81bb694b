import Mathlib.Data.List.Basic
import Mathlib.Tactic.Positivity
import Mathlib.Tactic.Ring

/-!
# Bebop — timestamp literals

`bebop_util_parse_timestamp` of `bebop_utils.c`. The pointer `p` is the text that is left.
The nanoseconds of an instant before the epoch count up from the second before it, and
offsets stay under a day (`parseTimestamp_ranges`).
-/

namespace Bebop.Compiler

/-- `bebop__digit_val`, where its value is below 10. -/
def decimalVal (c : UInt8) : Option Nat :=
  if 0x30 ≤ c ∧ c ≤ 0x39 then some (c.toNat - 0x30) else none

def parse2digit : List UInt8 → Option (Nat × List UInt8)
  | c₀ :: c₁ :: rest => do
    let d₀ ← decimalVal c₀
    let d₁ ← decimalVal c₁
    some (d₀ * 10 + d₁, rest)
  | _ => none

def parse4digit : List UInt8 → Option (Nat × List UInt8)
  | c₀ :: c₁ :: c₂ :: c₃ :: rest => do
    let d₀ ← decimalVal c₀
    let d₁ ← decimalVal c₁
    let d₂ ← decimalVal c₂
    let d₃ ← decimalVal c₃
    some (d₀ * 1000 + d₁ * 100 + d₂ * 10 + d₃, rest)
  | _ => none

def expect (cs : List UInt8) : List UInt8 → Option (List UInt8)
  | c :: rest => if c ∈ cs then some rest else none
  | [] => none

def daysFromCivil (y m d : Int) : Int :=
  let y := if m ≤ 2 then y - 1 else y
  let era := (if y ≥ 0 then y else y - 399).tdiv 400
  let yoe := y - era * 400
  let doy := (153 * (m + if m > 2 then -3 else 9) + 2).tdiv 5 + d - 1
  let doe := yoe * 365 + yoe.tdiv 4 - yoe.tdiv 100 + doy
  era * 146097 + doe - 719468

def monthDays : List Nat := [31, 28, 31, 30, 31, 30, 31, 31, 30, 31, 30, 31]

def maxDay (year month : Nat) : Nat :=
  if month = 2 ∧ (year % 4 = 0 ∧ year % 100 ≠ 0 ∨ year % 400 = 0) then 29
  else monthDays.getD (month - 1) 0

/-- The digits behind a point: `digits` of them count, the others are skipped. -/
def parseFraction : Nat → Nat → List UInt8 → Nat × List UInt8
  | 0, frac, rest => (frac, rest.dropWhile fun c => (decimalVal c).isSome)
  | digits + 1, frac, [] => (frac * 10 ^ (digits + 1), [])
  | digits + 1, frac, c :: rest =>
    match decimalVal c with
    | some d => parseFraction digits (frac * 10 + d) rest
    | none => (frac * 10 ^ (digits + 1), c :: rest)

def parseZonePart (limit : Nat) (rest : List UInt8) : Option (Nat × List UInt8) :=
  match rest with
  | c :: _ =>
    if (decimalVal c).isSome then do
      let (value, rest) ← parse2digit rest
      if value < limit then some (value, rest) else none
    else some (0, rest)
  | [] => some (0, [])

/-- The zone behind its sign: the hours, minutes, seconds and milliseconds. -/
def parseZoneParts (rest : List UInt8) : Option ((Nat × Nat × Nat × Nat) × List UInt8) := do
  let (hour, rest) ← parse2digit rest
  guard ¬(hour > 23)
  let rest := (expect [0x3A] rest).getD rest
  let (min, rest) ← parseZonePart 60 rest
  let (sec, rest) ←
    match expect [0x3A] rest with
    | some rest => parseZonePart 60 rest
    | none => some (0, rest)
  let (ms, rest) :=
    match expect [0x2E] rest with
    | some rest => parseFraction 3 0 rest
    | none => (0, rest)
  some ((hour, min, sec, ms), rest)

/-- The zone: `tz_offset` in seconds, and `offset_ms`. -/
def parseZone (rest : List UInt8) : Option (Int × Int × List UInt8) :=
  match rest with
  | [] => some (0, 0, [])
  | c :: tail =>
    if c = 0x5A ∨ c = 0x7A then some (0, 0, tail)
    else if c = 0x2B ∨ c = 0x2D then do
      let ((hour, min, sec, ms), rest) ← parseZoneParts tail
      let offset : Int := hour * 3600 + min * 60 + sec
      let offsetMs : Int := hour * 3600000 + min * 60000 + sec * 1000 + ms
      let offset := if c = 0x2D then -offset else offset
      let offsetMs := if c = 0x2D then -offsetMs else offsetMs
      guard ¬(offsetMs < -86400000 ∨ offsetMs > 86400000)
      some (offset, offsetMs, rest)
    else some (0, 0, rest)

/-- The date and the time of day, in seconds since the epoch. -/
def parseDateTime (str : List UInt8) : Option (Int × List UInt8) := do
  let (year, rest) ← parse4digit str
  let rest ← expect [0x2D] rest
  let (month, rest) ← parse2digit rest
  guard ¬(month < 1 ∨ month > 12)
  let rest ← expect [0x2D] rest
  let (day, rest) ← parse2digit rest
  guard ¬(day < 1 ∨ day > maxDay year month)
  let rest ← expect [0x54, 0x74, 0x20] rest
  let (hour, rest) ← parse2digit rest
  guard ¬(hour > 23)
  let rest ← expect [0x3A] rest
  let (minute, rest) ← parse2digit rest
  guard ¬(minute > 59)
  let rest ← expect [0x3A] rest
  let (second, rest) ← parse2digit rest
  guard ¬(second > 60)
  some (daysFromCivil year month day * 86400 + hour * 3600 + minute * 60 + second, rest)

def parseNanos (rest : List UInt8) : Nat × List UInt8 :=
  match expect [0x2E] rest with
  | some rest => parseFraction 9 0 rest
  | none => (0, rest)

/-- `bebop_util_parse_timestamp`, with the arguments present. -/
def parseTimestamp (str : List UInt8) : Option (Int × Int × Int) := do
  guard ¬(str.length < 19)
  let (secs, rest) ← parseDateTime str
  let (nanos, rest) := parseNanos rest
  let (offset, offsetMs, rest) ← parseZone rest
  guard (rest = [])
  some (secs - offset, nanos, offsetMs)

/-! ## Ranges -/

theorem decimalVal_lt {c : UInt8} {d : Nat} (h : decimalVal c = some d) : d < 10 := by
  unfold decimalVal at h
  split at h
  · rename_i hc
    obtain rfl := Option.some.inj h
    have hle := UInt8.le_iff_toNat_le.mp hc.2
    have hval : (0x39 : UInt8).toNat = 0x39 := rfl
    omega
  · cases h

theorem parseFraction_lt (digits frac : Nat) (rest : List UInt8) :
    (parseFraction digits frac rest).1 < (frac + 1) * 10 ^ digits := by
  induction digits generalizing frac rest with
  | zero => simp [parseFraction]
  | succ digits ih =>
    have hfilled : frac * 10 ^ (digits + 1) < (frac + 1) * 10 ^ (digits + 1) :=
      Nat.mul_lt_mul_of_pos_right (Nat.lt_succ_self frac) (by positivity)
    cases rest with
    | nil => exact hfilled
    | cons c rest =>
      simp only [parseFraction]
      cases hd : decimalVal c with
      | none => exact hfilled
      | some d =>
        have hlt := decimalVal_lt hd
        calc (parseFraction digits (frac * 10 + d) rest).1
          _ < (frac * 10 + d + 1) * 10 ^ digits := ih _ _
          _ ≤ (frac + 1) * 10 * 10 ^ digits := Nat.mul_le_mul_right _ (by omega)
          _ = (frac + 1) * 10 ^ (digits + 1) := by ring

theorem parseNanos_lt (rest : List UInt8) : (parseNanos rest).1 < 1000000000 := by
  unfold parseNanos
  split
  · exact parseFraction_lt 9 0 _
  · exact Nat.succ_pos _

theorem parseZone_range {rest rest' : List UInt8} {offset offsetMs : Int}
    (h : parseZone rest = some (offset, offsetMs, rest')) :
    -86400000 ≤ offsetMs ∧ offsetMs ≤ 86400000 := by
  have hzero : (0 : Int) = offsetMs → -86400000 ≤ offsetMs ∧ offsetMs ≤ 86400000 := by omega
  cases rest with
  | nil =>
    simp only [parseZone, Option.some.injEq, Prod.mk.injEq] at h
    exact hzero h.2.1
  | cons c tail =>
    simp only [parseZone] at h
    split at h
    · simp only [Option.some.injEq, Prod.mk.injEq] at h
      exact hzero h.2.1
    · split at h
      · -- Behind a sign the code checks the range itself.
        simp only [Option.bind_eq_bind, Option.bind_eq_some_iff, Option.guard_eq_some'] at h
        obtain ⟨parts, -, _, hrange, h⟩ := h
        simp only [Option.some.injEq, Prod.mk.injEq] at h
        omega
      · simp only [Option.some.injEq, Prod.mk.injEq] at h
        exact hzero h.2.1

theorem parseTimestamp_ranges {str : List UInt8} {seconds nanoseconds offsetMs : Int}
    (h : parseTimestamp str = some (seconds, nanoseconds, offsetMs)) :
    (0 ≤ nanoseconds ∧ nanoseconds ≤ 999999999) ∧ -86400000 ≤ offsetMs ∧ offsetMs ≤ 86400000 := by
  simp only [parseTimestamp, Option.bind_eq_bind, Option.bind_eq_some_iff, Option.guard_eq_some',
    Option.some.injEq, Prod.mk.injEq] at h
  obtain ⟨_, -, ⟨_, rest⟩, -, ⟨offset, ms, _⟩, hzone, _, -, -, rfl, rfl⟩ := h
  have hnanos := parseNanos_lt rest
  refine ⟨?_, parseZone_range hzone⟩
  dsimp only
  omega

end Bebop.Compiler
