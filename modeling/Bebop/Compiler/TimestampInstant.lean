import Bebop.Compiler.DecimalText
import Bebop.Lib.Temporal

/-!
# Bebop — the instant of a timestamp literal

What a timestamp literal says: a local date and time of day, a fraction of a second, and a
zone. `bebop_util_parse_timestamp` takes exactly these texts and gives the instant they
stand for, unless the offset of the zone has a part below a second.
-/

namespace Bebop.Compiler

open Calendar

/-! ## Texts -/

def digitAt (n unit : Nat) : UInt8 := UInt8.ofNat (0x30 + n / unit % 10)

def twoDigits (n : Nat) : List UInt8 := [digitAt n 10, digitAt n 1]

def fourDigits (n : Nat) : List UInt8 := [digitAt n 1000, digitAt n 100, digitAt n 10, digitAt n 1]

/-- The offset of a zone from UTC. The parts behind the hour can be left out. -/
structure OffsetText where
  negative : Bool
  hour : Nat
  colon : Bool
  minute : Option Nat
  second : Option (Option Nat)
  fraction : Option (List UInt8)

inductive ZoneText
  | none
  | utc (letter : UInt8)
  | offset (offset : OffsetText)

structure TimestampText where
  year : Nat
  month : Nat
  day : Nat
  separator : UInt8
  hour : Nat
  minute : Nat
  second : Nat
  fraction : Option (List UInt8)
  zone : ZoneText

/-- A colon without minutes is the one behind the hour. -/
structure OffsetText.Valid (text : OffsetText) : Prop where
  hour : text.hour ≤ 23
  minute : ∀ m ∈ text.minute, m < 60
  second : ∀ s ∈ text.second, ∀ value ∈ s, value < 60
  fraction : ∀ digits ∈ text.fraction, AllDecimal digits
  colon : text.colon = false → text.minute = none → text.second = none

def ZoneText.Valid : ZoneText → Prop
  | .none => True
  | .utc letter => letter = 0x5A ∨ letter = 0x7A
  | .offset text => text.Valid

structure TimestampText.Valid (text : TimestampText) : Prop where
  year : text.year ≤ 9999
  month : 1 ≤ text.month ∧ text.month ≤ 12
  day : 1 ≤ text.day ∧ text.day ≤ monthLength text.year text.month
  separator : text.separator ∈ [0x54, 0x74, 0x20]
  hour : text.hour ≤ 23
  minute : text.minute ≤ 59
  second : text.second ≤ 60
  fraction : ∀ digits ∈ text.fraction, AllDecimal digits
  zone : text.zone.Valid

def partText (part : Option Nat) : List UInt8 := part.elim [] twoDigits

def secondText (second : Option (Option Nat)) : List UInt8 := second.elim [] fun s => 0x3A :: partText s

def OffsetText.parts (text : OffsetText) : List UInt8 :=
  (if text.colon then [0x3A] else []) ++
    (partText text.minute ++ (secondText text.second ++ fractionText text.fraction))

def OffsetText.text (text : OffsetText) : List UInt8 :=
  (if text.negative then 0x2D else 0x2B) :: (twoDigits text.hour ++ text.parts)

def ZoneText.text : ZoneText → List UInt8
  | .none => []
  | .utc letter => [letter]
  | .offset text => text.text

def TimestampText.text (text : TimestampText) : List UInt8 :=
  fourDigits text.year ++ 0x2D :: (twoDigits text.month ++ 0x2D :: (twoDigits text.day ++ text.separator ::
    (twoDigits text.hour ++ 0x3A :: (twoDigits text.minute ++ 0x3A :: (twoDigits text.second ++
      (fractionText text.fraction ++ text.zone.text))))))

/-! ## Values -/

def OffsetText.seconds (text : OffsetText) : Nat :=
  text.hour * 3600 + text.minute.getD 0 * 60 + (text.second.bind id).getD 0

def OffsetText.subsecond (text : OffsetText) : Nat := text.fraction.elim 0 (fractionValue 3)

def ZoneText.milliseconds : ZoneText → Int
  | .offset text =>
    let magnitude : Nat := text.seconds * 1000 + text.subsecond
    if text.negative then -(magnitude : Int) else magnitude
  | _ => 0

/-- The local date and time of day, in seconds since 1970. -/
def TimestampText.civilSeconds (text : TimestampText) : Int :=
  epochDay text.year text.month text.day * 86400 + text.hour * 3600 + text.minute * 60 + text.second

def TimestampText.nanoseconds (text : TimestampText) : Nat := text.fraction.elim 0 (fractionValue 9)

/-- The outputs are the instant and the offset that the text says. -/
def Denotes (text : TimestampText) (seconds nanos offsetMs : Int) : Prop :=
  (0 ≤ nanos ∧ nanos ≤ 999999999) ∧ offsetMs = text.zone.milliseconds ∧
    seconds * 10 ^ 9 + nanos = text.civilSeconds * 10 ^ 9 + text.nanoseconds - text.zone.milliseconds * 10 ^ 6

def ZoneText.Whole : ZoneText → Prop
  | .offset text => text.subsecond = 0
  | _ => True

/-! ## Days -/

theorem era_eq (y : Int) : (if y ≥ 0 then y else y - 399).tdiv 400 = y / 400 := by
  split
  · rename_i h
    exact Int.tdiv_eq_ediv_of_nonneg h
  · rename_i h
    have hneg : (y - 399).tdiv 400 = -((399 - y) / 400) := by
      rw [show y - 399 = -(399 - y) by omega, Int.neg_tdiv, Int.tdiv_eq_ediv_of_nonneg (by omega)]
    rw [hneg]
    omega

theorem days_of_era (y : Int) : y / 400 * 146097 + ((y - y / 400 * 400) * 365 + (y - y / 400 * 400) / 4 -
    (y - y / 400 * 400) / 100) = 365 * y + y / 4 - y / 100 + y / 400 := by
  have hfour : (y - y / 400 * 400) / 4 = y / 4 - y / 400 * 100 := by omega
  have hhundred : (y - y / 400 * 400) / 100 = y / 100 - y / 400 * 4 := by omega
  rw [hfour, hhundred]
  clear hfour hhundred
  omega

theorem days_of_march (year : Nat) : (365 * (year : Int) + year / 4 - year / 100 + year / 400 =
      daysBeforeYear year + (if IsLeap year then 1 else 0) - 1) ∧
    365 * ((year : Int) - 1) + (year - 1) / 4 - (year - 1) / 100 + (year - 1) / 400 = daysBeforeYear year - 366 := by
  have hyears := daysBeforeYear_eq year
  constructor
  · by_cases hleap : IsLeap year
    all_goals
      simp only [hleap, if_true, if_false]
      unfold IsLeap at hleap
      omega
  · omega

theorem dayOfYear_eq {month : Nat} (h : 1 ≤ month ∧ month ≤ 12) :
    (153 * ((month : Int) + if (month : Int) > 2 then -3 else 9) + 2).tdiv 5 =
      if month ≤ 2 then (([306, 337].getD (month - 1) 0 : Nat) : Int)
      else (([0, 31, 59, 90, 120, 151, 181, 212, 243, 273, 304, 334].getD (month - 1) 0 : Nat) : Int) - 59 := by
  obtain ⟨hlow, hhigh⟩ := h
  interval_cases month <;> rfl

theorem daysFromCivil_eq {year month day : Nat} (hmonth : 1 ≤ month ∧ month ≤ 12) (hday : 1 ≤ day) :
    daysFromCivil year month day = epochDay year month day := by
  obtain ⟨hmarch, hbefore⟩ := days_of_march year
  have hmonths := daysOfMonths_eq year hmonth
  have hfour (y : Int) : (y - y / 400 * 400).tdiv 4 = (y - y / 400 * 400) / 4 :=
    Int.tdiv_eq_ediv_of_nonneg (by omega)
  have hhundred (y : Int) : (y - y / 400 * 400).tdiv 100 = (y - y / 400 * 400) / 100 :=
    Int.tdiv_eq_ediv_of_nonneg (by omega)
  unfold daysFromCivil epochDay dayNumber
  dsimp only
  rw [era_eq, hfour, hhundred, dayOfYear_eq hmonth]
  by_cases hfirst : month ≤ 2
  · have hera := (days_of_era ((year : Int) - 1)).trans hbefore
    rw [if_pos (by omega : (month : Int) ≤ 2), if_pos hfirst]
    rw [if_neg (by omega)] at hmonths
    generalize ((year : Int) - 1) / 400 = era at hera ⊢
    generalize ((year : Int) - 1 - era * 400) / 4 = fours at hera ⊢
    generalize ((year : Int) - 1 - era * 400) / 100 = hundreds at hera ⊢
    clear hmarch hbefore hfour hhundred
    obtain rfl | rfl : month = 1 ∨ month = 2 := by omega
    all_goals
      simp only [Nat.sub_self, Nat.add_one_sub_one, List.getD_cons_zero, List.getD_cons_succ] at hmonths ⊢
      omega
  · have hera := (days_of_era (year : Int)).trans hmarch
    rw [if_neg (by omega : ¬(month : Int) ≤ 2), if_neg hfirst]
    simp only [show 2 < month by omega, true_and] at hmonths
    generalize [0, 31, 59, 90, 120, 151, 181, 212, 243, 273, 304, 334].getD (month - 1) 0 = before at hmonths ⊢
    generalize (year : Int) / 400 = era at hera ⊢
    generalize ((year : Int) - era * 400) / 4 = fours at hera ⊢
    generalize ((year : Int) - era * 400) / 100 = hundreds at hera ⊢
    clear hmarch hbefore hfour hhundred
    by_cases hleap : IsLeap year
    all_goals
      simp only [hleap, if_true, if_false] at hmonths hera
      omega

/-! ## Digits -/

theorem decimalVal_digitAt (n unit : Nat) : decimalVal (digitAt n unit) = some (n / unit % 10) := by
  unfold digitAt
  generalize n / unit = q
  have hdigit : ∀ d < 10, decimalVal (UInt8.ofNat (0x30 + d)) = some d := by decide
  exact hdigit _ (Nat.mod_lt q (by decide))

theorem parse2digit_text {n : Nat} (h : n < 100) (rest : List UInt8) :
    parse2digit (twoDigits n ++ rest) = some (n, rest) := by
  unfold twoDigits parse2digit
  simp only [List.cons_append, List.nil_append, decimalVal_digitAt, Option.bind_eq_bind, Option.bind_some]
  rw [show n / 10 % 10 * 10 + n / 1 % 10 = n by omega]

theorem parse4digit_text {n : Nat} (h : n ≤ 9999) (rest : List UInt8) :
    parse4digit (fourDigits n ++ rest) = some (n, rest) := by
  unfold fourDigits parse4digit
  simp only [List.cons_append, List.nil_append, decimalVal_digitAt, Option.bind_eq_bind, Option.bind_some]
  rw [show n / 1000 % 10 * 1000 + n / 100 % 10 * 100 + n / 10 % 10 * 10 + n / 1 % 10 = n by omega]

theorem parse2digit_eq_some {s rest : List UInt8} {n : Nat} (h : parse2digit s = some (n, rest)) :
    n < 100 ∧ s = twoDigits n ++ rest := by
  unfold parse2digit at h
  split at h
  · rename_i c₀ c₁ tail
    simp only [Option.bind_eq_bind, Option.bind_eq_some_iff, Option.some.injEq, Prod.mk.injEq] at h
    obtain ⟨d₀, h₀, d₁, h₁, rfl, rfl⟩ := h
    obtain ⟨rfl, hlt₀⟩ := ofNat_decimalVal h₀
    obtain ⟨rfl, hlt₁⟩ := ofNat_decimalVal h₁
    refine ⟨by omega, ?_⟩
    unfold twoDigits digitAt
    rw [show (d₀ * 10 + d₁) / 10 % 10 = d₀ by omega, show (d₀ * 10 + d₁) / 1 % 10 = d₁ by omega]
    rfl
  · cases h

theorem parse4digit_eq_some {s rest : List UInt8} {n : Nat} (h : parse4digit s = some (n, rest)) :
    n ≤ 9999 ∧ s = fourDigits n ++ rest := by
  unfold parse4digit at h
  split at h
  · rename_i c₀ c₁ c₂ c₃ tail
    simp only [Option.bind_eq_bind, Option.bind_eq_some_iff, Option.some.injEq, Prod.mk.injEq] at h
    obtain ⟨d₀, h₀, d₁, h₁, d₂, h₂, d₃, h₃, rfl, rfl⟩ := h
    obtain ⟨rfl, hlt₀⟩ := ofNat_decimalVal h₀
    obtain ⟨rfl, hlt₁⟩ := ofNat_decimalVal h₁
    obtain ⟨rfl, hlt₂⟩ := ofNat_decimalVal h₂
    obtain ⟨rfl, hlt₃⟩ := ofNat_decimalVal h₃
    refine ⟨by omega, ?_⟩
    unfold fourDigits digitAt
    rw [show (d₀ * 1000 + d₁ * 100 + d₂ * 10 + d₃) / 1000 % 10 = d₀ by omega,
      show (d₀ * 1000 + d₁ * 100 + d₂ * 10 + d₃) / 100 % 10 = d₁ by omega,
      show (d₀ * 1000 + d₁ * 100 + d₂ * 10 + d₃) / 10 % 10 = d₂ by omega,
      show (d₀ * 1000 + d₁ * 100 + d₂ * 10 + d₃) / 1 % 10 = d₃ by omega]
    rfl
  · cases h

/-! ## Zones -/

theorem noDigit_fractionText (fraction : Option (List UInt8)) : NoDigit (fractionText fraction) := by
  cases fraction with
  | none => exact noDigit_nil
  | some digits => exact noDigit_cons (by decide)

theorem noDigit_secondText (second : Option (Option Nat)) (fraction : Option (List UInt8)) :
    NoDigit (secondText second ++ fractionText fraction) := by
  cases second with
  | none => exact noDigit_fractionText fraction
  | some s => exact noDigit_cons (by decide)

theorem parseZonePart_text {limit : Nat} (hlimit : limit ≤ 100) {part : Option Nat} (h : ∀ m ∈ part, m < limit)
    {rest : List UInt8} (hrest : NoDigit rest) : parseZonePart limit (partText part ++ rest) = some (part.getD 0, rest) := by
  cases part with
  | none =>
    cases rest with
    | nil => rfl
    | cons c rest =>
      show parseZonePart limit (c :: rest) = _
      simp only [parseZonePart, hrest c rfl, Option.isSome_none, Bool.false_eq_true, if_false]
      rfl
  | some m =>
    have hm := h m rfl
    have hdigit : (decimalVal (digitAt m 10)).isSome := by
      rw [decimalVal_digitAt]
      rfl
    have hparse := parse2digit_text (show m < 100 by omega) rest
    show parseZonePart limit (digitAt m 10 :: (digitAt m 1 :: rest)) = _
    unfold parseZonePart
    dsimp only
    rw [if_pos hdigit, show parse2digit (digitAt m 10 :: digitAt m 1 :: rest) = some (m, rest) from hparse]
    exact if_pos hm

theorem parseZonePart_eq_some {limit value : Nat} {s rest : List UInt8} (h : parseZonePart limit s = some (value, rest)) :
    ∃ part : Option Nat, (∀ m ∈ part, m < limit) ∧ s = partText part ++ rest ∧ value = part.getD 0 := by
  cases s with
  | nil =>
    cases h
    exact ⟨none, nofun, rfl, rfl⟩
  | cons c tail =>
    unfold parseZonePart at h
    dsimp only at h
    split at h
    · obtain ⟨⟨m, rest'⟩, hparse, hm⟩ := Option.bind_eq_some_iff.mp h
      dsimp only at hm
      split at hm
      · rename_i hlt
        cases hm
        refine ⟨some value, ?_, (parse2digit_eq_some hparse).2, rfl⟩
        intro m hm
        exact Option.some.inj hm ▸ hlt
      · cases hm
    · cases h
      exact ⟨none, nofun, rfl, rfl⟩

def parseZoneSecond (rest : List UInt8) : Option (Nat × List UInt8) :=
  (expect [0x3A] rest).elim (some (0, rest)) (parseZonePart 60)

theorem parseZoneParts_eq_some {s rest : List UInt8} {hour minute second ms : Nat} :
    parseZoneParts s = some ((hour, minute, second, ms), rest) ↔
      ∃ hours minutes seconds, (parse2digit s = some (hour, hours) ∧ hour ≤ 23) ∧
        parseZonePart 60 ((expect [0x3A] hours).getD hours) = some (minute, minutes) ∧
        parseZoneSecond minutes = some (second, seconds) ∧ readFraction 3 seconds = (ms, rest) := by
  unfold parseZoneParts
  simp only [Option.bind_eq_bind, Option.bind_eq_some_iff, Option.guard_eq_some']
  constructor
  · rintro ⟨⟨hour', hours⟩, hhour, _, hle, ⟨minute', minutes⟩, hminute, h⟩
    unfold parseZoneSecond
    cases hcolon : expect [0x3A] minutes with
    | none =>
      rw [hcolon] at h
      cases h
      exact ⟨hours, minutes, minutes, ⟨hhour, Nat.not_lt.mp hle⟩, hminute, by rw [hcolon]; rfl, rfl⟩
    | some tail =>
      rw [hcolon] at h
      obtain ⟨⟨second', seconds⟩, hsecond, h⟩ := Option.bind_eq_some_iff.mp h
      cases h
      exact ⟨hours, minutes, seconds, ⟨hhour, Nat.not_lt.mp hle⟩, hminute, by rw [hcolon]; exact hsecond, rfl⟩
  · rintro ⟨hours, minutes, seconds, ⟨hhour, hle⟩, hminute, hsecond, hrest⟩
    refine ⟨_, hhour, (), Nat.not_lt.mpr hle, _, hminute, ?_⟩
    unfold parseZoneSecond at hsecond
    dsimp only
    cases hcolon : expect [0x3A] minutes with
    | none =>
      rw [hcolon] at hsecond
      cases hsecond
      show some ((hour, minute, 0, (readFraction 3 minutes).1), (readFraction 3 minutes).2) = _
      rw [hrest]
    | some tail =>
      rw [hcolon] at hsecond
      dsimp only
      rw [show parseZonePart 60 tail = some (second, seconds) from hsecond, Option.bind_some]
      show some ((hour, minute, second, (readFraction 3 seconds).1), (readFraction 3 seconds).2) = _
      rw [hrest]

theorem expect_fractionText (fraction : Option (List UInt8)) : expect [0x3A] (fractionText fraction) = none := by
  cases fraction with
  | none => rfl
  | some digits => rfl

theorem OffsetText.Valid.expect_parts {text : OffsetText} (h : text.Valid) :
    (expect [0x3A] text.parts).getD text.parts =
      partText text.minute ++ (secondText text.second ++ fractionText text.fraction) := by
  obtain ⟨negative, hour, colon, minute, second, fraction⟩ := text
  cases colon with
  | true => rfl
  | false =>
    have hnone : expect [0x3A] (partText minute ++ (secondText second ++ fractionText fraction)) = none := by
      cases minute with
      | some m =>
        rw [expect_eq_none]
        intro c hc hmem
        have hdigit := decimalVal_digitAt m 10
        rw [Option.some.inj hc, List.mem_singleton.mp hmem] at hdigit
        cases hdigit
      | none =>
        have hsecond : second = none := h.colon rfl rfl
        rw [hsecond]
        exact expect_fractionText fraction
    show (expect [0x3A] (partText minute ++ (secondText second ++ fractionText fraction))).getD _ = _
    rw [hnone]
    rfl

theorem parseZoneSecond_text {second : Option (Option Nat)} (h : ∀ s ∈ second, ∀ value ∈ s, value < 60)
    (fraction : Option (List UInt8)) : parseZoneSecond (secondText second ++ fractionText fraction) =
      some ((second.bind id).getD 0, fractionText fraction) := by
  unfold parseZoneSecond
  cases second with
  | none =>
    show (expect [0x3A] (fractionText fraction)).elim (some (0, fractionText fraction)) _ = _
    rw [expect_fractionText]
    rfl
  | some s => exact parseZonePart_text (by decide) (h s rfl) (noDigit_fractionText fraction)

theorem parseZoneParts_text {text : OffsetText} (h : text.Valid) :
    parseZoneParts (twoDigits text.hour ++ text.parts) =
      some ((text.hour, text.minute.getD 0, (text.second.bind id).getD 0, text.subsecond), []) := by
  have hhour := h.hour
  have hfraction := readFraction_text 3 h.fraction noDigit_nil rfl
  rw [List.append_nil] at hfraction
  refine parseZoneParts_eq_some.mpr ⟨text.parts, _, _, ⟨parse2digit_text (by omega) _, hhour⟩, ?_,
    parseZoneSecond_text h.second text.fraction, hfraction⟩
  rw [h.expect_parts]
  exact parseZonePart_text (by decide) h.minute (noDigit_secondText _ _)

theorem parseZoneSecond_eq_some {s rest : List UInt8} {value : Nat} (h : parseZoneSecond s = some (value, rest)) :
    ∃ second : Option (Option Nat), (∀ part ∈ second, ∀ m ∈ part, m < 60) ∧ s = secondText second ++ rest ∧
      value = (second.bind id).getD 0 := by
  unfold parseZoneSecond at h
  cases hcolon : expect [0x3A] s with
  | none =>
    rw [hcolon] at h
    cases h
    exact ⟨none, nofun, rfl, rfl⟩
  | some tail =>
    rw [hcolon] at h
    obtain ⟨c, hc, rfl⟩ := expect_eq_some.mp hcolon
    obtain ⟨part, hlt, rfl, rfl⟩ := parseZonePart_eq_some h
    refine ⟨some part, fun _ heq => Option.some.inj heq ▸ hlt, ?_, rfl⟩
    rw [List.mem_singleton.mp hc]
    rfl

theorem parseZoneParts_offset {s : List UInt8} {hour minute second ms : Nat} (negative : Bool)
    (h : parseZoneParts s = some ((hour, minute, second, ms), [])) :
    ∃ text : OffsetText, text.Valid ∧ text.negative = negative ∧ s = twoDigits text.hour ++ text.parts ∧
      (hour, minute, second, ms) = (text.hour, text.minute.getD 0, (text.second.bind id).getD 0, text.subsecond) := by
  obtain ⟨hours, minutes, seconds, ⟨hhour, hle⟩, hminute, hsecond, hms⟩ := parseZoneParts_eq_some.mp h
  obtain ⟨-, rfl⟩ := parse2digit_eq_some hhour
  obtain ⟨minute', hminute', hminutes, rfl⟩ := parseZonePart_eq_some hminute
  obtain ⟨second', hsecond', rfl, rfl⟩ := parseZoneSecond_eq_some hsecond
  obtain ⟨fraction, hfraction, rfl, rfl, -⟩ := readFraction_eq 3 hms
  rw [List.append_nil] at hminutes
  cases hcolon : expect [0x3A] hours with
  | some tail =>
    obtain ⟨c, hc, rfl⟩ := expect_eq_some.mp hcolon
    rw [hcolon] at hminutes
    refine ⟨⟨negative, hour, true, minute', second', fraction⟩, ⟨hle, hminute', hsecond', hfraction, nofun⟩, rfl, ?_, rfl⟩
    rw [List.mem_singleton.mp hc, show tail = _ from hminutes]
    rfl
  | none =>
    rw [hcolon] at hminutes
    refine ⟨⟨negative, hour, false, minute', second', fraction⟩, ⟨hle, hminute', hsecond', hfraction, ?_⟩, rfl, ?_, rfl⟩
    · -- a colon without minutes before it would have been skipped
      intro _ hnone
      obtain rfl : minute' = none := hnone
      cases second' with
      | none => rfl
      | some part =>
        rw [show hours = _ from hminutes] at hcolon
        cases hcolon
    · rw [show hours = _ from hminutes]
      rfl

theorem OffsetText.Valid.range {text : OffsetText} (h : text.Valid) :
    text.seconds * 1000 + text.subsecond ≤ 86400000 := by
  have hhour := h.hour
  have hminute : text.minute.getD 0 < 60 := by
    cases hm : text.minute with
    | none => decide
    | some m => exact h.minute m hm
  have hsecond : (text.second.bind id).getD 0 < 60 := by
    cases hs : text.second with
    | none => decide
    | some part =>
      cases part with
      | none => decide
      | some value => exact h.second _ hs value rfl
  have hsubsecond : text.subsecond < 1000 := by
    unfold OffsetText.subsecond
    cases hf : text.fraction with
    | none => decide
    | some digits => exact fractionValue_lt 3 (h.fraction digits hf)
  unfold OffsetText.seconds
  omega

/-- The seconds that the code takes from the instant: the offset without its part below a second. -/
def ZoneText.offsetSeconds : ZoneText → Int
  | .offset text => if text.negative then -(text.seconds : Int) else text.seconds
  | _ => 0

theorem parseZone_sign (negative : Bool) {tail rest : List UInt8} {offset offsetMs : Int} :
    parseZone ((if negative then 0x2D else 0x2B) :: tail) = some (offset, offsetMs, rest) ↔
      ∃ hour minute second ms, parseZoneParts tail = some ((hour, minute, second, ms), rest) ∧
        offset = (if negative then -((hour : Int) * 3600 + minute * 60 + second) else (hour : Int) * 3600 + minute * 60 + second) ∧
        offsetMs = (if negative then -((hour : Int) * 3600000 + minute * 60000 + second * 1000 + ms)
          else (hour : Int) * 3600000 + minute * 60000 + second * 1000 + ms) ∧
        ¬(offsetMs < -86400000 ∨ offsetMs > 86400000) := by
  have hplus : ¬((0x2B : UInt8) = 0x5A ∨ (0x2B : UInt8) = 0x7A) := by decide
  have hminus : ¬((0x2D : UInt8) = 0x5A ∨ (0x2D : UInt8) = 0x7A) := by decide
  have hnot : ¬(0x2B : UInt8) = 0x2D := by decide
  cases negative
  all_goals
    simp only [parseZone, Bool.false_eq_true, if_false, if_true, hplus, hminus, hnot, or_true, or_false,
      Option.bind_eq_bind, Option.bind_eq_some_iff, Option.guard_eq_some', Option.some.injEq, Prod.mk.injEq]
    constructor
    · rintro ⟨⟨⟨hour, minute, second, ms⟩, rest'⟩, hparts, _, hrange, rfl, rfl, rfl⟩
      exact ⟨hour, minute, second, ms, hparts, rfl, rfl, hrange⟩
    · rintro ⟨hour, minute, second, ms, hparts, rfl, rfl, hrange⟩
      exact ⟨_, hparts, (), hrange, rfl, rfl, rfl⟩

theorem parseZone_text {zone : ZoneText} (h : zone.Valid) :
    parseZone zone.text = some (zone.offsetSeconds, zone.milliseconds, []) := by
  cases zone with
  | none => rfl
  | utc letter =>
    rcases h with rfl | rfl <;> rfl
  | offset text =>
    have hrange := OffsetText.Valid.range h
    refine (parseZone_sign text.negative).mpr ⟨_, _, _, _, parseZoneParts_text h, ?_, ?_, ?_⟩
    all_goals
      simp only [ZoneText.offsetSeconds, ZoneText.milliseconds]
      unfold OffsetText.seconds at *
      cases text.negative
    all_goals
      simp only [Bool.false_eq_true, if_false, if_true]
      omega

theorem parseZone_eq_some {s : List UInt8} {offset offsetMs : Int} (h : parseZone s = some (offset, offsetMs, [])) :
    ∃ zone : ZoneText, zone.Valid ∧ s = zone.text := by
  cases s with
  | nil => exact ⟨.none, trivial, rfl⟩
  | cons c tail =>
    by_cases hutc : c = 0x5A ∨ c = 0x7A
    · simp only [parseZone, if_pos hutc, Option.some.injEq, Prod.mk.injEq] at h
      exact ⟨.utc c, hutc, by rw [h.2.2]; rfl⟩
    · by_cases hsign : c = 0x2B ∨ c = 0x2D
      · obtain ⟨negative, rfl⟩ : ∃ negative : Bool, c = if negative then 0x2D else 0x2B := by
          rcases hsign with rfl | rfl
          · exact ⟨false, rfl⟩
          · exact ⟨true, rfl⟩
        obtain ⟨hour, minute, second, ms, hparts, -⟩ := (parseZone_sign negative).mp h
        obtain ⟨text, hvalid, rfl, rfl, -⟩ := parseZoneParts_offset negative hparts
        exact ⟨.offset text, hvalid, rfl⟩
      · simp only [parseZone, if_neg hutc, if_neg hsign, Option.some.injEq, Prod.mk.injEq] at h
        cases h.2.2

/-! ## Dates and times of day -/

theorem maxDay_eq {year month : Nat} (h : 1 ≤ month ∧ month ≤ 12) : maxDay year month = monthLength year month := by
  obtain ⟨hlow, hhigh⟩ := h
  unfold maxDay monthLength
  by_cases hleap : IsLeap year
  all_goals
    unfold IsLeap at *
    simp only [hleap, and_true, and_false, if_true, if_false]
    interval_cases month <;> rfl

theorem monthLength_le (year month : Nat) : monthLength year month ≤ 31 := by
  unfold monthLength
  split
  · split <;> omega
  · split <;> omega

def TimestampText.dateTime (text : TimestampText) (rest : List UInt8) : List UInt8 :=
  fourDigits text.year ++ 0x2D :: (twoDigits text.month ++ 0x2D :: (twoDigits text.day ++ text.separator ::
    (twoDigits text.hour ++ 0x3A :: (twoDigits text.minute ++ 0x3A :: (twoDigits text.second ++ rest)))))

theorem parseDateTime_text {text : TimestampText} (h : text.Valid) (rest : List UInt8) :
    parseDateTime (text.dateTime rest) = some (text.civilSeconds, rest) := by
  obtain ⟨hyear, hmonth, hday, hseparator, hhour, hminute, hsecond, -, -⟩ := h
  have hlength := monthLength_le text.year text.month
  have hmax : ¬(text.day < 1 ∨ text.day > maxDay text.year text.month) := by
    rw [maxDay_eq hmonth]
    omega
  unfold TimestampText.civilSeconds
  rw [← daysFromCivil_eq hmonth hday.1]
  simp only [parseDateTime, Option.bind_eq_bind, Option.bind_eq_some_iff, Option.guard_eq_some']
  exact ⟨_, parse4digit_text hyear _, _, expect_cons (List.mem_singleton_self _) _,
    _, parse2digit_text (by omega) _, (), by omega, _, expect_cons (List.mem_singleton_self _) _,
    _, parse2digit_text (by omega) _, (), hmax, _, expect_cons hseparator _,
    _, parse2digit_text (by omega) _, (), by omega, _, expect_cons (List.mem_singleton_self _) _,
    _, parse2digit_text (by omega) _, (), by omega, _, expect_cons (List.mem_singleton_self _) _,
    _, parse2digit_text (by omega) _, (), by omega, rfl⟩

theorem parseDateTime_eq_some {str rest : List UInt8} {secs : Int} (h : parseDateTime str = some (secs, rest))
    {fraction : Option (List UInt8)} (hfraction : ∀ digits ∈ fraction, AllDecimal digits) {zone : ZoneText}
    (hzone : zone.Valid) : ∃ text : TimestampText, text.Valid ∧ text.fraction = fraction ∧ text.zone = zone ∧
      str = text.dateTime rest := by
  simp only [parseDateTime, Option.bind_eq_bind, Option.bind_eq_some_iff, Option.guard_eq_some'] at h
  obtain ⟨⟨year, _⟩, hyear, _, hdash, ⟨month, _⟩, hmonth, _, hmonths, _, hdash', ⟨day, _⟩, hday, _, hdays, _, hsep,
    ⟨hour, _⟩, hhour, _, hhours, _, hcolon, ⟨minute, _⟩, hminute, _, hminutes, _, hcolon', ⟨second, _⟩, hsecond, _,
    hseconds, h⟩ := h
  dsimp only at *
  obtain ⟨-, rfl⟩ := Prod.mk.inj (Option.some.inj h)
  obtain ⟨hyears, rfl⟩ := parse4digit_eq_some hyear
  obtain ⟨-, rfl⟩ := parse2digit_eq_some hmonth
  obtain ⟨-, rfl⟩ := parse2digit_eq_some hday
  obtain ⟨-, rfl⟩ := parse2digit_eq_some hhour
  obtain ⟨-, rfl⟩ := parse2digit_eq_some hminute
  obtain ⟨-, rfl⟩ := parse2digit_eq_some hsecond
  obtain ⟨c₁, hc₁, rfl⟩ := expect_eq_some.mp hdash
  obtain ⟨c₂, hc₂, rfl⟩ := expect_eq_some.mp hdash'
  obtain ⟨separator, hseparator, rfl⟩ := expect_eq_some.mp hsep
  obtain ⟨c₃, hc₃, rfl⟩ := expect_eq_some.mp hcolon
  obtain ⟨c₄, hc₄, rfl⟩ := expect_eq_some.mp hcolon'
  obtain rfl := List.mem_singleton.mp hc₁
  obtain rfl := List.mem_singleton.mp hc₂
  obtain rfl := List.mem_singleton.mp hc₃
  obtain rfl := List.mem_singleton.mp hc₄
  have hmonthRange : 1 ≤ month ∧ month ≤ 12 := by omega
  rw [maxDay_eq hmonthRange] at hdays
  exact ⟨⟨year, month, day, separator, hour, minute, second, fraction, zone⟩,
    ⟨hyears, hmonthRange, by dsimp only; omega, hseparator, by dsimp only; omega, by dsimp only; omega,
      by dsimp only; omega, hfraction, hzone⟩, rfl, rfl, rfl⟩

/-! ## Timestamps -/

theorem TimestampText.text_eq (text : TimestampText) :
    text.text = text.dateTime (fractionText text.fraction ++ text.zone.text) := rfl

theorem zoneText_head {zone : ZoneText} (h : zone.Valid) : NoDigit zone.text ∧ expect [0x2E] zone.text = none := by
  cases zone with
  | none => exact ⟨noDigit_nil, rfl⟩
  | utc letter =>
    rcases h with rfl | rfl
    · exact ⟨noDigit_cons (by decide), rfl⟩
    · exact ⟨noDigit_cons (by decide), rfl⟩
  | offset text =>
    show NoDigit ((if text.negative then 0x2D else 0x2B) :: _) ∧ expect _ ((if text.negative then 0x2D else 0x2B) :: _) = none
    cases text.negative with
    | true => exact ⟨noDigit_cons (by decide), rfl⟩
    | false => exact ⟨noDigit_cons (by decide), rfl⟩

theorem parseTimestamp_text {text : TimestampText} (h : text.Valid) :
    parseTimestamp text.text =
      some (text.civilSeconds - text.zone.offsetSeconds, (text.nanoseconds : Int), text.zone.milliseconds) := by
  obtain ⟨hdigit, hpoint⟩ := zoneText_head h.zone
  simp only [parseTimestamp, Option.bind_eq_bind, Option.bind_eq_some_iff, Option.guard_eq_some', text.text_eq]
  refine ⟨(), ?_, _, parseDateTime_text h _, ?_⟩
  · have hlength : 19 ≤ (text.dateTime (fractionText text.fraction ++ text.zone.text)).length := Nat.le_add_left 19 _
    exact (Option.guard_eq_some' ()).mpr (Nat.not_lt.mpr hlength)
  · have hnanos : parseNanos (fractionText text.fraction ++ text.zone.text) = (text.nanoseconds, text.zone.text) :=
      readFraction_text 9 h.fraction hdigit hpoint
    dsimp only
    rw [hnanos]
    exact ⟨_, parseZone_text h.zone, (), rfl, rfl⟩

theorem parseTimestamp_eq_some {str : List UInt8} {out : Int × Int × Int} (h : parseTimestamp str = some out) :
    ∃ text : TimestampText, text.Valid ∧ text.text = str := by
  simp only [parseTimestamp, Option.bind_eq_bind, Option.bind_eq_some_iff, Option.guard_eq_some'] at h
  obtain ⟨_, -, ⟨secs, rest⟩, hdateTime, ⟨offset, offsetMs, rest'⟩, hzone, _, hrest, -⟩ := h
  dsimp only at hrest hzone
  subst hrest
  obtain ⟨fraction, hfraction, hrest, -⟩ := readFraction_eq 9 (show readFraction 9 rest = ((parseNanos rest).1, (parseNanos rest).2) from rfl)
  obtain ⟨zone, hvalid, hzoneText⟩ := parseZone_eq_some hzone
  obtain ⟨text, htext, rfl, rfl, rfl⟩ := parseDateTime_eq_some hdateTime hfraction hvalid
  rw [hzoneText] at hrest
  exact ⟨text, htext, by rw [text.text_eq, ← hrest]⟩

theorem ZoneText.milliseconds_eq (zone : ZoneText) : zone.milliseconds = zone.offsetSeconds * 1000 ↔ zone.Whole := by
  cases zone with
  | none => exact iff_of_true rfl trivial
  | utc letter => exact iff_of_true rfl trivial
  | offset text =>
    show (if text.negative then _ else _) = (if text.negative then _ else _) * 1000 ↔ text.subsecond = 0
    cases text.negative
    all_goals
      simp only [Bool.false_eq_true, if_false, if_true]
      omega

/-- A literal that is taken is a text, and its outputs are the offset and the instant that the
text says, unless the offset has a part below a second. -/
theorem timestampInstant_iff {str : List UInt8} {seconds nanos offsetMs : Int}
    (h : parseTimestamp str = some (seconds, nanos, offsetMs)) :
    (∃ text : TimestampText, text.Valid ∧ text.text = str) ∧
      ∀ text : TimestampText, text.Valid → text.text = str → (Denotes text seconds nanos offsetMs ↔ text.zone.Whole) := by
  refine ⟨parseTimestamp_eq_some h, ?_⟩
  rintro text hvalid rfl
  have hnanos := (parseTimestamp_ranges h).1
  rw [parseTimestamp_text hvalid] at h
  obtain ⟨rfl, rfl, rfl⟩ : _ ∧ _ ∧ _ := by simpa using h
  unfold Denotes
  rw [← text.zone.milliseconds_eq]
  omega

def leapDay : TimestampText :=
  ⟨2024, 2, 29, 0x20, 12, 0, 0, some [0x32, 0x35], .offset ⟨true, 1, true, some 30, none, none⟩⟩

theorem leapDay_valid : leapDay.Valid where
  year := by decide
  month := by decide
  day := by decide
  separator := by decide
  hour := by decide
  minute := by decide
  second := by decide
  fraction := by
    rintro _ ⟨⟩ c hc
    have hdigits : ([(0x32 : UInt8), 0x35].all fun c => (decimalVal c).isSome) = true := by decide
    exact List.all_eq_true.mp hdigits c hc
  zone := {
    hour := by decide
    minute := by rintro _ ⟨⟩; decide
    second := nofun
    fraction := nofun
    colon := nofun }

theorem timestampInstant_leapDay : parseTimestamp leapDay.text = some (1709213400, 250000000, -5400000) ∧
    Denotes leapDay 1709213400 250000000 (-5400000) := by
  have hparse : parseTimestamp leapDay.text = some (1709213400, 250000000, -5400000) := by decide
  refine ⟨hparse, ?_⟩
  exact ((timestampInstant_iff hparse).2 leapDay leapDay_valid rfl).mpr rfl

def halfSecondZone : TimestampText :=
  ⟨1970, 1, 1, 0x54, 0, 0, 0, none, .offset ⟨false, 0, true, some 0, some (some 0), some [0x35]⟩⟩

theorem halfSecondZone_valid : halfSecondZone.Valid where
  year := by decide
  month := by decide
  day := by decide
  separator := by decide
  hour := by decide
  minute := by decide
  second := by decide
  fraction := nofun
  zone := {
    hour := by decide
    minute := by rintro _ ⟨⟩; decide
    second := by rintro _ ⟨⟩ _ ⟨⟩; decide
    fraction := by rintro _ ⟨⟩ c hc; rw [List.mem_singleton.mp hc]; rfl
    colon := nofun }

/-- The half second of the offset comes out as the offset, but the instant does not have it. -/
theorem timestampInstant_halfSecond : parseTimestamp halfSecondZone.text = some (0, 0, 500) ∧
    halfSecondZone.Valid ∧ ¬Denotes halfSecondZone 0 0 500 := by
  have hparse : parseTimestamp halfSecondZone.text = some (0, 0, 500) := by decide
  refine ⟨hparse, halfSecondZone_valid, ?_⟩
  have hcivil : halfSecondZone.civilSeconds = 0 := by
    show epochDay 1970 1 1 * 86400 + (0 : Nat) * 3600 + (0 : Nat) * 60 + (0 : Nat) = 0
    rw [epochDay_epoch]
    rfl
  rintro ⟨-, -, hinstant⟩
  rw [hcivil] at hinstant
  revert hinstant
  decide

end Bebop.Compiler
