import Bebop.Compiler.DecimalText
import Bebop.Compiler.IntegerLiteral

/-!
# Bebop — duration literals

`bebop_util_parse_duration` of `bebop_utils.c`, against what a literal says: a sign, and
the sum of numbers with units. The code also takes numbers without a digit and drops a
number without a unit that stands behind others, it cuts fractions off behind nine digits,
and it keeps the sum without its sign.
-/

namespace Bebop.Compiler

/-! ## The code -/

def INT64_MAX : Nat := 2 ^ 63 - 1

def UINT64_MAX : Nat := 2 ^ 64 - 1

/-- The digits in front of a point: `val` and `digits`. -/
def parseDurationDigits : (val digits : Nat) → List UInt8 → Option (Nat × Nat × List UInt8)
  | val, digits, [] => some (val, digits, [])
  | val, digits, c :: rest =>
    match decimalVal c with
    | some d => if val > (UINT64_MAX - d) / 10 then none else parseDurationDigits (val * 10 + d) (digits + 1) rest
    | none => some (val, digits, c :: rest)

/-- `val`, `frac_nanos` and `frac_digits`. Behind a point `frac_digits` is 9 in any case,
since the digits that are missing are counted too. -/
def parseDurationNumber (rest : List UInt8) : Option ((Nat × Nat × Nat) × List UInt8) := do
  let (val, digits, rest) ← parseDurationDigits 0 0 rest
  let (fracNanos, rest') := readFraction 9 rest
  let fracDigits := if (expect [0x2E] rest).isSome then 9 else 0
  guard ¬(digits = 0 ∧ fracDigits = 0)
  some ((val, fracNanos, fracDigits), rest')

/-- `*p == 's' || *p == 'S'` -/
def skipS (rest : List UInt8) : Option (List UInt8) := expect [0x73, 0x53] rest

/-- `multiplier_ns` -/
def parseDurationUnit : List UInt8 → Option (Nat × List UInt8)
  | [] => none
  | unit :: rest =>
    if unit = 0x68 ∨ unit = 0x48 then some (3600000000000, rest)
    else if unit = 0x6D ∨ unit = 0x4D then
      match skipS rest with
      | some rest => some (1000000, rest)
      | none => some (60000000000, rest)
    else if unit = 0x73 ∨ unit = 0x53 then some (1000000000, rest)
    else if unit = 0x75 then some (1000, (skipS rest).getD rest)
    else if unit = 0x6E then some (1, (skipS rest).getD rest)
    else none

/-- `add`, with the overflows that are checked on the way. -/
def durationAdd (val fracNanos fracDigits multiplierNs : Nat) : Option Nat :=
  if val > INT64_MAX / multiplierNs then none
  else
    let add := val * multiplierNs
    if fracDigits > 0 then
      let fracContrib :=
        if multiplierNs ≥ 1000000000 then fracNanos * (multiplierNs / 1000000000)
        else fracNanos / (1000000000 / multiplierNs)
      if fracContrib > INT64_MAX - add then none else some (add + fracContrib)
    else some add

/-- A number of seconds at the end of the text, with nothing in front of it. -/
def durationBare (val fracNanos : Nat) : Option Nat :=
  if val > INT64_MAX / 1000000000 then none
  else
    let whole := val * 1000000000
    if fracNanos > INT64_MAX - whole then none else some (whole + fracNanos)

/-- One turn of the loop: the sum at the end of the text, or the sum so far and the rest. -/
def durationStep (total : Nat) (hadValue : Bool) (rest : List UInt8) : Option (Nat ⊕ Nat × List UInt8) := do
  let ((val, fracNanos, fracDigits), rest) ← parseDurationNumber rest
  if rest = [] then
    if hadValue then some (.inl total) else (durationBare val fracNanos).map .inl
  else
    let (multiplierNs, rest) ← parseDurationUnit rest
    let add ← durationAdd val fracNanos fracDigits multiplierNs
    if add > INT64_MAX - total then none else some (.inr (total + add, rest))

/-! ## Texts -/

structure NumberText where
  whole : List UInt8
  fraction : Option (List UInt8)

variable (number : NumberText)

def NumberText.text : List UInt8 := number.whole ++ fractionText number.fraction

/-- What the code takes for a number: a point is enough. -/
structure NumberText.Read (number : NumberText) : Prop where
  whole : AllDecimal number.whole
  fraction : ∀ digits ∈ number.fraction, AllDecimal digits
  present : number.whole ≠ [] ∨ number.fraction.isSome

def NumberText.HasDigit : Prop := number.whole ≠ [] ∨ ∃ digits ∈ number.fraction, digits ≠ []

inductive DurationUnit
  | hours
  | minutes
  | seconds
  | milliseconds
  | microseconds
  | nanoseconds

def DurationUnit.size : DurationUnit → Nat
  | hours => 3600000000000
  | minutes => 60000000000
  | seconds => 1000000000
  | milliseconds => 1000000
  | microseconds => 1000
  | nanoseconds => 1

/-- h, m, s, ms, us and ns, where the first four can have capitals, the last two a
capital S or none. -/
def DurationUnit.spellings : DurationUnit → List (List UInt8)
  | hours => [[0x68], [0x48]]
  | minutes => [[0x6D], [0x4D]]
  | seconds => [[0x73], [0x53]]
  | milliseconds => [[0x6D, 0x73], [0x6D, 0x53], [0x4D, 0x73], [0x4D, 0x53]]
  | microseconds => [[0x75], [0x75, 0x73], [0x75, 0x53]]
  | nanoseconds => [[0x6E], [0x6E, 0x73], [0x6E, 0x53]]

structure ComponentText where
  number : NumberText
  unit : DurationUnit
  spelling : List UInt8

def ComponentText.text (component : ComponentText) : List UInt8 := component.number.text ++ component.spelling

structure ComponentText.Read (component : ComponentText) : Prop where
  number : component.number.Read
  spelling : component.spelling ∈ component.unit.spellings

/-- A duration: its sign, and numbers with units in front of one that may have none. -/
structure DurationText where
  negative : Option Bool
  components : List ComponentText
  last : Option NumberText

variable (components : List ComponentText)

def partsText (last : Option NumberText) : List UInt8 :=
  components.flatMap ComponentText.text ++ last.elim [] NumberText.text

def DurationText.text (text : DurationText) : List UInt8 :=
  text.negative.elim [] (fun negative => [if negative then 0x2D else 0x2B]) ++ partsText text.components text.last

/-- What the code takes for a duration, but for the size of its numbers. -/
structure DurationText.Read (text : DurationText) : Prop where
  components : ∀ component ∈ text.components, component.Read
  last : ∀ number ∈ text.last, number.Read
  present : text.components ≠ [] ∨ text.last.isSome

/-- A literal: every number has a digit, and a number without a unit is alone. -/
structure DurationText.Literal (text : DurationText) : Prop extends text.Read where
  digits : ∀ component ∈ text.components, component.number.HasDigit
  lastDigits : ∀ number ∈ text.last, number.HasDigit
  alone : text.last.isSome → text.components = []

/-! ## Values -/

def NumberText.value (unit : Nat) : Nat :=
  decimalValue number.whole * unit +
    number.fraction.elim 0 fun digits => decimalValue digits * unit / 10 ^ digits.length

/-- So many units, with the fraction cut off behind nine digits. -/
def NumberText.cut (unit : Nat) : Nat :=
  decimalValue number.whole * unit + number.fraction.elim 0 (fractionValue 9) * unit / 10 ^ 9

def ComponentText.value (component : ComponentText) : Nat := component.number.value component.unit.size

def ComponentText.cut (component : ComponentText) : Nat := component.number.cut component.unit.size

def sumValue : Nat := (components.map ComponentText.value).sum

/-- The nanoseconds of components, as the code counts them. -/
def sumCut : Nat := (components.map ComponentText.cut).sum

def DurationText.total (text : DurationText) : Nat :=
  sumValue text.components + text.last.elim 0 (NumberText.value · DurationUnit.seconds.size)

def DurationText.value (text : DurationText) : Int := signedInt (text.negative.getD false) text.total

def InInt64 (value : Int) : Prop := -2 ^ 63 ≤ value ∧ value ≤ 2 ^ 63 - 1

/-! ## Numbers -/

theorem le_decimalValue (value : Nat) (digits : List UInt8) :
    value ≤ digits.foldl (fun value c => value * 10 + (decimalVal c).getD 0) value := by
  induction digits generalizing value with
  | nil => exact Nat.le_refl _
  | cons c digits ih =>
    have hnext := ih (value * 10 + (decimalVal c).getD 0)
    rw [List.foldl_cons]
    omega

theorem parseDurationDigits_text (val count : Nat) {digits rest : List UInt8} (h : AllDecimal digits) (hrest : NoDigit rest)
    (hval : val ≤ UINT64_MAX) : parseDurationDigits val count (digits ++ rest) =
      if digits.foldl (fun value c => value * 10 + (decimalVal c).getD 0) val ≤ UINT64_MAX then
        some (digits.foldl (fun value c => value * 10 + (decimalVal c).getD 0) val, count + digits.length, rest)
      else none := by
  induction digits generalizing val count with
  | nil =>
    rw [List.foldl_nil, if_pos hval]
    cases rest with
    | nil => rfl
    | cons c rest =>
      show (match decimalVal c with
        | some d => _
        | none => some (val, count, c :: rest)) = _
      rw [hrest c rfl]
      rfl
  | cons c digits ih =>
    obtain ⟨hc, hdigits⟩ := List.forall_mem_cons.mp h
    obtain ⟨d, hd⟩ := Option.isSome_iff_exists.mp hc
    have hlt := decimalVal_lt hd
    rw [List.cons_append, parseDurationDigits, hd, List.foldl_cons, hd, Option.getD_some, List.length_cons]
    dsimp only
    split
    · -- the digit makes the number too large, and no digit behind it makes it smaller
      have hle := le_decimalValue (val * 10 + d) digits
      rw [if_neg]
      unfold UINT64_MAX at *
      omega
    · rw [ih _ _ hdigits (by unfold UINT64_MAX at *; omega)]
      rw [show count + 1 + digits.length = count + (digits.length + 1) by omega]

def NumberText.fracDigits : Nat := if number.fraction.isSome then 9 else 0

def NumberText.fracNanos : Nat := number.fraction.elim 0 (fractionValue 9)

theorem isSome_expect_fractionText {fraction : Option (List UInt8)} {rest : List UInt8} (h : expect [0x2E] rest = none) :
    (expect [0x2E] (fractionText fraction ++ rest)).isSome = fraction.isSome := by
  cases fraction with
  | none =>
    show (expect [0x2E] rest).isSome = false
    rw [h]
    rfl
  | some digits => rfl

theorem noDigit_fraction (fraction : Option (List UInt8)) {rest : List UInt8} (h : NoDigit rest) :
    NoDigit (fractionText fraction ++ rest) := by
  cases fraction with
  | none => exact h
  | some digits => exact noDigit_cons (by decide)

theorem parseDurationNumber_text {number : NumberText} (h : number.Read) {rest : List UInt8} (hrest : NoDigit rest)
    (hpoint : expect [0x2E] rest = none) : parseDurationNumber (number.text ++ rest) =
      if decimalValue number.whole ≤ UINT64_MAX then
        some ((decimalValue number.whole, number.fracNanos, number.fracDigits), rest)
      else none := by
  have hdigits := parseDurationDigits_text 0 0 h.whole (noDigit_fraction number.fraction hrest) (Nat.zero_le _)
  unfold parseDurationNumber NumberText.text
  rw [List.append_assoc, hdigits]
  split
  · rename_i hfits
    have hfits' : decimalValue number.whole ≤ UINT64_MAX := hfits
    have hnot : ¬(0 + number.whole.length = 0 ∧ (if number.fraction.isSome then 9 else 0) = 0) := by
      rintro ⟨hwhole, hfraction⟩
      rcases h.present with hpresent | hpresent
      · exact hpresent (List.eq_nil_of_length_eq_zero (by omega))
      · rw [if_pos hpresent] at hfraction
        cases hfraction
    simp only [Option.bind_eq_bind, Option.bind_some, readFraction_text 9 h.fraction hrest hpoint,
      isSome_expect_fractionText hpoint]
    rw [if_pos hfits', (Option.guard_eq_some' ()).mpr hnot]
    rfl
  · rename_i hlarge
    rw [if_neg (show ¬decimalValue number.whole ≤ UINT64_MAX from hlarge)]
    rfl

theorem parseDurationNumber_eq_some {s rest : List UInt8} {value : Nat × Nat × Nat}
    (h : parseDurationNumber s = some (value, rest)) : ∃ number : NumberText, number.Read ∧ s = number.text ++ rest := by
  obtain ⟨digits, tail, rfl, hdigits, htail⟩ := exists_digits s
  unfold parseDurationNumber at h
  rw [parseDurationDigits_text 0 0 hdigits htail (Nat.zero_le _)] at h
  split at h
  · simp only [Option.bind_eq_bind, Option.bind_some, Option.bind_eq_some_iff, Option.guard_eq_some', Option.some.injEq,
      Prod.mk.injEq] at h
    obtain ⟨_, hpresent, -, hrest⟩ := h
    obtain ⟨fraction, hfraction, htext, -, hpoint⟩ := readFraction_eq 9
      (show readFraction 9 tail = ((readFraction 9 tail).1, rest) from Prod.ext rfl hrest)
    refine ⟨⟨digits, fraction⟩, ⟨hdigits, hfraction, ?_⟩, by rw [htext]; exact (List.append_assoc _ _ _).symm⟩
    rw [← hpoint] at hpresent
    cases fraction with
    | some _ => exact .inr rfl
    | none =>
      refine .inl fun hnil => hpresent ?_
      rw [show digits = [] from hnil]
      exact ⟨rfl, rfl⟩
  · cases h

/-! ## Components -/

theorem spelling_ne_nil {unit : DurationUnit} {spelling : List UInt8} (h : spelling ∈ unit.spellings) : spelling ≠ [] := by
  rintro rfl
  cases unit <;> revert h <;> decide

theorem spelling_head {unit : DurationUnit} {spelling : List UInt8} (h : spelling ∈ unit.spellings) (rest : List UInt8) :
    NoDigit (spelling ++ rest) ∧ expect [0x2E] (spelling ++ rest) = none := by
  have hall : ∀ spelling ∈ unit.spellings, ∀ c ∈ spelling.head?, decimalVal c = none ∧ c ∉ [(0x2E : UInt8)] := by
    cases unit <;> decide +kernel
  cases hspelling : spelling with
  | nil => exact absurd hspelling (spelling_ne_nil h)
  | cons c tail =>
    obtain ⟨hdigit, hpoint⟩ := hall spelling h c (by rw [hspelling]; rfl)
    refine ⟨noDigit_cons hdigit, expect_eq_none.mpr ?_⟩
    intro c' hc
    obtain rfl := Option.some.inj hc
    exact hpoint

theorem parseDurationUnit_text {unit : DurationUnit} {spelling : List UInt8} (h : spelling ∈ unit.spellings)
    {rest : List UInt8} (hrest : skipS rest = none) : parseDurationUnit (spelling ++ rest) = some (unit.size, rest) := by
  have hminute : (match skipS rest with
      | some rest => some (1000000, rest)
      | none => some (60000000000, rest)) = some (DurationUnit.minutes.size, rest) := by
    rw [hrest]
    rfl
  have hskip (size : Nat) : some (size, (skipS rest).getD rest) = some (size, rest) := by
    rw [hrest]
    rfl
  cases unit
  all_goals simp only [DurationUnit.spellings, List.mem_cons, List.not_mem_nil, or_false] at h
  case hours => rcases h with rfl | rfl <;> rfl
  case minutes => rcases h with rfl | rfl <;> exact hminute
  case seconds => rcases h with rfl | rfl <;> rfl
  case milliseconds => rcases h with rfl | rfl | rfl | rfl <;> rfl
  case microseconds =>
    rcases h with rfl | rfl | rfl
    · exact hskip 1000
    · rfl
    · rfl
  case nanoseconds =>
    rcases h with rfl | rfl | rfl
    · exact hskip 1
    · rfl
    · rfl

theorem skipS_eq (rest : List UInt8) : skipS rest = none ∨ ∃ c tail, (c = 0x73 ∨ c = 0x53) ∧ rest = c :: tail ∧
    skipS rest = some tail := by
  unfold skipS
  cases h : expect [0x73, 0x53] rest with
  | none => exact .inl rfl
  | some tail =>
    obtain ⟨c, hc, rfl⟩ := expect_eq_some.mp h
    exact .inr ⟨c, tail, by simpa using hc, rfl, rfl⟩

theorem parseDurationUnit_eq_some {s rest : List UInt8} {size : Nat} (h : parseDurationUnit s = some (size, rest)) :
    ∃ (unit : DurationUnit) (spelling : List UInt8), spelling ∈ unit.spellings ∧ s = spelling ++ rest := by
  cases s with
  | nil => cases h
  | cons c tail =>
    unfold parseDurationUnit at h
    dsimp only at h
    split at h
    · rename_i hc
      cases h
      exact ⟨.hours, [c], by rcases hc with rfl | rfl <;> decide, rfl⟩
    split at h
    · rename_i hc
      rcases skipS_eq tail with hskip | ⟨c', tail', hc', rfl, hskip⟩
      · rw [hskip] at h
        cases h
        exact ⟨.minutes, [c], by rcases hc with rfl | rfl <;> decide, rfl⟩
      · rw [hskip] at h
        cases h
        exact ⟨.milliseconds, [c, c'], by rcases hc with rfl | rfl <;> rcases hc' with rfl | rfl <;> decide, rfl⟩
    split at h
    · rename_i hc
      cases h
      exact ⟨.seconds, [c], by rcases hc with rfl | rfl <;> decide, rfl⟩
    split at h
    · rename_i hc
      obtain rfl := hc
      rcases skipS_eq tail with hskip | ⟨c', tail', hc', rfl, hskip⟩
      · rw [hskip] at h
        cases h
        exact ⟨.microseconds, [0x75], by decide, rfl⟩
      · rw [hskip] at h
        cases h
        exact ⟨.microseconds, [0x75, c'], by rcases hc' with rfl | rfl <;> decide, rfl⟩
    split at h
    · rename_i hc
      obtain rfl := hc
      rcases skipS_eq tail with hskip | ⟨c', tail', hc', rfl, hskip⟩
      · rw [hskip] at h
        cases h
        exact ⟨.nanoseconds, [0x6E], by decide, rfl⟩
      · rw [hskip] at h
        cases h
        exact ⟨.nanoseconds, [0x6E, c'], by rcases hc' with rfl | rfl <;> decide, rfl⟩
    · cases h

theorem durationAdd_eq (unit : DurationUnit) :
    durationAdd (decimalValue number.whole) number.fracNanos number.fracDigits unit.size =
      if number.cut unit.size ≤ INT64_MAX then some (number.cut unit.size) else none := by
  have hsize : 0 < unit.size := by cases unit <;> decide
  -- units above a second are multiples of it, and those below divide it
  have hcontrib (frac : Nat) : (if unit.size ≥ 1000000000 then frac * (unit.size / 1000000000)
      else frac / (1000000000 / unit.size)) = frac * unit.size / 10 ^ 9 := by
    cases unit
    all_goals
      simp only [DurationUnit.size, ge_iff_le, Nat.reduceDiv, Nat.reducePow]
      split <;> omega
  have hguard : decimalValue number.whole > INT64_MAX / unit.size ↔ INT64_MAX < decimalValue number.whole * unit.size :=
    Nat.div_lt_iff_lt_mul hsize
  unfold durationAdd NumberText.cut
  rw [hcontrib]
  simp only [hguard]
  have hzero : ¬number.fracDigits > 0 → number.fraction.elim 0 (fractionValue 9) * unit.size / 10 ^ 9 = 0 := by
    unfold NumberText.fracDigits
    cases number.fraction with
    | none => intro _; simp
    | some digits => exact fun h => absurd (Nat.succ_pos 8) h
  unfold NumberText.fracNanos
  generalize decimalValue number.whole * unit.size = whole at *
  generalize number.fraction.elim 0 (fractionValue 9) * unit.size / 10 ^ 9 = frac at *
  split
  · rw [if_neg (by omega)]
  · split
    · split
      · rw [if_neg (by omega)]
      · rw [if_pos (by omega)]
    · rename_i hdigits
      rw [hzero hdigits, if_pos (by omega)]
      rfl

theorem durationBare_eq : durationBare (decimalValue number.whole) number.fracNanos =
    if number.cut DurationUnit.seconds.size ≤ INT64_MAX then some (number.cut DurationUnit.seconds.size) else none := by
  have hcut : number.cut DurationUnit.seconds.size = decimalValue number.whole * 1000000000 + number.fracNanos := by
    unfold NumberText.cut NumberText.fracNanos DurationUnit.size
    rw [show (10 : Nat) ^ 9 = 1000000000 from rfl, Nat.mul_div_cancel _ (by decide)]
  have hguard : decimalValue number.whole > INT64_MAX / 1000000000 ↔ INT64_MAX < decimalValue number.whole * 1000000000 :=
    Nat.div_lt_iff_lt_mul (by decide)
  unfold durationBare
  rw [hcut]
  simp only [hguard]
  generalize decimalValue number.whole * 1000000000 = whole
  split
  · rw [if_neg (by omega)]
  · split
    · rw [if_neg (by omega)]
    · rw [if_pos (by omega)]

/-! ## The loop -/

theorem durationStep_component {component : ComponentText} (h : component.Read) {rest : List UInt8}
    (hrest : skipS rest = none) {total : Nat} (htotal : total ≤ INT64_MAX) (hadValue : Bool) :
    durationStep total hadValue (component.text ++ rest) =
      if total + component.cut ≤ INT64_MAX then some (.inr (total + component.cut, rest)) else none := by
  obtain ⟨hdigit, hpoint⟩ := spelling_head h.spelling rest
  unfold durationStep ComponentText.text
  rw [List.append_assoc, parseDurationNumber_text h.number hdigit hpoint]
  split
  · have hnil : component.spelling ++ rest ≠ [] := by
      rw [ne_eq, List.append_eq_nil_iff]
      exact fun hboth => spelling_ne_nil h.spelling hboth.1
    simp only [Option.bind_eq_bind, Option.bind_some, if_neg hnil, parseDurationUnit_text h.spelling hrest,
      durationAdd_eq]
    unfold ComponentText.cut
    split
    · simp only [Option.bind_some]
      split
      · rw [if_neg (by omega)]
      · rw [if_pos (by omega)]
    · rw [if_neg (by omega)]
      rfl
  · -- a number that does not fit in 64 bits does not fit in any unit
    rename_i hlarge
    have hsize : 0 < component.unit.size := by cases component.unit <;> decide
    have hle : decimalValue component.number.whole ≤ component.cut :=
      Nat.le_trans (Nat.le_mul_of_pos_right _ hsize) (Nat.le_add_right _ _)
    rw [if_neg (by unfold UINT64_MAX INT64_MAX at *; omega)]
    rfl

theorem durationStep_last {number : NumberText} (h : number.Read) (total : Nat) (hadValue : Bool) :
    durationStep total hadValue number.text =
      if decimalValue number.whole ≤ UINT64_MAX then
        if hadValue then some (.inl total)
        else if number.cut DurationUnit.seconds.size ≤ INT64_MAX then some (.inl (number.cut DurationUnit.seconds.size))
        else none
      else none := by
  have hnumber := parseDurationNumber_text h noDigit_nil rfl
  rw [List.append_nil] at hnumber
  unfold durationStep
  rw [hnumber]
  split
  · simp only [Option.bind_eq_bind, Option.bind_some, if_true, durationBare_eq]
    split
    · rfl
    · split <;> rfl
  · rfl

theorem durationStep_rest {total total' : Nat} {hadValue : Bool} {s rest : List UInt8}
    (h : durationStep total hadValue s = some (.inr (total', rest))) :
    ∃ component : ComponentText, component.Read ∧ s = component.text ++ rest := by
  simp only [durationStep, Option.bind_eq_bind, Option.bind_eq_some_iff] at h
  obtain ⟨⟨value, tail⟩, hnumber, h⟩ := h
  obtain ⟨number, hread, rfl⟩ := parseDurationNumber_eq_some hnumber
  split at h
  · split at h
    · cases h
    · rw [Option.map_eq_some_iff] at h
      obtain ⟨_, _, h⟩ := h
      cases h
  · obtain ⟨⟨size, tail'⟩, hunit, hadd⟩ := Option.bind_eq_some_iff.mp h
    obtain ⟨unit, spelling, hspelling, rfl⟩ := parseDurationUnit_eq_some hunit
    obtain ⟨add, -, hsum⟩ := Option.bind_eq_some_iff.mp hadd
    split at hsum
    · cases hsum
    · cases hsum
      exact ⟨⟨number, unit, spelling⟩, ⟨hread, hspelling⟩, (List.append_assoc _ _ _).symm⟩

theorem durationStep_end {total total' : Nat} {hadValue : Bool} {s : List UInt8}
    (h : durationStep total hadValue s = some (.inl total')) : ∃ number : NumberText, number.Read ∧ s = number.text := by
  simp only [durationStep, Option.bind_eq_bind, Option.bind_eq_some_iff] at h
  obtain ⟨⟨value, tail⟩, hnumber, h⟩ := h
  obtain ⟨number, hread, rfl⟩ := parseDurationNumber_eq_some hnumber
  split at h
  · rename_i hnil
    obtain rfl : tail = [] := hnil
    exact ⟨number, hread, List.append_nil _⟩
  · obtain ⟨unit, -, hadd⟩ := Option.bind_eq_some_iff.mp h
    obtain ⟨add, -, hsum⟩ := Option.bind_eq_some_iff.mp hadd
    split at hsum <;> cases hsum

theorem ComponentText.Read.length_pos {component : ComponentText} (h : component.Read) : 0 < component.text.length := by
  have hspelling := List.length_pos_iff.mpr (spelling_ne_nil h.spelling)
  unfold ComponentText.text
  rw [List.length_append]
  omega

/-- The loop, up to the end of the text: `total_nanos` and `had_value`. -/
def durationLoop (total : Nat) (hadValue : Bool) (rest : List UInt8) : Option (Nat × Bool) :=
  if rest = [] then some (total, hadValue)
  else
    match _h : durationStep total hadValue rest with
    | none => none
    | some (.inl total) => some (total, true)
    | some (.inr (total, rest)) => durationLoop total true rest
termination_by rest.length
decreasing_by
  obtain ⟨component, hread, htext⟩ := durationStep_rest _h
  have hpos := hread.length_pos
  rw [htext, List.length_append]
  omega

theorem durationLoop_step {s : List UInt8} (h : s ≠ []) (total : Nat) (hadValue : Bool) : durationLoop total hadValue s =
    (durationStep total hadValue s).bind (Sum.elim (fun total => some (total, true)) fun next => durationLoop next.1 true next.2) := by
  rw [durationLoop, if_neg h]
  split
  · rename_i hstep
    rw [hstep]
    rfl
  · rename_i hstep
    rw [hstep]
    rfl
  · rename_i hstep
    rw [hstep]
    rfl

def StartsNumber (s : List UInt8) : Prop := ∃ c tail, s = c :: tail ∧ ((decimalVal c).isSome ∨ c = 0x2E)

theorem NumberText.Read.starts {number : NumberText} (h : number.Read) (rest : List UInt8) :
    StartsNumber (number.text ++ rest) := by
  obtain ⟨whole, fraction⟩ := number
  obtain ⟨hwhole, -, hpresent⟩ := h
  cases whole with
  | cons c tail => exact ⟨c, _, rfl, .inl (hwhole c List.mem_cons_self)⟩
  | nil =>
    cases fraction with
    | some digits => exact ⟨0x2E, _, rfl, .inr rfl⟩
    | none =>
      rcases hpresent with hpresent | hpresent
      · exact absurd rfl hpresent
      · cases hpresent

theorem NumberText.Read.ne_nil {number : NumberText} (h : number.Read) : number.text ≠ [] := by
  obtain ⟨c, tail, htext, -⟩ := h.starts []
  rw [List.append_nil] at htext
  rw [htext]
  exact List.cons_ne_nil c tail

theorem StartsNumber.not_letter {c : UInt8} {tail : List UInt8} (h : StartsNumber (c :: tail)) {cs : List UInt8}
    (hcs : ∀ c ∈ cs, decimalVal c = none ∧ c ≠ 0x2E) : c ∉ cs := by
  obtain ⟨c', tail', heq, hstart⟩ := h
  obtain ⟨rfl, -⟩ := List.cons.inj heq
  intro hmem
  obtain ⟨hdigit, hpoint⟩ := hcs c hmem
  rcases hstart with hstart | hstart
  · rw [hdigit] at hstart
    cases hstart
  · exact hpoint hstart

theorem StartsNumber.skipS {s : List UInt8} (h : StartsNumber s) : skipS s = none := by
  obtain ⟨c, tail, rfl, -⟩ := id h
  exact expect_eq_none.mpr fun c' hc => Option.some.inj hc ▸ h.not_letter (by decide +kernel)

theorem starts_parts {components : List ComponentText} (hcomponents : ∀ component ∈ components, component.Read)
    {last : Option NumberText} (hlast : ∀ number ∈ last, number.Read) (hpresent : components ≠ [] ∨ last.isSome) :
    StartsNumber (partsText components last) := by
  cases components with
  | nil =>
    cases last with
    | none =>
      rcases hpresent with hpresent | hpresent
      · exact absurd rfl hpresent
      · cases hpresent
    | some number =>
      have hstarts := (hlast number rfl).starts []
      rw [List.append_nil] at hstarts
      exact hstarts
  | cons component components =>
    have hstarts := (hcomponents component List.mem_cons_self).number.starts (component.spelling ++ partsText components last)
    unfold partsText ComponentText.text at *
    simpa using hstarts

theorem skipS_parts {components : List ComponentText} (hcomponents : ∀ component ∈ components, component.Read)
    {last : Option NumberText} (hlast : ∀ number ∈ last, number.Read) : skipS (partsText components last) = none := by
  by_cases hpresent : components ≠ [] ∨ last.isSome
  · exact (starts_parts hcomponents hlast hpresent).skipS
  · rw [not_or, not_not, Option.not_isSome_iff_eq_none] at hpresent
    obtain ⟨rfl, rfl⟩ := hpresent
    rfl

theorem durationLoop_parts {components : List ComponentText} (hcomponents : ∀ component ∈ components, component.Read)
    {last : Option NumberText} (hlast : ∀ number ∈ last, number.Read) {total : Nat} (htotal : total ≤ INT64_MAX) :
    durationLoop total true (partsText components last) =
      if total + sumCut components ≤ INT64_MAX ∧ last.all (fun number => decimalValue number.whole ≤ UINT64_MAX) then
        some (total + sumCut components, true)
      else none := by
  induction components generalizing total with
  | nil =>
    cases last with
    | none =>
      rw [if_pos ⟨htotal, rfl⟩]
      exact durationLoop.eq_1 total true []
    | some number =>
      have hread := hlast number rfl
      show durationLoop total true number.text = _
      rw [durationLoop_step hread.ne_nil, durationStep_last hread, if_pos (show (true : Bool) = true from rfl)]
      split
      · rename_i hfits
        rw [if_pos ⟨htotal, by simpa using hfits⟩]
        rfl
      · rename_i hlarge
        rw [if_neg fun h => hlarge (by simpa using h.2)]
        rfl
  | cons component components ih =>
    obtain ⟨hread, htail⟩ := List.forall_mem_cons.mp hcomponents
    have htext : partsText (component :: components) last = component.text ++ partsText components last := by
      unfold partsText
      rw [List.flatMap_cons, List.append_assoc]
    have hne : component.text ++ partsText components last ≠ [] := by
      rw [ne_eq, List.append_eq_nil_iff]
      exact fun h => (List.length_pos_iff.mp hread.length_pos) h.1
    have hsum : sumCut (component :: components) = component.cut + sumCut components := List.sum_cons
    rw [htext, durationLoop_step hne, durationStep_component hread (skipS_parts htail hlast) htotal, hsum]
    split
    · rename_i hfits
      show durationLoop (total + component.cut) true (partsText components last) = _
      rw [ih htail hfits, Nat.add_assoc]
    · rename_i hlarge
      rw [if_neg fun h => hlarge (by omega)]
      rfl

def DurationText.taken (text : DurationText) : Nat :=
  sumCut text.components + if text.components = [] then text.last.elim 0 (NumberText.cut · DurationUnit.seconds.size) else 0

/-- The sum fits, and so do the digits of a number without a unit. -/
def DurationText.Fits (text : DurationText) : Prop :=
  text.taken ≤ INT64_MAX ∧ text.last.all fun number => decimalValue number.whole ≤ UINT64_MAX

instance (text : DurationText) : Decidable text.Fits := inferInstanceAs (Decidable (_ ∧ _))

theorem partsText_cons (component : ComponentText) (components : List ComponentText) (last : Option NumberText) :
    partsText (component :: components) last = component.text ++ partsText components last := by
  unfold partsText
  rw [List.flatMap_cons, List.append_assoc]

theorem durationLoop_text {text : DurationText} (h : text.Read) :
    durationLoop 0 false (partsText text.components text.last) =
      if text.Fits then some (text.taken, true) else none := by
  obtain ⟨negative, components, last⟩ := text
  obtain ⟨hcomponents, hlast, hpresent⟩ := h
  dsimp only at hcomponents hlast hpresent ⊢
  cases components with
  | nil =>
    cases last with
    | none => exact absurd hpresent (by simp)
    | some number =>
      have hread := hlast number rfl
      have htaken : DurationText.taken ⟨negative, [], some number⟩ = number.cut DurationUnit.seconds.size := by
        unfold DurationText.taken sumCut
        rw [List.map_nil, List.sum_nil, Nat.zero_add, if_pos rfl, Option.elim_some]
      have hfits : DurationText.Fits ⟨negative, [], some number⟩ ↔
          number.cut DurationUnit.seconds.size ≤ INT64_MAX ∧ decimalValue number.whole ≤ UINT64_MAX := by
        unfold DurationText.Fits
        rw [htaken, Option.all_some, decide_eq_true_eq]
      show durationLoop 0 false number.text = _
      rw [durationLoop_step hread.ne_nil, durationStep_last hread, htaken]
      by_cases hall : DurationText.Fits ⟨negative, [], some number⟩
      · obtain ⟨hcut, hwhole⟩ := hfits.mp hall
        rw [if_pos hall, if_pos hwhole, if_neg Bool.false_ne_true, if_pos hcut]
        rfl
      · rw [if_neg hall]
        split
        · rename_i hwhole
          rw [if_neg Bool.false_ne_true, if_neg fun hcut => hall (hfits.mpr ⟨hcut, hwhole⟩)]
          rfl
        · rfl
  | cons component components =>
    obtain ⟨hread, htail⟩ := List.forall_mem_cons.mp hcomponents
    have htaken : DurationText.taken ⟨negative, component :: components, last⟩ = component.cut + sumCut components := by
      unfold DurationText.taken sumCut
      simp
    have hfits : DurationText.Fits ⟨negative, component :: components, last⟩ ↔ component.cut + sumCut components ≤ INT64_MAX ∧
        last.all fun number => decimalValue number.whole ≤ UINT64_MAX := by
      unfold DurationText.Fits
      rw [htaken]
    have hstarts := (starts_parts hcomponents hlast (.inl (List.cons_ne_nil _ _)))
    rw [partsText_cons] at hstarts ⊢
    obtain ⟨c, tail, hcons, -⟩ := id hstarts
    rw [durationLoop_step (by rw [hcons]; exact List.cons_ne_nil _ _), durationStep_component hread (skipS_parts htail hlast)
      (Nat.zero_le _), htaken, Nat.zero_add]
    by_cases hcut : component.cut ≤ INT64_MAX
    · rw [if_pos hcut]
      show durationLoop component.cut true (partsText components last) = _
      rw [durationLoop_parts htail hlast hcut]
      by_cases hall : DurationText.Fits ⟨negative, component :: components, last⟩
      · rw [if_pos hall, if_pos (hfits.mp hall)]
      · rw [if_neg hall, if_neg (hfits.not.mp hall)]
    · rw [if_neg hcut, if_neg fun h => hcut (Nat.le_trans (Nat.le_add_right _ _) (hfits.mp h).1)]
      rfl

theorem durationLoop_eq_some {total : Nat} {hadValue : Bool} {s : List UInt8} {out : Nat × Bool}
    (h : durationLoop total hadValue s = some out) : ∃ (components : List ComponentText) (last : Option NumberText),
      (∀ component ∈ components, component.Read) ∧ (∀ number ∈ last, number.Read) ∧ s = partsText components last := by
  fun_induction durationLoop total hadValue s with
  | case1 total hadValue => exact ⟨[], none, nofun, nofun, rfl⟩
  | case2 total hadValue rest hne hstep => cases h
  | case3 total hadValue rest hne total' hstep =>
    obtain ⟨number, hread, rfl⟩ := durationStep_end hstep
    exact ⟨[], some number, nofun, fun _ heq => Option.some.inj heq ▸ hread, rfl⟩
  | case4 total hadValue rest hne total' rest' hstep ih =>
    obtain ⟨component, hread, rfl⟩ := durationStep_rest hstep
    obtain ⟨components, last, hcomponents, hlast, rfl⟩ := ih h
    exact ⟨component :: components, last, List.forall_mem_cons.mpr ⟨hread, hcomponents⟩, hlast, (partsText_cons _ _ _).symm⟩

/-! ## Durations -/

def durationSplit (totalNanos : Int) : Int × Int :=
  let seconds := totalNanos.tdiv 1000000000
  let nanos := totalNanos.tmod 1000000000
  if nanos < 0 ∧ seconds > 0 then (seconds - 1, nanos + 1000000000)
  else if nanos > 0 ∧ seconds < 0 then (seconds + 1, nanos - 1000000000)
  else (seconds, nanos)

/-- `bebop_util_parse_duration`, with the arguments present. -/
def parseDuration (str : List UInt8) : Option (Int × Int) := do
  let (neg, rest) ←
    match str with
    | [] => none
    | c :: rest => some (if c = 0x2D then (true, rest) else if c = 0x2B then (false, rest) else (false, c :: rest))
  guard (rest ≠ [])
  let (totalNanos, hadValue) ← durationLoop 0 false rest
  guard hadValue
  some (durationSplit (signedInt neg totalNanos))

theorem durationSplit_spec (total : Int) : (durationSplit total).1 * 10 ^ 9 + (durationSplit total).2 = total ∧
    ¬((durationSplit total).1 < 0 ∧ 0 < (durationSplit total).2) ∧ ¬(0 < (durationSplit total).1 ∧ (durationSplit total).2 < 0) := by
  have hsum := Int.mul_tdiv_add_tmod total 1000000000
  have hlow := Int.lt_tmod_of_pos total (show (0 : Int) < 1000000000 by decide)
  have hhigh := Int.tmod_lt_of_pos total (show (0 : Int) < 1000000000 by decide)
  unfold durationSplit
  dsimp only
  split
  · dsimp only
    omega
  · split
    · dsimp only
      omega
    · dsimp only
      omega

def signText (negative : Option Bool) : List UInt8 := negative.elim [] fun negative => [if negative then 0x2D else 0x2B]

theorem parseDuration_sign {negative : Option Bool} {rest : List UInt8} (hstarts : StartsNumber rest) :
    parseDuration (signText negative ++ rest) = (durationLoop 0 false rest).bind fun out =>
      if out.2 then some (durationSplit (signedInt (negative.getD false) out.1)) else none := by
  obtain ⟨c, tail, rfl, -⟩ := id hstarts
  have hguard (hadValue : Bool) (out : Int × Int) : ((guard (hadValue = true) : Option Unit).bind fun _ => some out) =
      if hadValue then some out else none := by
    cases hadValue <;> rfl
  unfold parseDuration signText
  cases negative with
  | none =>
    have hminus : c ≠ 0x2D := fun h => hstarts.not_letter (by decide +kernel) (List.mem_singleton.mpr h)
    have hplus : c ≠ 0x2B := fun h => hstarts.not_letter (by decide +kernel) (List.mem_singleton.mpr h)
    simp [hminus, hplus, hguard]
  | some negative =>
    cases negative with
    | true => simp [hguard]
    | false => simp [hguard]

theorem parseDuration_text {text : DurationText} (h : text.Read) : parseDuration text.text =
    if text.Fits then some (durationSplit (signedInt (text.negative.getD false) text.taken)) else none := by
  show parseDuration (signText text.negative ++ partsText text.components text.last) = _
  rw [parseDuration_sign (starts_parts h.components h.last h.present), durationLoop_text h]
  split <;> rfl

theorem parseDuration_eq_some {s : List UInt8} {out : Int × Int} (h : parseDuration s = some out) :
    ∃ text : DurationText, text.Read ∧ text.text = s := by
  cases s with
  | nil => cases h
  | cons c tail =>
  simp only [parseDuration, Option.bind_eq_bind, Option.bind_some, Option.bind_eq_some_iff, Option.guard_eq_some'] at h
  obtain ⟨_, hne, ⟨total, hadValue⟩, hloop, -⟩ := h
  obtain ⟨negative, htext⟩ : ∃ negative : Option Bool, c :: tail = signText negative ++
      (if c = 0x2D then (true, tail) else if c = 0x2B then (false, tail) else (false, c :: tail)).2 := by
    split
    · rename_i hc
      exact ⟨some true, by rw [hc]; rfl⟩
    · split
      · rename_i hc
        exact ⟨some false, by rw [hc]; rfl⟩
      · exact ⟨none, rfl⟩
  generalize (if c = 0x2D then (true, tail) else if c = 0x2B then (false, tail) else (false, c :: tail)).2 = rest at *
  rw [htext]
  obtain ⟨components, last, hcomponents, hlast, rfl⟩ := durationLoop_eq_some hloop
  refine ⟨⟨negative, components, last⟩, ⟨hcomponents, hlast, ?_⟩, rfl⟩
  by_contra hnone
  rw [not_or, not_not, Option.not_isSome_iff_eq_none] at hnone
  obtain ⟨rfl, rfl⟩ := hnone
  exact hne rfl

/-! ## Exactness -/

theorem decimalVal_getD_lt (c : UInt8) : (decimalVal c).getD 0 < 10 := by
  cases h : decimalVal c with
  | none => decide
  | some d => exact decimalVal_lt h

theorem decimalValue_concat (digits : List UInt8) (c : UInt8) :
    decimalValue (digits ++ [c]) = decimalValue digits * 10 + (decimalVal c).getD 0 := by
  unfold decimalValue
  rw [List.foldl_append]
  rfl

theorem decimalValue_append (digits tail : List UInt8) :
    decimalValue (digits ++ tail) = decimalValue digits * 10 ^ tail.length + decimalValue tail ∧
      decimalValue tail < 10 ^ tail.length := by
  induction tail using List.reverseRecOn with
  | nil => exact ⟨by simp [decimalValue], by decide⟩
  | append_singleton tail c ih =>
    obtain ⟨hsum, hlt⟩ := ih
    have hdigit := decimalVal_getD_lt c
    rw [← List.append_assoc, decimalValue_concat, decimalValue_concat, List.length_append, List.length_singleton, pow_succ, hsum]
    constructor
    · ring
    · omega

theorem fractionValue_eq (n : Nat) (digits : List UInt8) :
    fractionValue n digits = decimalValue digits * 10 ^ n / 10 ^ digits.length := by
  unfold fractionValue
  by_cases hle : digits.length ≤ n
  · rw [List.take_of_length_le hle, ← Nat.pow_sub_mul_pow 10 hle, ← Nat.mul_assoc, Nat.mul_div_cancel _ (by positivity)]
  · obtain ⟨hsum, hlt⟩ := decimalValue_append (digits.take n) (digits.drop n)
    have hlength : digits.length = (digits.drop n).length + n := by
      rw [List.length_drop]
      omega
    rw [List.take_append_drop] at hsum
    rw [show n - digits.length = 0 by omega, pow_zero, Nat.mul_one, hlength, pow_add,
      Nat.mul_div_mul_right _ _ (by positivity), hsum, Nat.mul_comm, Nat.mul_add_div (by positivity),
      Nat.div_eq_of_lt hlt, Nat.add_zero]

theorem NumberText.cut_le_value (unit : Nat) : number.cut unit ≤ number.value unit := by
  unfold NumberText.cut NumberText.value
  cases number.fraction with
  | none => simp
  | some digits =>
    refine Nat.add_le_add_left ?_ _
    rw [Option.elim_some, Option.elim_some, fractionValue_eq, Nat.le_div_iff_mul_le (by positivity)]
    have hfrac := Nat.div_mul_le_self (decimalValue digits * 10 ^ 9) (10 ^ digits.length)
    generalize decimalValue digits * 10 ^ 9 / 10 ^ digits.length = frac at hfrac ⊢
    have hunit := Nat.div_mul_le_self (frac * unit) (10 ^ 9)
    refine Nat.le_of_mul_le_mul_right (c := 10 ^ 9) ?_ (by positivity)
    calc frac * unit / 10 ^ 9 * 10 ^ digits.length * 10 ^ 9
      _ = frac * unit / 10 ^ 9 * 10 ^ 9 * 10 ^ digits.length := Nat.mul_right_comm _ _ _
      _ ≤ frac * unit * 10 ^ digits.length := Nat.mul_le_mul_right _ hunit
      _ = frac * 10 ^ digits.length * unit := Nat.mul_right_comm _ _ _
      _ ≤ decimalValue digits * 10 ^ 9 * unit := Nat.mul_le_mul_right _ hfrac
      _ = decimalValue digits * unit * 10 ^ 9 := Nat.mul_right_comm _ _ _

theorem NumberText.cut_seconds :
    number.cut DurationUnit.seconds.size = number.value DurationUnit.seconds.size := by
  unfold NumberText.cut NumberText.value
  cases number.fraction with
  | none => simp
  | some digits =>
    rw [Option.elim_some, Option.elim_some, fractionValue_eq]
    show _ + _ * 10 ^ 9 / 10 ^ 9 = _
    rw [Nat.mul_div_cancel _ (by decide)]
    rfl

theorem sumCut_le : sumCut components ≤ sumValue components := by
  induction components with
  | nil => exact Nat.le_refl _
  | cons component components ih =>
    have hcomponent : component.cut ≤ component.value := component.number.cut_le_value _
    unfold sumCut sumValue at *
    rw [List.map_cons, List.map_cons, List.sum_cons, List.sum_cons]
    omega

theorem sumCut_eq_iff :
    sumCut components = sumValue components ↔ ∀ component ∈ components, component.cut = component.value := by
  induction components with
  | nil => exact iff_of_true rfl nofun
  | cons component components ih =>
    have hcomponent : component.cut ≤ component.value := component.number.cut_le_value _
    have htail := sumCut_le components
    rw [List.forall_mem_cons, ← ih]
    unfold sumCut sumValue at *
    rw [List.map_cons, List.map_cons, List.sum_cons, List.sum_cons]
    omega

theorem DurationText.Literal.taken_eq {text : DurationText} (h : text.Literal) :
    text.taken = sumCut text.components + text.last.elim 0 (NumberText.value · DurationUnit.seconds.size) := by
  have halone := h.alone
  unfold DurationText.taken
  cases hlast : text.last with
  | none => simp
  | some number =>
    rw [hlast] at halone
    rw [if_pos (halone rfl), Option.elim_some, Option.elim_some, number.cut_seconds]

theorem DurationText.Literal.not_fits {text : DurationText} (h : text.Literal) (hfits : ¬text.Fits) :
    INT64_MAX < text.total := by
  have htaken := h.taken_eq
  have hle := sumCut_le text.components
  unfold DurationText.Fits at hfits
  unfold DurationText.total
  by_cases hsum : text.taken ≤ INT64_MAX
  · cases hlast : text.last with
    | none => exact absurd ⟨hsum, by rw [hlast]; rfl⟩ hfits
    | some number =>
      have hlarge : ¬decimalValue number.whole ≤ UINT64_MAX := fun hwhole =>
        hfits ⟨hsum, by rw [hlast, Option.all_some]; exact decide_eq_true hwhole⟩
      have hvalue : decimalValue number.whole ≤ number.value DurationUnit.seconds.size :=
        Nat.le_trans (Nat.le_mul_of_pos_right _ (by decide)) (Nat.le_add_right _ _)
      rw [Option.elim_some]
      unfold INT64_MAX UINT64_MAX at *
      omega
  · omega

/-- The code takes exactly the literals whose sum fits in 64 bits, and gives that sum, in
seconds and nanoseconds that do not have opposite signs. -/
def DurationExact (s : List UInt8) : Prop :=
  (∀ seconds nanos, parseDuration s = some (seconds, nanos) →
    (∃ text : DurationText, text.Literal ∧ text.text = s ∧ seconds * 10 ^ 9 + nanos = text.value) ∧
      ¬(seconds < 0 ∧ 0 < nanos) ∧ ¬(0 < seconds ∧ nanos < 0)) ∧
  (parseDuration s = none ↔ ∀ text : DurationText, text.Literal → text.text = s → ¬InInt64 text.value)

/-- Exact are the literals whose sum fits without its sign and in which no digit that is cut
off counts, and those too large to read, but for the least value of 64 bits. -/
theorem durationLiteral_exact_iff (s : List UInt8) : DurationExact s ↔
    (∃ text : DurationText, text.Literal ∧ text.text = s ∧ text.Fits ∧
      ∀ component ∈ text.components, component.cut = component.value) ∨
    ∀ text : DurationText, text.Read → text.text = s → ¬text.Fits ∧ (text.Literal → text.value ≠ -2 ^ 63) := by
  constructor
  · rintro ⟨hsome, hnone⟩
    cases hparse : parseDuration s with
    | none =>
      right
      intro text hread htext
      refine ⟨fun hfits => ?_, fun hliteral hleast => ?_⟩
      · have htaken := parseDuration_text hread
        rw [htext, hparse, if_pos hfits] at htaken
        cases htaken
      · refine hnone.mp hparse text hliteral htext ?_
        unfold InInt64
        omega
    | some out =>
      left
      obtain ⟨⟨text, hliteral, htext, hvalue⟩, -⟩ := hsome out.1 out.2 hparse
      have htaken := parseDuration_text hliteral.toRead
      rw [htext, hparse] at htaken
      split at htaken
      · rename_i hfits
        refine ⟨text, hliteral, htext, hfits, (sumCut_eq_iff _).mp ?_⟩
        have hsplit := (durationSplit_spec (signedInt (text.negative.getD false) text.taken)).1
        rw [← Option.some.inj htaken, hvalue] at hsplit
        have hsum : text.total = text.taken := by
          unfold DurationText.value signedInt at hsplit
          split at hsplit <;> omega
        rw [hliteral.taken_eq] at hsum
        unfold DurationText.total at hsum
        omega
      · cases htaken
  · rintro (⟨text, hliteral, rfl, hfits, hcut⟩ | hall)
    · have hsum : text.taken = text.total := by
        rw [hliteral.taken_eq, (sumCut_eq_iff _).mpr hcut]
        rfl
      have htaken := parseDuration_text hliteral.toRead
      rw [if_pos hfits, hsum] at htaken
      have hsplit := durationSplit_spec text.value
      constructor
      · intro seconds nanos hparse
        rw [htaken] at hparse
        have hout : durationSplit text.value = (seconds, nanos) := Option.some.inj hparse
        rw [hout] at hsplit
        exact ⟨⟨text, hliteral, rfl, hsplit.1⟩, hsplit.2⟩
      · rw [htaken]
        refine iff_of_false nofun fun hrange => hrange text hliteral rfl ?_
        have hle := hfits.1
        rw [hsum] at hle
        unfold InInt64 DurationText.value signedInt INT64_MAX at *
        split <;> omega
    · have hparse : parseDuration s = none := by
        cases hparse : parseDuration s with
        | none => rfl
        | some out =>
          obtain ⟨text, hread, rfl⟩ := parseDuration_eq_some hparse
          have htaken := parseDuration_text hread
          rw [hparse, if_neg (hall text hread rfl).1] at htaken
          cases htaken
      constructor
      · intro seconds nanos hsome
        rw [hparse] at hsome
        cases hsome
      · refine iff_of_true hparse fun text hliteral htext => ?_
        obtain ⟨hfits, hleast⟩ := hall text hliteral.toRead htext
        have hlarge := hliteral.not_fits hfits
        have hne := hleast hliteral
        unfold InInt64 DurationText.value signedInt INT64_MAX at *
        revert hne
        cases text.negative.getD false
        all_goals
          simp only [Bool.false_eq_true, if_false, if_true]
          intro hne
          omega

theorem NumberText.Read.not_letter {number : NumberText} (h : number.Read) {c : UInt8} (hdigit : decimalVal c = none)
    (hpoint : c ≠ 0x2E) : c ∉ number.text := by
  have hnot {digits : List UInt8} (hall : AllDecimal digits) : c ∉ digits := by
    intro hmem
    have hsome := hall c hmem
    rw [hdigit] at hsome
    cases hsome
  have hwhole := hnot h.whole
  unfold NumberText.text
  cases hfraction : number.fraction with
  | none => simpa [fractionText] using hwhole
  | some digits =>
    have htail := hnot (h.fraction digits hfraction)
    simp [fractionText, hwhole, hpoint, htail]

theorem DurationText.Literal.last_letter {text : DurationText} (h : text.Literal) (hne : text.components ≠ []) :
    ∀ c ∈ text.text.getLast?, decimalVal c = none := by
  have hlast : text.last = none := by
    cases hlast : text.last with
    | none => rfl
    | some number => exact absurd (h.alone (by rw [hlast]; rfl)) hne
  obtain ⟨components, component, hcomponents⟩ := (List.eq_nil_or_concat text.components).resolve_left hne
  have hspelling := (h.components component (by simp [hcomponents])).spelling
  have htext : text.text = (signText text.negative ++ components.flatMap ComponentText.text ++ component.number.text) ++
      component.spelling := by
    unfold DurationText.text partsText signText
    rw [hlast, hcomponents]
    simp [ComponentText.text]
  have hall : ∀ spelling ∈ component.unit.spellings, ∀ c ∈ spelling.getLast?, decimalVal c = none := by
    cases component.unit <;> decide +kernel
  intro c hc
  rw [htext, List.getLast?_append_of_ne_nil _ (spelling_ne_nil hspelling)] at hc
  exact hall _ hspelling c hc

/-- Nothing is said about the minutes of 1h30. -/
theorem durationLiteral_minutesDropped :
    parseDuration [0x31, 0x68, 0x33, 0x30] = some (3600, 0) ∧ ¬DurationExact [0x31, 0x68, 0x33, 0x30] := by
  have hparse : parseDuration [0x31, 0x68, 0x33, 0x30] = some (3600, 0) := by decide +kernel
  refine ⟨hparse, fun hexact => ?_⟩
  obtain ⟨⟨text, hliteral, htext, -⟩, -⟩ := hexact.1 _ _ hparse
  by_cases hcomponents : text.components = []
  · -- a number alone has no h
    have hmem : (0x68 : UInt8) ∈ text.text := by
      rw [htext]
      decide
    have hsign : (0x68 : UInt8) ∉ signText text.negative := by
      rcases text.negative with _ | _ | _ <;> decide
    rw [show text.text = signText text.negative ++ partsText text.components text.last from rfl, hcomponents] at hmem
    rcases List.mem_append.mp hmem with hmem | hmem
    · exact hsign hmem
    · cases hlast : text.last with
      | none =>
        rw [hlast] at hmem
        cases hmem
      | some number =>
        rw [hlast] at hmem
        exact (hliteral.last number hlast).not_letter (by decide) (by decide) hmem
  · -- components do not end in a digit
    have hletter := hliteral.last_letter hcomponents 0x30 (by rw [htext]; rfl)
    cases hletter

end Bebop.Compiler
