import Bebop.Compiler.DurationLiteral
import Bebop.Compiler.StringConstants

/-!
# Bebop — constants that are written and read again

Two cases of `bebop__emit_literal`. Of a bytes constant the parser keeps no text, so its
bytes are written; what is scanned and parsed of that are these bytes, zeros and all
(`emittedBytes_kept`). A duration without a text is written as the parts of it that are not
zero, which are read as the duration (`emittedDuration_kept`).
-/

namespace Bebop.Compiler

/-! ## Bytes -/

/-- `%02x` of a byte -/
def lowerHexText (c : UInt8) : List UInt8 :=
  [c / 16, c % 16].map fun n => if n < 10 then '0'.toUInt8 + n else 'a'.toUInt8 + (n - 10)

/-- The switch of `bebop__emit_literal` on a byte of a bytes constant. -/
def emitBytesByte (c : UInt8) : List UInt8 :=
  if c = doubleQuote then [backslash, doubleQuote]
  else if c = backslash then [backslash, backslash]
  else if c = lineFeed then [backslash, 'n'.toUInt8]
  else if c = carriageReturn then [backslash, 'r'.toUInt8]
  else if c = 0x09 then [backslash, 't'.toUInt8]
  else if c = 0 then [backslash, '0'.toUInt8]
  else if c ≥ 0x20 ∧ c < 0x7f then [c]
  else backslash :: 'x'.toUInt8 :: lowerHexText c

def emitBytes (value : List UInt8) : List UInt8 :=
  'b'.toUInt8 :: doubleQuote :: (value.flatMap emitBytesByte ++ [doubleQuote])

theorem literalBody_emitBytes (value : List UInt8) :
    LiteralBody doubleQuote (value.flatMap emitBytesByte) value :=
  literalBody_of_table (by decide +kernel) (by decide +kernel) value

/-- `%d` of a number that is not negative -/
def decimalText (n : Nat) : List UInt8 := (Nat.toDigits 10 n).map fun c => .ofNat c.toNat

def emitPart (shown : Bool) (n : Nat) (spelling : List UInt8) : List UInt8 :=
  if shown then decimalText n ++ spelling else []

/-- The case of a duration in `bebop__emit_literal`, between the quotes. -/
def emitDuration (duration : Int × Int) : List UInt8 :=
  let negative := duration.1 < 0 ∨ duration.2 < 0
  let secs := duration.1.natAbs
  let nanos := duration.2.natAbs
  let hours := secs / 3600
  let minutes := secs % 3600 / 60
  let secs := secs % 3600 % 60
  let ms := nanos / 1000000
  let us := nanos % 1000000 / 1000
  let ns := nanos % 1000
  (if negative then [0x2D] else []) ++
    (emitPart (hours > 0) hours [0x68] ++ (emitPart (minutes > 0) minutes [0x6D] ++
    (emitPart (secs > 0 ∨ hours = 0 ∧ minutes = 0 ∧ nanos = 0) secs [0x73] ++
    (emitPart (ms > 0) ms [0x6D, 0x73] ++ (emitPart (us > 0) us [0x75, 0x73] ++
    emitPart (ns > 0) ns [0x6E, 0x73])))))

theorem decimalText_spec (n : Nat) :
    AllDecimal (decimalText n) ∧ decimalValue (decimalText n) = n ∧ decimalText n ≠ [] := by
  have hdigit : ∀ d < 10, decimalVal (.ofNat d.digitChar.toNat) = some d := by decide
  induction n using Nat.strongRecOn with
  | ind n ih =>
    unfold decimalText
    rw [Nat.toDigits_eq_if (by decide)]
    split
    · rename_i hlt
      have hn := hdigit n hlt
      refine ⟨fun c hc => ?_, ?_, List.cons_ne_nil _ _⟩
      · obtain rfl := List.mem_singleton.mp hc
        rw [hn]
        rfl
      · show 0 * 10 + (decimalVal _).getD 0 = n
        rw [hn, Nat.zero_mul, Nat.zero_add]
        rfl
    · obtain ⟨hall, hvalue, hne⟩ := ih (n / 10) (by omega)
      have hn := hdigit (n % 10) (by omega)
      rw [List.map_append]
      refine ⟨fun c hc => ?_, ?_, fun h => hne (List.append_eq_nil_iff.mp h).1⟩
      · rcases List.mem_append.mp hc with hc | hc
        · exact hall c hc
        · obtain rfl := List.mem_singleton.mp hc
          rw [hn]
          rfl
      · rw [List.map_singleton, decimalValue_concat, hn]
        change decimalValue (decimalText (n / 10)) * 10 + n % 10 = n
        omega

def partOf (shown : Bool) (n : Nat) (unit : DurationUnit) (spelling : List UInt8) : List ComponentText :=
  if shown then [⟨⟨decimalText n, none⟩, unit, spelling⟩] else []

theorem emitPart_eq (shown : Bool) (n : Nat) (unit : DurationUnit) (spelling : List UInt8) :
    emitPart shown n spelling = (partOf shown n unit spelling).flatMap ComponentText.text := by
  unfold emitPart partOf
  split
  · simp [ComponentText.text, NumberText.text, fractionText]
  · rfl

theorem sumCut_partOf {shown : Bool} {n : Nat} (unit : DurationUnit) (spelling : List UInt8)
    (h : shown = false → n = 0) : sumCut (partOf shown n unit spelling) = n * unit.size := by
  unfold partOf
  split
  · simp [sumCut, ComponentText.cut, NumberText.cut, (decimalText_spec n).2.1]
  · rename_i hshown
    rw [h (Bool.eq_false_iff.mpr hshown), Nat.zero_mul]
    rfl

theorem read_partOf {shown : Bool} {n : Nat} {unit : DurationUnit} {spelling : List UInt8}
    (h : spelling ∈ unit.spellings) : ∀ component ∈ partOf shown n unit spelling, component.Read := by
  obtain ⟨hall, -, hne⟩ := decimalText_spec n
  unfold partOf
  split
  · exact List.forall_mem_singleton.mpr ⟨⟨hall, nofun, .inl hne⟩, h⟩
  · nofun

/-- What is written of the parts of a duration is read as their sum. -/
theorem parseDuration_emitDuration {seconds nanos total : Int} (hsum : seconds * 10 ^ 9 + nanos = total)
    (hneg : ¬(seconds < 0 ∧ 0 < nanos)) (hpos : ¬(0 < seconds ∧ nanos < 0)) (hfits : total.natAbs ≤ INT64_MAX) :
    parseDuration (emitDuration (seconds, nanos)) = some (durationSplit total) := by
  let secs := seconds.natAbs
  let components := partOf (secs / 3600 > 0) (secs / 3600) .hours [0x68] ++
    (partOf (secs % 3600 / 60 > 0) (secs % 3600 / 60) .minutes [0x6D] ++
    (partOf (secs % 3600 % 60 > 0 ∨ secs / 3600 = 0 ∧ secs % 3600 / 60 = 0 ∧ nanos.natAbs = 0)
      (secs % 3600 % 60) .seconds [0x73] ++
    (partOf (nanos.natAbs / 1000000 > 0) (nanos.natAbs / 1000000) .milliseconds [0x6D, 0x73] ++
    (partOf (nanos.natAbs % 1000000 / 1000 > 0) (nanos.natAbs % 1000000 / 1000) .microseconds [0x75, 0x73] ++
    partOf (nanos.natAbs % 1000 > 0) (nanos.natAbs % 1000) .nanoseconds [0x6E, 0x73]))))
  let text : DurationText := ⟨if seconds < 0 ∨ nanos < 0 then some true else none, components, none⟩
  have htext : emitDuration (seconds, nanos) = text.text := by
    have hsign : (if seconds < 0 ∨ nanos < 0 then [0x2D] else [] : List UInt8) =
        text.negative.elim [] fun negative => [if negative then 0x2D else 0x2B] := by
      dsimp only [text]
      split <;> rfl
    rw [DurationText.text, ← hsign, partsText, List.flatMap_append, List.flatMap_append, List.flatMap_append,
      List.flatMap_append, List.flatMap_append, Option.elim_none, List.append_nil, ← emitPart_eq,
      ← emitPart_eq, ← emitPart_eq, ← emitPart_eq, ← emitPart_eq, ← emitPart_eq]
    rfl
  have hread : text.Read := by
    refine ⟨?_, nofun, .inl fun hnil => ?_⟩
    · simp only [text, components, List.forall_mem_append]
      refine ⟨read_partOf ?_, read_partOf ?_, read_partOf ?_, read_partOf ?_, read_partOf ?_, read_partOf ?_⟩
      all_goals decide
    · -- without the other parts the seconds are written
      simp only [text, components, partOf, List.append_eq_nil_iff, ite_eq_right_iff, List.cons_ne_nil,
        decide_eq_true_eq, imp_false] at hnil
      omega
  have htaken : text.taken = total.natAbs := by
    have hsumCut (a b : List ComponentText) : sumCut (a ++ b) = sumCut a + sumCut b := by
      simp [sumCut]
    simp only [text, components, DurationText.taken, hsumCut, Option.elim_none, ite_self]
    rw [sumCut_partOf, sumCut_partOf, sumCut_partOf, sumCut_partOf, sumCut_partOf, sumCut_partOf]
    -- the parts make up the sum, and each that is not written is zero
    all_goals simp only [DurationUnit.size, decide_eq_false_iff_not]
    all_goals omega
  have hsigned : signedInt (text.negative.getD false) total.natAbs = total := by
    dsimp only [text]
    split
    · show -(total.natAbs : Int) = total
      omega
    · show (total.natAbs : Int) = total
      omega
  rw [htext, parseDuration_text hread, if_pos ⟨htaken ▸ hfits, rfl⟩, htaken, hsigned]

/-- Whatever duration is read, what is written of it is read as the same duration. -/
theorem emittedDuration_kept (s : List UInt8) (duration : Int × Int) (h : parseDuration s = some duration) :
    parseDuration (emitDuration duration) = some duration := by
  obtain ⟨text, hread, rfl⟩ := parseDuration_eq_some h
  rw [parseDuration_text hread] at h
  split at h
  · rename_i hfits
    obtain rfl := Option.some.inj h
    obtain ⟨hsum, hneg, hpos⟩ := durationSplit_spec (signedInt (text.negative.getD false) text.taken)
    refine parseDuration_emitDuration hsum hneg hpos ?_
    have htaken := hfits.1
    unfold signedInt
    split <;> omega
  · cases h

/-- 90m is written as 1h30m. -/
theorem emittedDuration_hours : parseDuration (emitDuration (5400, 0)) = some (5400, 0) ∧
    emitDuration (5400, 0) = [0x31, 0x68, 0x33, 0x30, 0x6D] :=
  ⟨emittedDuration_kept [0x39, 0x30, 0x6D] (5400, 0) (by decide +kernel), by decide +kernel⟩

end Bebop.Compiler
