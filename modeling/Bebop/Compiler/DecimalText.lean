import Bebop.Compiler.TimestampLiteral
import Mathlib.Data.List.TakeWhile

/-!
# Bebop — decimal texts

What the digits of a timestamp or a duration stand for, in front of a point and behind
it, and what `expect` and `parseFraction` read of them.
-/

namespace Bebop.Compiler

def AllDecimal (digits : List UInt8) : Prop := ∀ c ∈ digits, (decimalVal c).isSome

def fractionText : Option (List UInt8) → List UInt8
  | none => []
  | some digits => 0x2E :: digits

def decimalValue (digits : List UInt8) : Nat := digits.foldl (fun value c => value * 10 + (decimalVal c).getD 0) 0

/-- The digits behind a point in units of 10^-n; those behind the first `n` are cut off. -/
def fractionValue (n : Nat) (digits : List UInt8) : Nat := decimalValue (digits.take n) * 10 ^ (n - digits.length)

theorem ofNat_decimalVal {c : UInt8} {d : Nat} (h : decimalVal c = some d) : c = UInt8.ofNat (0x30 + d) ∧ d < 10 := by
  refine ⟨?_, decimalVal_lt h⟩
  unfold decimalVal at h
  split at h
  · rename_i hc
    have hlow := UInt8.le_iff_toNat_le.mp hc.1
    have hval : (0x30 : UInt8).toNat = 0x30 := rfl
    obtain rfl := Option.some.inj h
    rw [show 0x30 + (c.toNat - 0x30) = c.toNat by omega, UInt8.ofNat_toNat]
  · cases h

theorem expect_eq_some {cs s rest : List UInt8} : expect cs s = some rest ↔ ∃ c ∈ cs, s = c :: rest := by
  cases s with
  | nil => exact iff_of_false nofun fun ⟨_, _, h⟩ => nomatch h
  | cons c tail =>
    show (if c ∈ cs then some tail else none) = some rest ↔ _
    split
    · rename_i hc
      exact ⟨fun h => ⟨c, hc, by rw [Option.some.inj h]⟩, fun ⟨_, _, h⟩ => congrArg some (List.cons.inj h).2⟩
    · rename_i hc
      refine iff_of_false nofun ?_
      rintro ⟨c', hc', heq⟩
      exact hc ((List.cons.inj heq).1 ▸ hc')

theorem expect_eq_none {cs s : List UInt8} : expect cs s = none ↔ ∀ c ∈ s.head?, c ∉ cs := by
  cases s with
  | nil => exact iff_of_true rfl nofun
  | cons c tail =>
    show (if c ∈ cs then some tail else none) = none ↔ _
    simp

theorem expect_cons {cs : List UInt8} {c : UInt8} (h : c ∈ cs) (rest : List UInt8) : expect cs (c :: rest) = some rest :=
  expect_eq_some.mpr ⟨c, h, rfl⟩

/-! ## Fractions -/

def NoDigit (rest : List UInt8) : Prop := ∀ c ∈ rest.head?, decimalVal c = none

theorem noDigit_nil : NoDigit [] := by
  intro c hc
  exact absurd hc (Option.not_mem_none c)

theorem noDigit_cons {c : UInt8} {rest : List UInt8} (h : decimalVal c = none) : NoDigit (c :: rest) := by
  intro c' hc
  obtain rfl := Option.some.inj hc
  exact h

theorem dropWhile_digits {digits rest : List UInt8} (h : AllDecimal digits) (hrest : NoDigit rest) :
    (digits ++ rest).dropWhile (fun c => (decimalVal c).isSome) = rest := by
  induction digits with
  | nil =>
    cases rest with
    | nil => rfl
    | cons c rest =>
      have hnone := hrest c rfl
      rw [List.nil_append, List.dropWhile_cons, hnone]
      rfl
  | cons c digits ih =>
    obtain ⟨hc, hdigits⟩ := List.forall_mem_cons.mp h
    rw [List.cons_append, List.dropWhile_cons, if_pos hc]
    exact ih hdigits

theorem parseFraction_text (n value : Nat) {digits rest : List UInt8} (h : AllDecimal digits) (hrest : NoDigit rest) :
    parseFraction n value (digits ++ rest) =
      ((digits.take n).foldl (fun value c => value * 10 + (decimalVal c).getD 0) value * 10 ^ (n - digits.length), rest) := by
  induction n generalizing value digits with
  | zero =>
    rw [parseFraction, dropWhile_digits h hrest, Nat.zero_sub, pow_zero, Nat.mul_one, List.take_zero]
    rfl
  | succ n ih =>
    cases digits with
    | nil =>
      rw [List.nil_append, List.take_nil]
      cases rest with
      | nil => rfl
      | cons c rest =>
        rw [parseFraction, hrest c rfl]
        rfl
    | cons c digits =>
      obtain ⟨hc, hdigits⟩ := List.forall_mem_cons.mp h
      obtain ⟨d, hd⟩ := Option.isSome_iff_exists.mp hc
      rw [List.cons_append, parseFraction, hd]
      dsimp only
      rw [ih _ hdigits, List.length_cons, Nat.add_sub_add_right, List.take_succ_cons, List.foldl_cons, hd]
      rfl

theorem exists_digits (s : List UInt8) : ∃ digits rest, s = digits ++ rest ∧ AllDecimal digits ∧ NoDigit rest := by
  refine ⟨s.takeWhile fun c => (decimalVal c).isSome, s.dropWhile fun c => (decimalVal c).isSome,
    List.takeWhile_append_dropWhile.symm, ?_, fun c hc => ?_⟩
  · intro c hc
    have hdigit := List.mem_takeWhile_imp hc
    exact hdigit
  have hnot := List.head?_dropWhile_not (fun c => (decimalVal c).isSome) s
  rw [Option.mem_def.mp hc] at hnot
  simpa using hnot

theorem parseFraction_value (n : Nat) {digits rest : List UInt8} (h : AllDecimal digits) (hrest : NoDigit rest) :
    parseFraction n 0 (digits ++ rest) = (fractionValue n digits, rest) :=
  parseFraction_text n 0 h hrest

theorem fractionValue_lt (n : Nat) {digits : List UInt8} (h : AllDecimal digits) : fractionValue n digits < 10 ^ n := by
  have hlt := parseFraction_lt n 0 (digits ++ [])
  rw [parseFraction_value n h noDigit_nil] at hlt
  simpa using hlt

def readFraction (n : Nat) (rest : List UInt8) : Nat × List UInt8 :=
  match expect [0x2E] rest with
  | some rest => parseFraction n 0 rest
  | none => (0, rest)

theorem readFraction_text (n : Nat) {fraction : Option (List UInt8)} (h : ∀ digits ∈ fraction, AllDecimal digits)
    {rest : List UInt8} (hrest : NoDigit rest) (hpoint : expect [0x2E] rest = none) :
    readFraction n (fractionText fraction ++ rest) = (fraction.elim 0 (fractionValue n), rest) := by
  cases fraction with
  | none =>
    show (match expect [0x2E] rest with
      | some rest => parseFraction n 0 rest
      | none => (0, rest)) = _
    rw [hpoint]
    rfl
  | some digits => exact parseFraction_value n (h digits rfl) hrest

theorem readFraction_eq (n : Nat) {s rest : List UInt8} {value : Nat} (h : readFraction n s = (value, rest)) :
    ∃ fraction : Option (List UInt8), (∀ digits ∈ fraction, AllDecimal digits) ∧ s = fractionText fraction ++ rest ∧
      value = fraction.elim 0 (fractionValue n) ∧ fraction.isSome = (expect [0x2E] s).isSome := by
  unfold readFraction at h
  cases hpoint : expect [0x2E] s with
  | none =>
    rw [hpoint] at h
    cases h
    exact ⟨none, nofun, rfl, rfl, rfl⟩
  | some tail =>
    rw [hpoint] at h
    dsimp only at h
    obtain ⟨c, hc, rfl⟩ := expect_eq_some.mp hpoint
    obtain ⟨digits, rest', rfl, hdigits, hrest⟩ := exists_digits tail
    rw [parseFraction_value n hdigits hrest] at h
    cases h
    refine ⟨some digits, fun _ heq => Option.some.inj heq ▸ hdigits, ?_, rfl, rfl⟩
    rw [List.mem_singleton.mp hc]
    rfl

end Bebop.Compiler
