import Bebop.C.BFloat16
import Bebop.Lib.JavaScript

/-!
# Bebop — bfloat16 in TypeScript and in C

`bfloat16BitsFromNumber` of `bfloat16.ts` quiets a NaN, and does what the C runtime does
with every other pattern (`bfloat16_converts_iff`). A number that is stored as a float is
the pattern that the scratch array has then.
-/

namespace Bebop.TypeScript

open BinaryFloat JavaScript

def F32_EXPONENT_MASK : Int := 0x7f800000
def F32_SIGNIFICAND_MASK : Int := 0x007fffff
def BF16_QUIET_NAN_BIT : Int := 0x0040
def F32_TO_BF16_ROUND_BIAS : Int := 0x7fff

/-- `bfloat16BitsFromNumber`, of the pattern that `float32Bits` reads. -/
def bfloat16BitsFromNumber (float32Bits : UInt32) : Int :=
  let bits : Int := float32Bits.toNat
  if land bits F32_EXPONENT_MASK = F32_EXPONENT_MASK ∧ land bits F32_SIGNIFICAND_MASK ≠ 0 then
    -- a payload in the lower half alone would be cut off
    land (lor (shru bits 16) BF16_QUIET_NAN_BIT) 0xffff
  else
    let lsb := land (shru bits 16) 1
    land (shru (shru (bits + F32_TO_BF16_ROUND_BIAS + lsb) 0) 16) 0xffff

/-- What a conversion of floats that both runtimes share has to do with a pattern. -/
structure Converts (bits : UInt32) : Prop where
  agree : bfloat16BitsFromNumber bits = (C.bfloat16FromFloat bits).toNat
  nan : FloatIsNaN bits → FloatIsNaN (bfloat16ToFloat (C.bfloat16FromFloat bits))
  infinite : FloatIsInfinite bits → bfloat16ToFloat (C.bfloat16FromFloat bits) = bits
  nearest : ¬FloatIsNaN bits → NearestBFloat16 bits (C.bfloat16FromFloat bits)

def FloatIsQuiet (bits : UInt32) : Prop := 0x7fc00000 ≤ bits.toNat % 2 ^ 31

instance (bits : UInt32) : Decidable (FloatIsQuiet bits) := inferInstanceAs (Decidable (_ ≤ _))

/-! ## The masks -/

theorem land_exponent {n : Nat} (h : n < 2 ^ 32) :
    land n F32_EXPONENT_MASK = F32_EXPONENT_MASK ↔ n / 2 ^ 23 % 2 ^ 8 = 0xff := by
  have hmask : land n F32_EXPONENT_MASK = ((n &&& 0x7f800000 : Nat) : Int) := land_mask h (by decide)
  -- the mask is a block of ones, shifted
  have hand : n &&& 0x7f800000 = n / 2 ^ 23 % 2 ^ 8 * 2 ^ 23 := by
    have hshift : n &&& 0x7f800000 = (n >>> 23 &&& 0xff) <<< 23 := by
      apply Nat.eq_of_testBit_eq
      intro i
      rw [Nat.testBit_and, Nat.testBit_shiftLeft, Nat.testBit_and, Nat.testBit_shiftRight]
      have hbit : (0x7f800000 : Nat).testBit i = (decide (23 ≤ i) && (0xff : Nat).testBit (i - 23)) := by
        have hconst : (0x7f800000 : Nat) = 0xff <<< 23 := by decide
        rw [hconst, Nat.testBit_shiftLeft]
      rw [hbit]
      by_cases hi : 23 ≤ i
      · simp [hi, Nat.add_sub_cancel' hi]
      · simp [hi]
    have hones : (0xff : Nat) = 2 ^ 8 - 1 := by decide
    rw [hshift, hones, Nat.and_two_pow_sub_one_eq_mod, Nat.shiftRight_eq_div_pow, Nat.shiftLeft_eq]
  rw [hmask, hand]
  unfold F32_EXPONENT_MASK
  omega

theorem land_significand {n : Nat} (h : n < 2 ^ 32) : land n F32_SIGNIFICAND_MASK = ((n % 2 ^ 23 : Nat) : Int) := by
  have hmask : land n F32_SIGNIFICAND_MASK = ((n &&& (2 ^ 23 - 1) : Nat) : Int) := land_mask h (by decide)
  rw [hmask, Nat.and_two_pow_sub_one_eq_mod]

theorem land_one {n : Nat} (h : n < 2 ^ 32) : land n 1 = ((n % 2 : Nat) : Int) := by
  have hmask : land n 1 = ((n &&& 1 : Nat) : Int) := land_mask h (by decide)
  rw [hmask, Nat.and_one_is_mod]

theorem land_ffff {n : Nat} (h : n < 2 ^ 32) : land n 0xffff = ((n % 2 ^ 16 : Nat) : Int) := by
  have hmask : land n 0xffff = ((n &&& (2 ^ 16 - 1) : Nat) : Int) := land_mask h (by decide)
  rw [hmask, Nat.and_two_pow_sub_one_eq_mod]

theorem isNaN_masks (bits : UInt32) :
    (land bits.toNat F32_EXPONENT_MASK = F32_EXPONENT_MASK ∧ land bits.toNat F32_SIGNIFICAND_MASK ≠ 0) ↔
      FloatIsNaN bits := by
  rw [land_exponent bits.toNat_lt, land_significand bits.toNat_lt]
  unfold FloatIsNaN
  omega

theorem or_quiet (n : Nat) : n ||| 0x40 = n / 2 ^ 7 * 2 ^ 7 + (n % 0x40 + 0x40) := by
  have hlow : ∀ n < 2 ^ 7, n ||| 0x40 = n % 0x40 + 0x40 := by decide
  have hmod : (n ||| 0x40) % 2 ^ 7 = n % 2 ^ 7 % 0x40 + 0x40 := by
    rw [Nat.or_mod_two_pow]
    exact hlow (n % 2 ^ 7) (Nat.mod_lt n (by decide))
  have hdiv : (n ||| 0x40) / 2 ^ 7 = n / 2 ^ 7 := by
    rw [Nat.or_div_two_pow]
    exact Nat.or_zero _
  omega

theorem bfloat16BitsFromNumber_NaN {bits : UInt32} (h : FloatIsNaN bits) :
    bfloat16BitsFromNumber bits = ((bits.toNat / 2 ^ 16 ||| 0x40 : Nat) : Int) := by
  have hlt := bits.toNat_lt
  have hupper : bits.toNat / 2 ^ 16 < 2 ^ 16 := by omega
  have hor : bits.toNat / 2 ^ 16 ||| 0x40 < 2 ^ 16 := Nat.or_lt_two_pow hupper (by decide)
  have hlor : lor ((bits.toNat / 2 ^ 16 : Nat) : Int) BF16_QUIET_NAN_BIT =
      ((bits.toNat / 2 ^ 16 ||| 0x40 : Nat) : Int) :=
    lor_natCast (n := 0x40) (by omega) (by decide) (Nat.lt_trans hor (by decide))
  have hshru : shru (bits.toNat : Int) 16 = ((bits.toNat >>> 16 : Nat) : Int) := shru_natCast hlt (by decide)
  unfold bfloat16BitsFromNumber
  dsimp only
  rw [if_pos ((isNaN_masks bits).mpr h), hshru, Nat.shiftRight_eq_div_pow, hlor, land_ffff (by omega),
    Nat.mod_eq_of_lt hor]

theorem bfloat16BitsFromNumber_of_not_NaN {bits : UInt32} (h : ¬FloatIsNaN bits) :
    bfloat16BitsFromNumber bits = (C.bfloat16FromFloat bits).toNat := by
  have hlt := bits.toNat_lt
  have hshru : shru (bits.toNat : Int) 16 = ((bits.toNat / 2 ^ 16 : Nat) : Int) := by
    rw [← Nat.shiftRight_eq_div_pow]
    exact shru_natCast hlt (by decide)
  have hsum : (bits.toNat : Int) + F32_TO_BF16_ROUND_BIAS + ((bits.toNat / 2 ^ 16 % 2 : Nat) : Int) =
      ((bits.toNat + (0x7fff + bits.toNat / 2 ^ 16 % 2) : Nat) : Int) := by
    unfold F32_TO_BF16_ROUND_BIAS
    push_cast
    omega
  have hwrap (n : Nat) : shru (shru (n : Int) 0) 16 = ((n % 2 ^ 32 / 2 ^ 16 : Nat) : Int) := by
    have hzero : shru (n : Int) 0 = ((n % 2 ^ 32 : Nat) : Int) := by
      rw [shru_zero]
      unfold toUint32
      omega
    have hmod : n % 2 ^ 32 < 2 ^ 32 := Nat.mod_lt n (by decide)
    have hsixteen : shru ((n % 2 ^ 32 : Nat) : Int) 16 = (((n % 2 ^ 32) >>> 16 : Nat) : Int) :=
      shru_natCast hmod (by decide)
    rw [hzero, hsixteen, Nat.shiftRight_eq_div_pow]
  unfold bfloat16BitsFromNumber
  dsimp only
  rw [if_neg (mt (isNaN_masks bits).mp h), hshru, land_one (by omega), hsum, hwrap, land_ffff (by omega),
    toNat_bfloat16FromFloat]
  omega

/-! ## Where the two agree -/

theorem toNat_bfloat16FromFloat_eq (bits : UInt32) : (C.bfloat16FromFloat bits).toNat =
    (bits.toNat / 2 ^ 16 + if RoundsUp 16 bits.toNat then 1 else 0) % 2 ^ 16 := by
  rw [toNat_bfloat16FromFloat, ← roundEven_eq (by decide)]
  unfold roundEven
  omega

theorem toNat_bfloat16FromFloat_of_down {bits : UInt32} (h : ¬RoundsUp 16 bits.toNat) :
    (C.bfloat16FromFloat bits).toNat = bits.toNat / 2 ^ 16 := by
  have hlt := bits.toNat_lt
  rw [toNat_bfloat16FromFloat_eq, if_neg h]
  omega

theorem quiet_of_agree {bits : UInt32} (hnan : FloatIsNaN bits)
    (h : bits.toNat / 2 ^ 16 / 2 ^ 7 * 2 ^ 7 + (bits.toNat / 2 ^ 16 % 0x40 + 0x40) = (C.bfloat16FromFloat bits).toNat) :
    FloatIsQuiet bits ∧ ¬RoundsUp 16 bits.toNat := by
  have hlt := bits.toNat_lt
  rw [toNat_bfloat16FromFloat_eq] at h
  unfold FloatIsQuiet
  unfold FloatIsNaN at hnan
  by_cases hup : RoundsUp 16 bits.toNat
  · rw [if_pos hup] at h
    omega
  · rw [if_neg hup] at h
    exact ⟨by omega, hup⟩

/-- For what is no NaN, and a quiet NaN whose lower half does not round up. -/
theorem bfloat16_converts_iff (bits : UInt32) :
    Converts bits ↔ ¬FloatIsNaN bits ∨ FloatIsQuiet bits ∧ ¬RoundsUp 16 bits.toNat := by
  by_cases hnan : FloatIsNaN bits
  · rw [or_iff_right (not_not.mpr hnan)]
    constructor
    · rintro ⟨hagree, -, -, -⟩
      rw [bfloat16BitsFromNumber_NaN hnan, or_quiet] at hagree
      exact quiet_of_agree hnan (Int.ofNat.inj hagree)
    · rintro ⟨hquiet, hdown⟩
      have hresult := toNat_bfloat16FromFloat_of_down hdown
      unfold FloatIsQuiet at hquiet
      have hlt := bits.toNat_lt
      refine ⟨?_, fun _ => ?_, fun h => ?_, fun h => absurd hnan h⟩
      · rw [bfloat16BitsFromNumber_NaN hnan, or_quiet, hresult]
        refine congrArg Int.ofNat ?_
        omega
      · rw [floatIsNaN_bfloat16ToFloat, hresult]
        omega
      · unfold FloatIsInfinite at h
        omega
  · refine iff_of_true ⟨bfloat16BitsFromNumber_of_not_NaN hnan, fun h => absurd h hnan, fun h => ?_,
      fun _ => nearest_bfloat16FromFloat hnan⟩ (.inl hnan)
    have hlt := bits.toNat_lt
    rw [← UInt32.toNat_inj, toNat_bfloat16ToFloat, toNat_bfloat16FromFloat]
    unfold FloatIsInfinite at h
    omega

/-- A NaN whose payload is all ones: the sum carries into the sign, and C has a negative zero. -/
theorem bfloat16_not_converts : bfloat16BitsFromNumber 0x7fffffff = 0x7fff ∧
    C.bfloat16FromFloat 0x7fffffff = 0x8000 ∧ ¬Converts 0x7fffffff := by
  refine ⟨by decide, by decide, fun h => ?_⟩
  have hnan := h.nan (by decide)
  exact absurd hnan (by decide)

end Bebop.TypeScript
