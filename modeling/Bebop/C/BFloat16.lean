import Bebop.Lib.BinaryFloat

/-!
# Bebop — bfloat16 in C

`bebop_bfloat16_from_float` of `bebop_wire.h`, where the compiler has no `__bf16`. A float
is its pattern, a bfloat16 the upper half of one. The code adds a bias to the pattern of a
float and keeps the upper half. A NaN may become anything near it, an infinity or a zero
with the other sign among them.
-/

namespace Bebop

open BinaryFloat

/-- The value of a float that is no NaN, in units of the least positive one. An infinity
stands for the power of two behind the largest finite value. -/
def floatValue (bits : UInt32) : Int := signed 23 31 bits.toNat

/-- The float that a bfloat16 stands for, `bebop_bfloat16_to_float`. -/
def bfloat16ToFloat (bits : UInt16) : UInt32 := bits.toUInt32 <<< 16

def FloatIsNaN (bits : UInt32) : Prop := 0x7f800000 < bits.toNat % 2 ^ 31

def FloatIsInfinite (bits : UInt32) : Prop := bits.toNat % 2 ^ 31 = 0x7f800000

/-- The nearest bfloat16 of the same sign; of two that are equally near, the even one. -/
structure NearestBFloat16 (bits : UInt32) (result : UInt16) : Prop where
  notNaN : ¬FloatIsNaN (bfloat16ToFloat result)
  sign : result.toNat / 2 ^ 15 = bits.toNat / 2 ^ 31
  nearest (other : UInt16) : ¬FloatIsNaN (bfloat16ToFloat other) →
    apart (floatValue (bfloat16ToFloat result)) (floatValue bits) ≤
      apart (floatValue (bfloat16ToFloat other)) (floatValue bits)
  even (other : UInt16) : ¬FloatIsNaN (bfloat16ToFloat other) →
    apart (floatValue (bfloat16ToFloat result)) (floatValue bits) =
      apart (floatValue (bfloat16ToFloat other)) (floatValue bits) →
    other = result ∨ result.toNat % 2 = 0

instance (bits : UInt32) : Decidable (FloatIsNaN bits) := inferInstanceAs (Decidable (_ < _))

instance (bits : UInt32) : Decidable (FloatIsInfinite bits) := inferInstanceAs (Decidable (_ = _))

namespace C

/-- `bebop_bfloat16_from_float`, without `__bf16` -/
def bfloat16FromFloat (bits : UInt32) : UInt16 :=
  let bits : UInt32 := bits + ((0x7fff : UInt32) + ((bits >>> 16) &&& 1))
  (bits >>> 16).toUInt16

end C

/-! ## Patterns as numbers -/

theorem toNat_bfloat16ToFloat (bits : UInt16) : (bfloat16ToFloat bits).toNat = bits.toNat * 2 ^ 16 := by
  have hlt := bits.toNat_lt
  unfold bfloat16ToFloat
  rw [UInt32.toNat_shiftLeft, UInt16.toNat_toUInt32, Nat.shiftLeft_eq]
  change bits.toNat * 2 ^ 16 % 2 ^ 32 = _
  omega

theorem floatIsNaN_bfloat16ToFloat (bits : UInt16) :
    FloatIsNaN (bfloat16ToFloat bits) ↔ 0x7f80 < bits.toNat % 2 ^ 15 := by
  have hlt := bits.toNat_lt
  unfold FloatIsNaN
  rw [toNat_bfloat16ToFloat]
  omega

theorem floatValue_bfloat16ToFloat (bits : UInt16) : floatValue (bfloat16ToFloat bits) =
    withSign (bits.toNat / 2 ^ 15) (magnitude 23 (bits.toNat % 2 ^ 15 * 2 ^ 16)) := by
  have hmod : bits.toNat * 2 ^ 16 % 2 ^ 31 = bits.toNat % 2 ^ 15 * 2 ^ 16 := by omega
  have hdiv : bits.toNat * 2 ^ 16 / 2 ^ 31 = bits.toNat / 2 ^ 15 := by omega
  unfold floatValue signed
  rw [toNat_bfloat16ToFloat, hmod, hdiv]

theorem toNat_bfloat16FromFloat (bits : UInt32) :
    (C.bfloat16FromFloat bits).toNat = (bits.toNat + (0x7fff + bits.toNat / 2 ^ 16 % 2)) % 2 ^ 32 / 2 ^ 16 := by
  have hlt := bits.toNat_lt
  have hlsb : ((bits >>> 16) &&& 1).toNat = bits.toNat / 2 ^ 16 % 2 := by
    rw [UInt32.toNat_and, UInt32.toNat_shiftRight]
    change bits.toNat >>> 16 &&& 1 = _
    rw [Nat.and_one_is_mod, Nat.shiftRight_eq_div_pow]
  unfold C.bfloat16FromFloat
  rw [UInt32.toNat_toUInt16, UInt32.toNat_shiftRight, UInt32.toNat_add, UInt32.toNat_add, hlsb]
  change ((bits.toNat + (0x7fff + bits.toNat / 2 ^ 16 % 2) % 2 ^ 32) % 2 ^ 32) >>> 16 % 2 ^ 16 = _
  rw [Nat.shiftRight_eq_div_pow]
  omega

/-! ## Rounding -/

theorem toNat_bfloat16FromFloat_of_not_NaN {bits : UInt32} (h : ¬FloatIsNaN bits) :
    (C.bfloat16FromFloat bits).toNat = bits.toNat / 2 ^ 31 * 2 ^ 15 + roundEven 16 (bits.toNat % 2 ^ 31) ∧
      roundEven 16 (bits.toNat % 2 ^ 31) ≤ 0x7f80 := by
  have hlt := bits.toNat_lt
  unfold FloatIsNaN at h
  have hround := roundEven_sign (k := 16) (w := 31) (by decide) (by decide) (bits.toNat / 2 ^ 31) (bits.toNat % 2 ^ 31)
  rw [Nat.mul_comm, Nat.div_add_mod] at hround
  rw [toNat_bfloat16FromFloat, ← hround]
  unfold roundEven
  omega

theorem nearest_bfloat16FromFloat {bits : UInt32} (h : ¬FloatIsNaN bits) :
    NearestBFloat16 bits (C.bfloat16FromFloat bits) := by
  obtain ⟨hresult, hle⟩ := toNat_bfloat16FromFloat_of_not_NaN h
  have hlt := bits.toNat_lt
  have hnearest := nearest_roundEven (p := 23) (k := 16) (by decide) (by decide) (bits.toNat % 2 ^ 31)
  generalize C.bfloat16FromFloat bits = result at *
  generalize roundEven 16 (bits.toNat % 2 ^ 31) = r at *
  have hsign : result.toNat / 2 ^ 15 = bits.toNat / 2 ^ 31 := by omega
  have hlow : result.toNat % 2 ^ 15 = r := by omega
  have hparity : result.toNat % 2 = r % 2 := by omega
  have hcompare (other : UInt16) :
      apart (floatValue (bfloat16ToFloat result)) (floatValue bits) ≤
          apart (floatValue (bfloat16ToFloat other)) (floatValue bits) ∧
        (apart (floatValue (bfloat16ToFloat result)) (floatValue bits) =
            apart (floatValue (bfloat16ToFloat other)) (floatValue bits) →
          other = result ∨ result.toNat % 2 = 0) := by
    have hother := other.toNat_lt
    rw [floatValue_bfloat16ToFloat, floatValue_bfloat16ToFloat, hsign, hlow, hparity]
    have h := apart_withSign (a := bits.toNat / 2 ^ 31) (b := other.toNat / 2 ^ 15) (by omega) (by omega)
      (hnearest (other.toNat % 2 ^ 15)) (hnearest.opposite (other.toNat % 2 ^ 15))
    refine ⟨h.1, fun heq => (h.2 heq).imp_left fun hsame => ?_⟩
    exact UInt16.toNat_inj.mp (by omega)
  exact ⟨by rw [floatIsNaN_bfloat16ToFloat]; omega, hsign, fun other _ => (hcompare other).1,
    fun other _ => (hcompare other).2⟩

end Bebop
