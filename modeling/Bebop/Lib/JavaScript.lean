import Bebop.Lib.Bits
import Mathlib.Data.Int.Bitwise
import Mathlib.Tactic.Ring
import Mathlib.Data.Rat.Defs

/-!
# JavaScript integers — the 32-bit operators

The bitwise operators of JavaScript work on the 32-bit patterns of their operands and yield
signed results, except `>>>`, whose result is unsigned. The operands here are integers that
a double holds exactly.
-/

namespace JavaScript

/-- `ToUint32` -/
def toUint32 (x : Int) : Nat := (x % 2 ^ 32).toNat

/-- `ToInt32` -/
def toInt32 (x : Int) : Int := x.bmod (2 ^ 32)

/-- `x & y` -/
def land (x y : Int) : Int := toInt32 ((toUint32 x &&& toUint32 y : Nat) : Int)

/-- `x | y` -/
def lor (x y : Int) : Int := toInt32 ((toUint32 x ||| toUint32 y : Nat) : Int)

/-- `~x` -/
def lnot (x : Int) : Int := -toInt32 x - 1

def shiftCount (n : Int) : Nat := toUint32 n % 32

/-- `x << n` -/
def shl (x n : Int) : Int := toInt32 ((toUint32 x <<< shiftCount n : Nat) : Int)

/-- `x >>> n` -/
def shru (x n : Int) : Int := ((toUint32 x >>> shiftCount n : Nat) : Int)

theorem toUint32_lt (x : Int) : toUint32 x < 2 ^ 32 := by
  unfold toUint32
  omega

theorem toUint32_natCast {n : Nat} (h : n < 2 ^ 32) : toUint32 (n : Int) = n := by
  unfold toUint32
  omega

theorem toUint32_toInt32 (n : Nat) : toUint32 (toInt32 (n : Int)) = n % 2 ^ 32 := by
  have hmod : (n : Int).bmod (2 ^ 32) % ((2 ^ 32 : Nat) : Int) = n % ((2 ^ 32 : Nat) : Int) :=
    Int.bmod_emod
  change ((n : Int).bmod (2 ^ 32) % ((2 ^ 32 : Nat) : Int)).toNat = _
  rw [hmod]
  omega

theorem toInt32_natCast {n : Nat} (h : n < 2 ^ 31) : toInt32 (n : Int) = n := by
  unfold toInt32
  exact Int.bmod_eq_of_le (by omega) (by omega)

theorem toInt32_eq_zero {n : Nat} (h : n < 2 ^ 32) : toInt32 (n : Int) = 0 ↔ n = 0 := by
  constructor
  · intro hzero
    have hmod := toUint32_toInt32 n
    rw [hzero, Nat.mod_eq_of_lt h] at hmod
    exact hmod.symm
  · rintro rfl
    rfl

theorem land_eq_zero (x y : Int) : land x y = 0 ↔ toUint32 x &&& toUint32 y = 0 :=
  toInt32_eq_zero (Nat.and_lt_two_pow _ (toUint32_lt y))

theorem land_natCast {m n : Nat} (hm : m < 2 ^ 32) (hn : n < 2 ^ 32) (h : m &&& n < 2 ^ 31) :
    land m n = ((m &&& n : Nat) : Int) := by
  unfold land
  rw [toUint32_natCast hm, toUint32_natCast hn, toInt32_natCast h]

theorem land_two_pow {m i : Nat} (hm : m < 2 ^ 32) (hi : i < 32) :
    land m ((2 ^ i : Nat) : Int) = 0 ↔ m.testBit i = false := by
  have hbit : 2 ^ i < 2 ^ 32 := Nat.pow_lt_pow_right (by decide) hi
  rw [land_eq_zero, toUint32_natCast hm, toUint32_natCast hbit, ← Nat.one_shiftLeft]
  exact Bits.and_one_shiftLeft_eq_zero

theorem land_mask {m n : Nat} (hm : m < 2 ^ 32) (hn : n < 2 ^ 31) :
    land m n = ((m &&& n : Nat) : Int) :=
  land_natCast hm (by omega) (Nat.and_lt_two_pow m hn)

theorem toUint32_lor (x y : Int) : toUint32 (lor x y) = toUint32 x ||| toUint32 y := by
  unfold lor
  rw [toUint32_toInt32, Nat.mod_eq_of_lt]
  exact Nat.or_lt_two_pow (toUint32_lt x) (toUint32_lt y)

theorem lor_eq_natCast {x y : Int} {n : Nat} (h : toUint32 (lor x y) = n) (hn : n < 2 ^ 31) :
    lor x y = n := by
  rw [toUint32_lor] at h
  rw [lor, h, toInt32_natCast hn]

theorem lor_natCast {m n : Nat} (hm : m < 2 ^ 32) (hn : n < 2 ^ 32) (h : m ||| n < 2 ^ 31) :
    lor m n = ((m ||| n : Nat) : Int) := by
  unfold lor
  rw [toUint32_natCast hm, toUint32_natCast hn, toInt32_natCast h]

theorem shiftCount_natCast {k : Nat} (hk : k < 32) : shiftCount (k : Int) = k := by
  rw [shiftCount, toUint32_natCast (by omega), Nat.mod_eq_of_lt hk]

theorem toUint32_shl {n k : Nat} (hk : k < 32) (h : n <<< k < 2 ^ 32) :
    toUint32 (shl n k) = n <<< k := by
  have hn : n < 2 ^ 32 := by
    refine Nat.lt_of_le_of_lt ?_ h
    rw [Nat.shiftLeft_eq]
    exact Nat.le_mul_of_pos_right n (Nat.two_pow_pos k)
  rw [shl, toUint32_toInt32, toUint32_natCast hn, shiftCount_natCast hk, Nat.mod_eq_of_lt h]

theorem toUint32_one_shl {i : Nat} (hi : i < 32) : toUint32 (shl 1 i) = 1 <<< i := by
  have hone : 1 <<< i < 2 ^ 32 := by
    rw [Nat.one_shiftLeft]
    exact Nat.pow_lt_pow_right (by decide) hi
  exact toUint32_shl (n := 1) hi hone

theorem shl_natCast {n k : Nat} (hk : k < 32) (h : n <<< k < 2 ^ 31) :
    shl n k = ((n <<< k : Nat) : Int) := by
  have hn : n < 2 ^ 32 := by
    have hle : n ≤ n <<< k := by
      rw [Nat.shiftLeft_eq]
      exact Nat.le_mul_of_pos_right n (Nat.two_pow_pos k)
    omega
  rw [shl, toUint32_natCast hn, shiftCount_natCast hk, toInt32_natCast h]

theorem shru_natCast {n k : Nat} (h : n < 2 ^ 32) (hk : k < 32) :
    shru n k = ((n >>> k : Nat) : Int) := by
  rw [shru, toUint32_natCast h, shiftCount_natCast hk]

theorem shru_natCast_mod (n : Nat) {k : Nat} (hk : k < 32) :
    shru n k = (((n % 2 ^ 32) >>> k : Nat) : Int) := by
  have hmod : toUint32 (n : Int) = n % 2 ^ 32 := by
    unfold toUint32
    omega
  rw [shru, hmod, shiftCount_natCast hk]

theorem shru_zero (x : Int) : shru x 0 = (toUint32 x : Int) := rfl

/-! ## Subarrays -/

/-- An index argument of `subarray`: negative ones count from the end. -/
def relativeIndex (length k : Int) : Int := if k < 0 then max (length + k) 0 else min k length

/-- The bounds of `array.subarray(start, end)`. -/
def subarray (length start stop : Int) : Int × Int :=
  (relativeIndex length start, max (relativeIndex length start) (relativeIndex length stop))

theorem subarray_of_le {length start stop : Int} (hstart : 0 ≤ start) (hle : start ≤ stop)
    (hstop : stop ≤ length) : subarray length start stop = (start, stop) := by
  have hs : relativeIndex length start = start := by
    unfold relativeIndex
    rw [if_neg (by omega)]
    omega
  have he : relativeIndex length stop = stop := by
    unfold relativeIndex
    rw [if_neg (by omega)]
    omega
  rw [subarray, hs, he, max_eq_right hle]

end JavaScript
