import Bebop.Lib.Bits
import Mathlib.Tactic.IntervalCases
import Mathlib.Tactic.Ring

/-!
# Arithmetic inside a word

Code that treats a word as a row of small fields masks and shifts all fields at once.
Splitting the lowest byte off a word splits such a step into the step on the byte and the
step on the rest (`and_byte`), as long as nothing crosses the border.
-/

namespace Bits

theorem and_field {k a c : Nat} (q d : Nat) (ha : a < 2 ^ k) (hc : c < 2 ^ k) :
    (a + 2 ^ k * q) &&& (c + 2 ^ k * d) = (a &&& c) + 2 ^ k * (q &&& d) := by
  have hac : a &&& c < 2 ^ k := Nat.and_lt_two_pow a hc
  apply Nat.eq_of_testBit_eq
  intro i
  rw [Nat.add_comm a, Nat.add_comm c, Nat.add_comm (a &&& c), Nat.testBit_and,
    Nat.testBit_two_pow_mul_add q ha, Nat.testBit_two_pow_mul_add d hc,
    Nat.testBit_two_pow_mul_add (q &&& d) hac]
  by_cases hi : i < k
  · simp [hi]
  · simp [hi]

theorem and_byte {a c : Nat} (q d : Nat) (ha : a < 256) (hc : c < 256) :
    (a + 256 * q) &&& (c + 256 * d) = (a &&& c) + 256 * (q &&& d) :=
  and_field (k := 8) q d ha hc

theorem popcount_byte {n a : Nat} (q : Nat) (ha : a < 256) :
    popcount (8 + n) (a + 256 * q) = popcount 8 a + popcount n q := by
  have hbit : ∀ i, (a + 256 * q).testBit i =
      if i < 8 then a.testBit i else q.testBit (i - 8) := by
    intro i
    rw [Nat.add_comm]
    exact Nat.testBit_two_pow_mul_add (i := 8) q ha i
  induction n with
  | zero =>
    have hlow : bits 8 (a + 256 * q) = bits 8 a := by
      apply List.filter_congr
      intro i hi
      rw [hbit, if_pos (List.mem_range.mp hi)]
    rw [Nat.add_zero, zero_popcount, Nat.add_zero, popcount, hlow, popcount]
  | succ n ih =>
    rw [← Nat.add_assoc, popcount_succ (8 + n), popcount_succ n, ih, hbit,
      if_neg (show ¬8 + n < 8 by omega), Nat.add_sub_cancel_left, Nat.add_assoc]

/-! ## Population count in place -/

/-- A word of `n` bytes, all equal to `c`. -/
def repeatByte (c : Nat) : Nat → Nat
  | 0 => 0
  | n + 1 => c + 256 * repeatByte c n

theorem repeatByte_add (c m n : Nat) : repeatByte c (m + n) = repeatByte c m + 256 ^ m * repeatByte c n := by
  induction m with
  | zero => simp [repeatByte]
  | succ m ih =>
    rw [Nat.succ_add, repeatByte, ih, repeatByte]
    ring

theorem repeatByte_mul (c m n : Nat) : repeatByte c m * n = repeatByte (c * n) m := by
  induction m with
  | zero => simp [repeatByte]
  | succ m ih =>
    rw [repeatByte, repeatByte, ← ih]
    ring

theorem repeatByte_lt {c : Nat} (hc : c < 256) (n : Nat) : repeatByte c n < 256 ^ n := by
  induction n with
  | zero => exact Nat.one_pos
  | succ n ih =>
    rw [repeatByte, Nat.pow_succ]
    omega

theorem repeatByte_div_mod {c i n : Nat} (hc : c < 256) (hi : i < n) : repeatByte c n / 256 ^ i % 256 = c := by
  obtain ⟨k, rfl⟩ := Nat.exists_eq_add_of_lt hi
  rw [Nat.add_assoc, repeatByte_add, repeatByte, Nat.add_mul_div_left _ _ (Nat.pow_pos (by decide)),
    Nat.div_eq_of_lt (repeatByte_lt hc i), Nat.zero_add, Nat.add_mul_mod_self_left]
  exact Nat.mod_eq_of_lt hc

/-- Each pair of bits becomes the number of bits set in it. -/
def pairCounts (n m : Nat) : Nat := m - ((m >>> 1) &&& repeatByte 0x55 n)

def nibbleCounts (n v : Nat) : Nat :=
  (v &&& repeatByte 0x33 n) + ((v >>> 2) &&& repeatByte 0x33 n)

def byteCounts (n v : Nat) : Nat := (v + v >>> 4) &&& repeatByte 0x0f n

theorem byte_steps {a : Nat} (ha : a < 256) : let p := a - ((a / 2) &&& 0x55)
    let s := (p &&& 0x33) + ((p / 4) &&& 0x33)
    p < 256 ∧ s % 16 ≤ 4 ∧ s / 16 ≤ 4 ∧ (s + s / 16) % 16 = popcount 8 a := by
  have hall : ∀ a < 256,
      let p := a - ((a / 2) &&& 0x55)
      let s := (p &&& 0x33) + ((p / 4) &&& 0x33)
      p < 256 ∧ s % 16 ≤ 4 ∧ s / 16 ≤ 4 ∧ (s + s / 16) % 16 = popcount 8 a := by
    decide +kernel
  exact hall a ha

theorem border_pairs {a c : Nat} (ha : a < 256) (hc : c < 2) :
    (a / 2 + 128 * c) &&& 0x55 = (a / 2) &&& 0x55 := by
  have hall : ∀ a < 256, ∀ c < 2, (a / 2 + 128 * c) &&& 0x55 = (a / 2) &&& 0x55 := by
    decide +kernel
  exact hall a ha c hc

theorem border_nibbles {a c : Nat} (ha : a < 256) (hc : c < 4) :
    (a / 4 + 64 * c) &&& 0x33 = (a / 4) &&& 0x33 := by
  have hall : ∀ a < 256, ∀ c < 4, (a / 4 + 64 * c) &&& 0x33 = (a / 4) &&& 0x33 := by
    decide +kernel
  exact hall a ha c hc

theorem pairCounts_byte {n a : Nat} (q : Nat) (ha : a < 256) :
    pairCounts (n + 1) (a + 256 * q) = (a - ((a / 2) &&& 0x55)) + 256 * pairCounts n q := by
  have hshift : (a + 256 * q) >>> 1 = (a / 2 + 128 * (q % 2)) + 256 * (q >>> 1) := by
    rw [Nat.shiftRight_eq_div_pow, Nat.shiftRight_eq_div_pow]
    omega
  have hlow : (a / 2) &&& 0x55 ≤ a / 2 := Nat.and_le_left
  have hhigh : (q >>> 1) &&& repeatByte 0x55 n ≤ q :=
    Nat.and_le_left.trans (Nat.shiftRight_le q 1)
  unfold pairCounts
  rw [hshift, repeatByte, and_byte _ _ (by omega) (by decide), border_pairs ha (by omega)]
  omega

theorem nibbleCounts_byte {n a : Nat} (q : Nat) (ha : a < 256) :
    nibbleCounts (n + 1) (a + 256 * q) =
      ((a &&& 0x33) + ((a / 4) &&& 0x33)) + 256 * nibbleCounts n q := by
  have hshift : (a + 256 * q) >>> 2 = (a / 4 + 64 * (q % 4)) + 256 * (q >>> 2) := by
    rw [Nat.shiftRight_eq_div_pow, Nat.shiftRight_eq_div_pow]
    omega
  unfold nibbleCounts
  rw [hshift, repeatByte, and_byte _ _ ha (by decide), and_byte _ _ (by omega) (by decide),
    border_nibbles ha (by omega)]
  ring

theorem byteCounts_byte {n a q : Nat} (hlow : a % 16 ≤ 4) (hhigh : a / 16 ≤ 4)
    (hnext : q % 16 ≤ 4) :
    byteCounts (n + 1) (a + 256 * q) = (a + a / 16) % 16 + 256 * byteCounts n q := by
  have hshift : a + 256 * q + (a + 256 * q) >>> 4 =
      (a + a / 16 + 16 * (q % 16)) + 256 * (q + q >>> 4) := by
    rw [Nat.shiftRight_eq_div_pow, Nat.shiftRight_eq_div_pow]
    omega
  unfold byteCounts
  rw [hshift, repeatByte, and_byte _ _ (by omega) (by decide),
    Nat.and_two_pow_sub_one_eq_mod _ 4]
  omega

theorem nibbleCounts_pairCounts_mod (n m : Nat) : nibbleCounts n (pairCounts n m) % 16 ≤ 4 := by
  cases n with
  | zero => simp [nibbleCounts, repeatByte]
  | succ n =>
    obtain ⟨a, q, ha, rfl⟩ : ∃ a q, a < 256 ∧ m = a + 256 * q :=
      ⟨m % 256, m / 256, Nat.mod_lt m (by decide), (Nat.mod_add_div m 256).symm⟩
    obtain ⟨hp, hs, -, -⟩ := byte_steps ha
    rw [pairCounts_byte q ha, nibbleCounts_byte _ hp]
    omega

theorem byteCounts_succ {n a : Nat} (q : Nat) (ha : a < 256) :
    byteCounts (n + 1) (nibbleCounts (n + 1) (pairCounts (n + 1) (a + 256 * q))) =
      popcount 8 a + 256 * byteCounts n (nibbleCounts n (pairCounts n q)) := by
  obtain ⟨hp, hlow, hhigh, hcount⟩ := byte_steps ha
  rw [pairCounts_byte q ha, nibbleCounts_byte _ hp,
    byteCounts_byte hlow hhigh (nibbleCounts_pairCounts_mod n q), hcount]

/-- The four counts, multiplied into the top byte of a 32-bit word. -/
def swarPopcount (m : Nat) : Nat :=
  (byteCounts 4 (nibbleCounts 4 (pairCounts 4 m)) * 0x01010101 % 2 ^ 32) >>> 24

theorem byteCounts_word {m : Nat} (hm : m < 2 ^ 32) :
    ∃ a b c d, byteCounts 4 (nibbleCounts 4 (pairCounts 4 m)) =
        a + 256 * (b + 256 * (c + 256 * d)) ∧
      a ≤ 8 ∧ b ≤ 8 ∧ c ≤ 8 ∧ d ≤ 8 ∧ popcount 32 m = a + (b + (c + d)) := by
  obtain ⟨w, x, y, z, hw, hx, hy, hz, rfl⟩ : ∃ w x y z, w < 256 ∧ x < 256 ∧ y < 256 ∧ z < 256 ∧
      m = w + 256 * (x + 256 * (y + 256 * z)) :=
    ⟨m % 256, m / 256 % 256, m / 65536 % 256, m / 16777216, by omega, by omega, by omega, by omega,
      by omega⟩
  refine ⟨popcount 8 w, popcount 8 x, popcount 8 y, popcount 8 z, ?_, popcount_le 8 w,
    popcount_le 8 x, popcount_le 8 y, popcount_le 8 z, ?_⟩
  · have hlast := byteCounts_succ (n := 0) 0 hz
    have hzero : byteCounts 0 (nibbleCounts 0 (pairCounts 0 0)) = 0 := by decide
    rw [Nat.mul_zero, Nat.add_zero, hzero, Nat.mul_zero, Nat.add_zero] at hlast
    rw [byteCounts_succ _ hw, byteCounts_succ _ hx, byteCounts_succ _ hy, hlast, Nat.add_zero]
  · have h3 := popcount_byte (n := 0) 0 hz
    rw [Nat.mul_zero, Nat.add_zero, zero_popcount, Nat.add_zero] at h3
    rw [popcount_byte (n := 24) _ hw, popcount_byte (n := 16) _ hx, popcount_byte (n := 8) _ hy]

theorem shiftRight_top_byte {low top : Nat} (high : Nat) (hlow : low < 2 ^ 24) (htop : top < 256) :
    ((low + 2 ^ 24 * top + 2 ^ 32 * high) % 2 ^ 32) >>> 24 = top := by
  rw [Nat.shiftRight_eq_div_pow]
  omega

theorem swarPopcount_eq {m : Nat} (hm : m < 2 ^ 32) : swarPopcount m = popcount 32 m := by
  obtain ⟨a, b, c, d, hcounts, ha, hb, hc, hd, hsum⟩ := byteCounts_word hm
  -- the product adds every count into bits 24 to 31; the rest is below or above
  have hproduct : (a + 256 * (b + 256 * (c + 256 * d))) * 0x01010101 =
      (a * 65793 + b * 65792 + c * 65536) + 2 ^ 24 * (a + (b + (c + d))) +
        2 ^ 32 * (b + c * 257 + d * 65793) := by
    ring
  rw [swarPopcount, hcounts, hproduct, hsum]
  exact shiftRight_top_byte _ (by omega) (by omega)

/-! ## Bytes that are zero -/

variable (w : BitVec 64)

/-- The byte of a word at `i`, from the low end. -/
def byte (i : Nat) : Nat := w.toNat / 256 ^ i % 256

theorem byte_lt (i : Nat) : byte w i < 256 := Nat.mod_lt _ (by decide)

theorem testBit_byte (i : Nat) {j : Nat} (hj : j < 8) :
    (byte w i).testBit j = w.getLsbD (8 * i + j) := by
  have hpow : 256 ^ i = 2 ^ (8 * i) := by rw [Nat.pow_mul]
  have hmod := Nat.testBit_mod_two_pow (w.toNat / 256 ^ i) 8 j
  rw [decide_eq_true hj, Bool.true_and] at hmod
  unfold byte
  rw [BitVec.getLsbD, Nat.add_comm, ← Nat.testBit_div_two_pow, ← hpow]
  exact hmod

theorem testBit_seven {a : Nat} (ha : a < 256) : a.testBit 7 = decide (128 ≤ a) := by
  rw [Nat.testBit_eq_decide_div_mod_eq]
  congr 1
  exact propext (by omega)

theorem getLsbD_high (i : Nat) : w.getLsbD (8 * i + 7) = decide (128 ≤ byte w i) := by
  rw [← testBit_byte w i (by decide), testBit_seven (byte_lt w i)]

theorem byte_xor (v w : BitVec 64) (i : Nat) : byte (v ^^^ w) i = byte v i ^^^ byte w i := by
  have hpow : 256 ^ i = 2 ^ (8 * i) := by rw [Nat.pow_mul]
  unfold byte
  rw [BitVec.toNat_xor, hpow, ← Nat.shiftRight_eq_div_pow, ← Nat.shiftRight_eq_div_pow, ← Nat.shiftRight_eq_div_pow,
    Nat.shiftRight_xor_distrib, show 256 = 2 ^ 8 from rfl, Nat.xor_mod_two_pow]

theorem getLsbD_highBits (j : Nat) :
    (0x8080808080808080#64).getLsbD j = true ↔ j < 64 ∧ j % 8 = 7 := by
  by_cases hj : j < 64
  · have hall : ∀ j < 64, (0x8080808080808080#64).getLsbD j = decide (j % 8 = 7) := by decide
    rw [hall j hj, decide_eq_true_eq]
    exact (and_iff_right hj).symm
  · rw [BitVec.getLsbD_of_ge _ _ (Nat.le_of_not_lt hj)]
    exact iff_of_false Bool.false_ne_true fun h => hj h.1

/-- The high bits of the bytes that are zero, and of some that are one. -/
def zeroBytes : BitVec 64 :=
  (w - 0x0101010101010101#64) &&& ~~~w &&& 0x8080808080808080#64

/-- The bytes below do not have what is taken from them. -/
def Borrows (i : Nat) : Prop := w.toNat % 256 ^ i < 0x0101010101010101 % 256 ^ i

theorem byte_sub_ones {i : Nat} (hi : i < 8) (hbyte : byte w i < 128) :
    128 ≤ byte (w - 0x0101010101010101#64) i ↔ byte w i = 0 ∨ byte w i = 1 ∧ Borrows w i := by
  have hlt := w.isLt
  unfold Borrows byte at *
  rw [BitVec.toNat_sub]
  simp only [BitVec.toNat_ofNat]
  interval_cases i <;> omega

/-- The test finds the zero bytes, and those that are one where the bytes below borrow. -/
theorem zeroBytes_iff {i : Nat} (hi : i < 8) :
    (zeroBytes w).getLsbD (8 * i + 7) = true ↔ byte w i = 0 ∨ byte w i = 1 ∧ Borrows w i := by
  have hbit : 8 * i + 7 < 64 := by omega
  rw [zeroBytes, BitVec.getLsbD_and, BitVec.getLsbD_and, BitVec.getLsbD_not, decide_eq_true hbit, getLsbD_high,
    getLsbD_high, Bool.and_eq_true, Bool.and_eq_true, getLsbD_highBits]
  have hmask : 8 * i + 7 < 64 ∧ (8 * i + 7) % 8 = 7 := by omega
  by_cases hbyte : byte w i < 128
  · rw [← byte_sub_ones w hi hbyte]
    simp [hmask, hbyte]
  · simp only [hmask]
    constructor
    · intro h
      simp [Nat.le_of_not_lt hbyte] at h
    · rintro (h | ⟨h, -⟩) <;> omega

end Bits
