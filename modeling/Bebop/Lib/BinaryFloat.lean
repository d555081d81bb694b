import Mathlib.Algebra.Order.Ring.Int
import Mathlib.Order.Monotone.Basic
import Mathlib.Tactic.Ring

/-!
# Binary floating-point patterns

The patterns of a binary interchange format, less the sign, are numbers in the order of their
values (`magnitude_strictMono`), and between two multiples of `2 ^ k` the values are evenly
spaced (`magnitude_add`). Hence a narrower format with the same exponents is reached by
rounding the pattern as if it were an integer (`nearest_roundEven`).
-/

namespace BinaryFloat

/-- The distance to the next value, from a pattern with `p` bits of fraction. -/
def ulp (p n : Nat) : Nat := 2 ^ (n / 2 ^ p - 1)

/-- The value of a pattern with `p` bits of fraction. -/
def magnitude (p n : Nat) : Nat :=
  if n / 2 ^ p = 0 then n % 2 ^ p else (2 ^ p + n % 2 ^ p) * ulp p n

theorem ulp_pos (p n : Nat) : 0 < ulp p n := Nat.two_pow_pos _

@[simp] theorem magnitude_zero (p : Nat) : magnitude p 0 = 0 := by
  simp [magnitude]

theorem magnitude_fields (p e : Nat) {f : Nat} (hf : f ≤ 2 ^ p) :
    magnitude p (e * 2 ^ p + f) = if e = 0 then f else (2 ^ p + f) * 2 ^ (e - 1) := by
  have hpos := Nat.two_pow_pos p
  unfold magnitude ulp
  rcases Nat.lt_or_eq_of_le hf with hlt | rfl
  · have hdiv : (e * 2 ^ p + f) / 2 ^ p = e := by
      rw [Nat.add_comm, Nat.add_mul_div_right _ _ hpos, Nat.div_eq_of_lt hlt, Nat.zero_add]
    have hmod : (e * 2 ^ p + f) % 2 ^ p = f := by
      rw [Nat.add_comm, Nat.add_mul_mod_self_right, Nat.mod_eq_of_lt hlt]
    rw [hdiv, hmod]
  · -- the fraction is full: the first value with the next exponent
    rw [← Nat.succ_mul, Nat.mul_div_cancel _ hpos, Nat.mul_mod_left, if_neg (Nat.succ_ne_zero e), Nat.add_zero,
      Nat.succ_sub_one]
    cases e with
    | zero => rw [if_pos rfl, Nat.pow_zero, Nat.mul_one]
    | succ e =>
      rw [if_neg (Nat.succ_ne_zero e), Nat.succ_sub_one, Nat.pow_succ]
      ring

/-- From a multiple of `2 ^ k` to the next the values are evenly spaced. -/
theorem magnitude_add {p k : Nat} (hk : k ≤ p) (h : Nat) {low : Nat} (hlow : low ≤ 2 ^ k) :
    magnitude p (h * 2 ^ k + low) = magnitude p (h * 2 ^ k) + low * ulp p (h * 2 ^ k) := by
  have hpos := Nat.two_pow_pos p
  have hfields := Nat.div_add_mod (h * 2 ^ k) (2 ^ p)
  have hlt := Nat.mod_lt (h * 2 ^ k) hpos
  -- the fraction is a multiple of `2 ^ k` below `2 ^ p`, which is one too
  have hroom : h * 2 ^ k % 2 ^ p + 2 ^ k ≤ 2 ^ p := by
    obtain ⟨d, rfl⟩ := Nat.exists_eq_add_of_le hk
    rw [Nat.pow_add, Nat.mul_comm h, Nat.mul_mod_mul_left, ← Nat.mul_succ]
    exact Nat.mul_le_mul_left _ (Nat.mod_lt h (Nat.two_pow_pos d))
  unfold ulp
  generalize h * 2 ^ k / 2 ^ p = e at *
  generalize h * 2 ^ k % 2 ^ p = f at *
  rw [← hfields, Nat.mul_comm (2 ^ p), Nat.add_assoc, magnitude_fields p e (by omega), magnitude_fields p e (by omega)]
  cases e with
  | zero => rw [if_pos rfl, if_pos rfl, Nat.zero_sub, Nat.pow_zero, Nat.mul_one]
  | succ e =>
    rw [if_neg (Nat.succ_ne_zero e), if_neg (Nat.succ_ne_zero e), ← Nat.add_mul, Nat.add_assoc]

theorem magnitude_strictMono (p : Nat) : StrictMono (magnitude p) := by
  refine strictMono_nat_of_lt_succ fun n => ?_
  have hstep := magnitude_add (Nat.zero_le p) n (show 1 ≤ 2 ^ 0 from Nat.le_refl _)
  have hpos := ulp_pos p (n * 2 ^ 0)
  rw [Nat.pow_zero, Nat.mul_one] at hstep hpos
  omega

/-! ## Rounding -/

/-- The upper part, after adding just below a half, or a half if it is odd. -/
def roundEven (k n : Nat) : Nat := (n + (2 ^ k / 2 - 1) + n / 2 ^ k % 2) / 2 ^ k

def RoundsUp (k n : Nat) : Prop := 2 ^ k / 2 < n % 2 ^ k + n / 2 ^ k % 2

instance (k n : Nat) : Decidable (RoundsUp k n) := inferInstanceAs (Decidable (_ < _))

theorem roundEven_eq {k : Nat} (hk : 0 < k) (n : Nat) :
    roundEven k n = n / 2 ^ k + if RoundsUp k n then 1 else 0 := by
  have hpow : 2 ^ k = 2 * 2 ^ (k - 1) := by
    rw [← Nat.pow_succ', Nat.succ_eq_add_one, Nat.sub_add_cancel hk]
  have hhalf := Nat.two_pow_pos (k - 1)
  have hsplit := Nat.div_add_mod n (2 ^ k)
  have hlt := Nat.mod_lt n (Nat.two_pow_pos k)
  have hcarry : roundEven k n = n / 2 ^ k + (n % 2 ^ k + (2 ^ k / 2 - 1) + n / 2 ^ k % 2) / 2 ^ k := by
    unfold roundEven
    conv => lhs; rw [← hsplit]
    rw [Nat.add_assoc, Nat.add_assoc, Nat.mul_add_div (Nat.two_pow_pos k), ← Nat.add_assoc, hsplit]
  rw [hcarry]
  congr 1
  have hodd := Nat.mod_two_eq_zero_or_one (n / 2 ^ k)
  by_cases hup : RoundsUp k n
  · rw [if_pos hup]
    unfold RoundsUp at hup
    exact Nat.div_eq_of_lt_le (by omega) (by omega)
  · rw [if_neg hup]
    unfold RoundsUp at hup
    exact Nat.div_eq_of_lt (by omega)

def apart (x y : Int) : Nat := (x - y).natAbs

/-- The upper part with the nearest value; of two equally near, the even one. -/
def Nearest (p k n r : Nat) : Prop :=
  ∀ s, apart (magnitude p (r * 2 ^ k)) (magnitude p n) ≤ apart (magnitude p (s * 2 ^ k)) (magnitude p n) ∧
    (apart (magnitude p (r * 2 ^ k)) (magnitude p n) = apart (magnitude p (s * 2 ^ k)) (magnitude p n) →
      s = r ∨ r % 2 = 0)

theorem nearest_roundEven {p k : Nat} (hk : 0 < k) (hp : k ≤ p) (n : Nat) : Nearest p k n (roundEven k n) := by
  have hpow : 2 ^ k = 2 * (2 ^ k / 2) := (Nat.mul_div_cancel' (dvd_pow_self 2 hk.ne')).symm
  have hsplit := Nat.div_add_mod n (2 ^ k)
  have hlt := Nat.mod_lt n (Nat.two_pow_pos k)
  have hu := ulp_pos p (n / 2 ^ k * 2 ^ k)
  have hlow := magnitude_add hp (n / 2 ^ k) (Nat.le_of_lt hlt)
  have hnext := magnitude_add hp (n / 2 ^ k) (Nat.le_refl (2 ^ k))
  rw [Nat.mul_comm (n / 2 ^ k), hsplit] at hlow
  rw [← Nat.succ_mul, Nat.succ_eq_add_one] at hnext
  rw [Nat.mul_comm (2 ^ k)] at hlow
  rw [roundEven_eq hk]
  intro s
  unfold apart
  -- the other value lies below the interval, or above it
  have hbelow {s : Nat} (hs : s < n / 2 ^ k) : magnitude p (s * 2 ^ k) < magnitude p (n / 2 ^ k * 2 ^ k) :=
    magnitude_strictMono p (Nat.mul_lt_mul_of_pos_right hs (Nat.two_pow_pos k))
  have habove {s : Nat} (hs : n / 2 ^ k + 1 < s) : magnitude p ((n / 2 ^ k + 1) * 2 ^ k) < magnitude p (s * 2 ^ k) :=
    magnitude_strictMono p (Nat.mul_lt_mul_of_pos_right hs (Nat.two_pow_pos k))
  by_cases hup : RoundsUp k n
  all_goals
    unfold RoundsUp at hup
  · rw [if_pos (show RoundsUp k n from hup)]
    generalize n / 2 ^ k = h at *
    generalize n % 2 ^ k = low at *
    generalize ulp p (h * 2 ^ k) = u at *
    have hupper : (2 ^ k - low) * u + low * u = 2 ^ k * u := by
      rw [← Nat.add_mul, Nat.sub_add_cancel (Nat.le_of_lt hlt)]
    have hle : (2 ^ k - low) * u ≤ low * u := Nat.mul_le_mul_right u (by omega)
    have heq : (2 ^ k - low) * u = low * u → h % 2 = 1 := by
      intro heq
      have := Nat.eq_of_mul_eq_mul_right hu heq
      omega
    rcases Nat.lt_trichotomy s (h + 1) with hs | rfl | hs
    · rcases Nat.lt_or_eq_of_le (Nat.le_of_lt_succ hs) with hs | rfl
      · have := hbelow hs
        omega
      · omega
    · exact ⟨Nat.le_refl _, fun _ => .inl rfl⟩
    · have := habove hs
      omega
  · rw [if_neg (show ¬RoundsUp k n from hup), Nat.add_zero]
    generalize n / 2 ^ k = h at *
    generalize n % 2 ^ k = low at *
    generalize ulp p (h * 2 ^ k) = u at *
    have hupper : (2 ^ k - low) * u + low * u = 2 ^ k * u := by
      rw [← Nat.add_mul, Nat.sub_add_cancel (Nat.le_of_lt hlt)]
    have hle : low * u ≤ (2 ^ k - low) * u := Nat.mul_le_mul_right u (by omega)
    have heq : low * u = (2 ^ k - low) * u → h % 2 = 0 := by
      intro heq
      have := Nat.eq_of_mul_eq_mul_right hu heq
      omega
    rcases Nat.lt_trichotomy s h with hs | rfl | hs
    · have := hbelow hs
      omega
    · exact ⟨Nat.le_refl _, fun _ => .inl rfl⟩
    · rcases Nat.lt_or_eq_of_le (show h + 1 ≤ s from hs) with hs | rfl
      · have := habove hs
        omega
      · omega

/-! ## Signs -/

def withSign (sign n : Nat) : Int := if sign = 1 then -(n : Int) else n

/-- The value of a pattern with a sign at bit `w`. -/
def signed (p w n : Nat) : Int := withSign (n / 2 ^ w) (magnitude p (n % 2 ^ w))

theorem Nearest.opposite {p k n r : Nat} (h : Nearest p k n r) (s : Nat) :
    apart (magnitude p (r * 2 ^ k)) (magnitude p n) ≤ magnitude p (s * 2 ^ k) + magnitude p n ∧
      (apart (magnitude p (r * 2 ^ k)) (magnitude p n) = magnitude p (s * 2 ^ k) + magnitude p n → r % 2 = 0) := by
  obtain ⟨hle, heq⟩ := h 0
  rw [Nat.zero_mul, magnitude_zero] at hle heq
  have hzero : apart (0 : Nat) (magnitude p n) = magnitude p n := by
    unfold apart
    omega
  rw [hzero] at hle heq
  refine ⟨by omega, fun hfar => ?_⟩
  rcases heq (by omega) with rfl | heven
  · rfl
  · exact heven

theorem apart_withSign {x y z a b : Nat} (ha : a < 2) (hb : b < 2) {same even : Prop}
    (hsame : apart x y ≤ apart z y ∧ (apart x y = apart z y → same ∨ even))
    (hopposite : apart x y ≤ z + y ∧ (apart x y = z + y → even)) :
    apart (withSign a x) (withSign a y) ≤ apart (withSign b z) (withSign a y) ∧
      (apart (withSign a x) (withSign a y) = apart (withSign b z) (withSign a y) → b = a ∧ same ∨ even) := by
  have hleft : apart (withSign a x) (withSign a y) = apart x y := by
    unfold apart withSign
    split <;> omega
  rw [hleft]
  by_cases hsigns : b = a
  · have hright : apart (withSign b z) (withSign a y) = apart z y := by
      rw [hsigns]
      unfold apart withSign
      split <;> omega
    rw [hright]
    exact ⟨hsame.1, fun heq => (hsame.2 heq).imp_left fun h => ⟨hsigns, h⟩⟩
  · have hright : apart (withSign b z) (withSign a y) = z + y := by
      unfold apart withSign
      split <;> split <;> omega
    rw [hright]
    exact ⟨hopposite.1, fun heq => .inr (hopposite.2 heq)⟩

theorem roundEven_sign {k w : Nat} (hk : 0 < k) (hw : k < w) (b m : Nat) :
    roundEven k (b * 2 ^ w + m) = b * 2 ^ (w - k) + roundEven k m := by
  obtain ⟨d, rfl⟩ := Nat.exists_eq_add_of_lt hw
  have hsub : k + d + 1 - k = d + 1 := by omega
  have hpow : b * 2 ^ (k + d + 1) + m = 2 ^ k * (b * 2 ^ (d + 1)) + m := by
    rw [Nat.add_assoc, Nat.pow_add]
    ring
  have hdiv : (b * 2 ^ (k + d + 1) + m) / 2 ^ k = b * 2 ^ (d + 1) + m / 2 ^ k := by
    rw [hpow, Nat.mul_add_div (Nat.two_pow_pos k)]
  have hmod : (b * 2 ^ (k + d + 1) + m) % 2 ^ k = m % 2 ^ k := by
    rw [hpow, Nat.mul_add_mod]
  have heven : (b * 2 ^ (d + 1) + m / 2 ^ k) % 2 = m / 2 ^ k % 2 := by
    rw [Nat.pow_succ, ← Nat.mul_assoc]
    omega
  have hup : RoundsUp k (b * 2 ^ (k + d + 1) + m) ↔ RoundsUp k m := by
    unfold RoundsUp
    rw [hdiv, hmod, heven]
  rw [roundEven_eq hk, roundEven_eq hk, hdiv, hsub, Nat.add_assoc]
  simp only [hup]

end BinaryFloat
