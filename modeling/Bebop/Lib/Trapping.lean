import Mathlib.Tactic.Common
import Mathlib.Algebra.Group.Int.Defs

/-!
# Trapping integers

Signed integers of a fixed width whose operations stop the program where the exact result
does not fit. A value carries the proof that it fits; an operation computes over the
integers and then asks for a value again (`exactly`). Division cuts off toward zero.
-/

namespace Trapping

def Fits (w : Nat) (n : Int) : Prop := -2 ^ (w - 1) ≤ n ∧ n < 2 ^ (w - 1)

instance (w : Nat) (n : Int) : Decidable (Fits w n) := inferInstanceAs (Decidable (_ ∧ _))

@[ext]
structure SignedInt (w : Nat) where
  val : Int
  fits : Fits w val
  deriving DecidableEq

variable {v w : Nat} {n : Int} {a b : SignedInt w}

def exactly (w : Nat) (n : Int) : Option (SignedInt w) := if h : Fits w n then some ⟨n, h⟩ else none

theorem exactly_of (h : Fits w n) : ∃ a, exactly w n = some a ∧ a.val = n := ⟨⟨n, h⟩, dif_pos h, rfl⟩

theorem exactly_of_not (h : ¬Fits w n) : exactly w n = none := dif_neg h

namespace SignedInt

def add (a b : SignedInt w) : Option (SignedInt w) := exactly w (a.val + b.val)

def sub (a b : SignedInt w) : Option (SignedInt w) := exactly w (a.val - b.val)

def mul (a b : SignedInt w) : Option (SignedInt w) := exactly w (a.val * b.val)

def neg (a : SignedInt w) : Option (SignedInt w) := exactly w (-a.val)

def div (a b : SignedInt w) : Option (SignedInt w) := if b.val = 0 then none else exactly w (a.val.tdiv b.val)

def mod (a b : SignedInt w) : Option (SignedInt w) := if b.val = 0 then none else exactly w (a.val.tmod b.val)

def convert (v : Nat) (a : SignedInt w) : Option (SignedInt v) := exactly v a.val

theorem add_of (h : Fits w (a.val + b.val)) : ∃ c, a.add b = some c ∧ c.val = a.val + b.val := exactly_of h

theorem sub_of (h : Fits w (a.val - b.val)) : ∃ c, a.sub b = some c ∧ c.val = a.val - b.val := exactly_of h

theorem sub_of_not (h : ¬Fits w (a.val - b.val)) : a.sub b = none := exactly_of_not h

theorem mul_of (h : Fits w (a.val * b.val)) : ∃ c, a.mul b = some c ∧ c.val = a.val * b.val := exactly_of h

theorem neg_of (h : Fits w (-a.val)) : ∃ c, a.neg = some c ∧ c.val = -a.val := exactly_of h

theorem div_of (hb : b.val ≠ 0) (h : Fits w (a.val.tdiv b.val)) :
    ∃ c, a.div b = some c ∧ c.val = a.val.tdiv b.val := by
  unfold div
  rw [if_neg hb]
  exact exactly_of h

theorem mod_of (hb : b.val ≠ 0) (h : Fits w (a.val.tmod b.val)) :
    ∃ c, a.mod b = some c ∧ c.val = a.val.tmod b.val := by
  unfold mod
  rw [if_neg hb]
  exact exactly_of h

theorem convert_of (h : Fits v a.val) : ∃ c, a.convert v = some c ∧ c.val = a.val := exactly_of h

end SignedInt

/-! ## Division in two steps -/

theorem tdiv_mul_add (n : Int) {a b : Int} (ha : 0 < a) (hb : 0 < b) :
    n.tdiv b = n.tdiv (a * b) * a + (n.tmod (a * b)).tdiv b := by
  obtain ⟨c, rfl⟩ := Int.eq_ofNat_of_zero_le (Int.le_of_lt ha)
  obtain ⟨d, rfl⟩ := Int.eq_ofNat_of_zero_le (Int.le_of_lt hb)
  have hnat (k : Nat) : k / d = k / (c * d) * c + k % (c * d) / d := by
    rw [Nat.mul_comm c d, ← Nat.div_div_eq_div_mul, Nat.mod_mul_right_div_self]
    exact (Nat.div_add_mod' (k / d) c).symm
  have hint (k : Nat) :
      (k : Int).tdiv d = (k : Int).tdiv (c * d) * c + ((k : Int).tmod (c * d)).tdiv d := by
    have hcast := congrArg (Nat.cast : Nat → Int) (hnat k)
    rwa [Int.natCast_add, Int.natCast_mul, Int.ofNat_tdiv, Int.ofNat_tdiv, Int.ofNat_tdiv, Int.ofNat_tmod,
      Int.natCast_mul] at hcast
  rcases Int.eq_nat_or_neg n with ⟨k, rfl | rfl⟩
  · exact hint k
  · rw [Int.neg_tdiv, Int.neg_tdiv, Int.neg_tmod, Int.neg_tdiv, hint k, Int.neg_mul, Int.neg_add]

theorem tdiv_bounds {n a b : Int} (hb : 0 < b) (hlow : -(a * b) < n) (hhigh : n < a * b) :
    -a < n.tdiv b ∧ n.tdiv b < a := by
  have hbelow {m : Int} (hm : 0 ≤ m) (hlt : m < a * b) : 0 ≤ m.tdiv b ∧ m.tdiv b < a := by
    rw [Int.tdiv_eq_ediv_of_nonneg hm]
    exact ⟨Int.ediv_nonneg hm (Int.le_of_lt hb), Int.ediv_lt_of_lt_mul hb hlt⟩
  by_cases hn : 0 ≤ n
  · obtain ⟨hnonneg, hlt⟩ := hbelow hn hhigh
    omega
  · obtain ⟨hnonneg, hlt⟩ := hbelow (m := -n) (by omega) (by omega)
    rw [Int.neg_tdiv] at hnonneg hlt
    omega

end Trapping
