import Bebop.Compiler.ParserTypes
import Mathlib.Algebra.Group.Int.Defs

/-!
# Bebop — integer literals

`bebop_util_parse_uint` and `bebop_util_parse_int` of `bebop_utils.c`. The digits are added
up modulo 2^64, and an overflow is seen when a step makes the sum smaller. A sum that wraps
without ever getting smaller is taken for the number.
-/

namespace Bebop.Compiler

/-- `bebop_util_parse_uint` -/
def parseUint (s : List UInt8) : Option Nat :=
  match s with
  | [] => none
  | c :: rest => if c = '-'.toUInt8 then none else parseMagnitude (if c = '+'.toUInt8 then rest else s)

/-! ## Literals -/

def Digits (base : Nat) (digits : List UInt8) : Prop := digits ≠ [] ∧ ∀ c ∈ digits, digitVal c < base

/-- The number that digits stand for, behind those that stand for `value`. -/
def valueFrom (base value : Nat) (digits : List UInt8) : Nat :=
  digits.foldl (fun value c => value * base + digitVal c) value

/-- A literal without its sign: decimal digits, or hexadecimal ones behind `0x`. -/
inductive Unsigned : List UInt8 → (base : Nat) → (digits : List UInt8) → Prop
  | decimal {digits} : Digits 10 digits → Unsigned digits 10 digits
  | hex {x digits} : x = 'x'.toUInt8 ∨ x = 'X'.toUInt8 → Digits 16 digits → Unsigned ('0'.toUInt8 :: x :: digits) 16 digits

inductive Signed : List UInt8 → (negative : Bool) → (rest : List UInt8) → Prop
  | none {rest} : Signed rest false rest
  | plus {rest} : Signed ('+'.toUInt8 :: rest) false rest
  | minus {rest} : Signed ('-'.toUInt8 :: rest) true rest

def IntegerLiteral (s : List UInt8) (negative : Bool) (base : Nat) (digits : List UInt8) : Prop :=
  ∃ rest, Signed s negative rest ∧ Unsigned rest base digits

def signedInt (negative : Bool) (magnitude : Nat) : Int := if negative then -(magnitude : Int) else magnitude

def literalValue (negative : Bool) (base : Nat) (digits : List UInt8) : Int := signedInt negative (valueFrom base 0 digits)

/-- Exactly the literals without a minus whose number fits are taken, and give it. -/
def UintExact (s : List UInt8) : Prop :=
  ∀ value, parseUint s = some value ↔
    ∃ base digits, IntegerLiteral s false base digits ∧ value = valueFrom base 0 digits ∧ value ≤ 2 ^ 64 - 1

/-- Exactly the literals whose number fits are taken, and give that number. -/
def IntExact (s : List UInt8) : Prop :=
  ∀ value, parseInt s = some value ↔
    ∃ negative base digits, IntegerLiteral s negative base digits ∧ value = literalValue negative base digits ∧
      -2 ^ 63 ≤ value ∧ value ≤ 2 ^ 63 - 1

/-- The number does not fit, and no digit makes it smaller modulo 2^64. -/
def WrapsUnseen (base : Nat) (digits : List UInt8) : Prop :=
  2 ^ 64 ≤ valueFrom base 0 digits ∧
    ∀ n < digits.length, valueFrom base 0 (digits.take n) % 2 ^ 64 ≤ valueFrom base 0 (digits.take (n + 1)) % 2 ^ 64

/-! ## Digits -/

/-- Some digit makes the number smaller, modulo 2^64. -/
def shrinksFrom (base : Nat) : (value : Nat) → (digits : List UInt8) → Bool
  | _, [] => false
  | value, c :: digits =>
    decide ((value * base + digitVal c) % 2 ^ 64 < value % 2 ^ 64) || shrinksFrom base (value * base + digitVal c) digits

theorem parseDigits_rest {base : Nat} {s : List UInt8} {acc : Nat} {overflow : Bool} :
    (parseDigits base s acc overflow).2.2 = [] ↔ ∀ c ∈ s, digitVal c < base := by
  induction s generalizing acc overflow with
  | nil => exact iff_of_true rfl nofun
  | cons c s ih =>
    unfold parseDigits
    by_cases hc : digitVal c < base
    · rw [if_pos hc]
      dsimp only
      rw [ih, List.forall_mem_cons, and_iff_right hc]
    · rw [if_neg hc]
      exact iff_of_false (List.cons_ne_nil _ _) fun hall => hc (hall c (List.mem_cons_self ..))

theorem parseDigits_eq {base : Nat} {digits : List UInt8} (h : ∀ c ∈ digits, digitVal c < base) (value : Nat)
    (overflow : Bool) :
    parseDigits base digits (value % 2 ^ 64) overflow =
      (valueFrom base value digits % 2 ^ 64, overflow || shrinksFrom base value digits, []) := by
  induction digits generalizing value overflow with
  | nil =>
    rw [shrinksFrom, Bool.or_false]
    rfl
  | cons c digits ih =>
    obtain ⟨hc, hrest⟩ := List.forall_mem_cons.mp h
    have hnext : (value % 2 ^ 64 * base + digitVal c) % 2 ^ 64 = (value * base + digitVal c) % 2 ^ 64 := by
      rw [Nat.add_mod, Nat.mul_mod, Nat.mod_mod, ← Nat.mul_mod, ← Nat.add_mod]
    unfold parseDigits
    rw [if_pos hc]
    dsimp only
    rw [hnext, ih hrest, shrinksFrom, Bool.or_assoc]
    rfl

theorem shrinksFrom_eq_false {base value : Nat} (hbase : 1 ≤ base) {digits : List UInt8}
    (h : valueFrom base value digits < 2 ^ 64) : shrinksFrom base value digits = false ∧ value < 2 ^ 64 := by
  induction digits generalizing value with
  | nil => exact ⟨rfl, h⟩
  | cons c digits ih =>
    obtain ⟨hrest, hnext⟩ := @ih (value * base + digitVal c) h
    have hle : value ≤ value * base + digitVal c := Nat.le_add_right_of_le (Nat.le_mul_of_pos_right value hbase)
    have hlt : value < 2 ^ 64 := Nat.lt_of_le_of_lt hle hnext
    refine ⟨?_, hlt⟩
    rw [shrinksFrom, hrest, Bool.or_false, Nat.mod_eq_of_lt hnext, Nat.mod_eq_of_lt hlt]
    exact decide_eq_false (Nat.not_lt.mpr hle)

theorem shrinksFrom_eq_false_iff {base value : Nat} {digits : List UInt8} : shrinksFrom base value digits = false ↔
    ∀ n < digits.length,
      valueFrom base value (digits.take n) % 2 ^ 64 ≤ valueFrom base value (digits.take (n + 1)) % 2 ^ 64 := by
  induction digits generalizing value with
  | nil => exact iff_of_true rfl nofun
  | cons c digits ih =>
    rw [shrinksFrom, Bool.or_eq_false_iff, decide_eq_false_iff_not, Nat.not_lt, ih]
    constructor
    · rintro ⟨hfirst, hrest⟩ n hn
      cases n with
      | zero => exact hfirst
      | succ n => exact hrest n (Nat.lt_of_succ_lt_succ hn)
    · exact fun hall => ⟨hall 0 (Nat.succ_pos _), fun n hn => hall (n + 1) (Nat.succ_lt_succ hn)⟩

theorem shrinksFrom_iff {base : Nat} (hbase : 1 ≤ base) {digits : List UInt8} :
    shrinksFrom base 0 digits = false ↔ valueFrom base 0 digits < 2 ^ 64 ∨ WrapsUnseen base digits := by
  constructor
  · intro h
    rcases Nat.lt_or_ge (valueFrom base 0 digits) (2 ^ 64) with hlt | hge
    · exact .inl hlt
    · exact .inr ⟨hge, shrinksFrom_eq_false_iff.mp h⟩
  · rintro (hlt | ⟨-, hall⟩)
    · exact (shrinksFrom_eq_false hbase hlt).1
    · exact shrinksFrom_eq_false_iff.mpr hall

/-! ## Magnitudes -/

theorem Unsigned.base_pos {s digits : List UInt8} {base : Nat} (h : Unsigned s base digits) : 1 ≤ base := by
  cases h <;> decide

/-- The part of `parseMagnitude` behind `0x`, or of all of a decimal literal. -/
def finishMagnitude (base : Nat) (digits : List UInt8) : Option Nat :=
  match digits with
  | [] => none
  | c :: _ =>
    if base ≤ digitVal c then none
    else
      match parseDigits base digits 0 false with
      | (value, false, []) => some value
      | _ => none

theorem finishMagnitude_eq_some {base value : Nat} {digits : List UInt8} : finishMagnitude base digits = some value ↔
    Digits base digits ∧ shrinksFrom base 0 digits = false ∧ value = valueFrom base 0 digits % 2 ^ 64 := by
  cases digits with
  | nil => exact iff_of_false nofun fun h => h.1.1 rfl
  | cons c rest =>
    unfold finishMagnitude
    by_cases hall : ∀ d ∈ c :: rest, digitVal d < base
    · have hparse := parseDigits_eq hall 0 false
      rw [Nat.zero_mod, Bool.false_or] at hparse
      dsimp only
      rw [if_neg (Nat.not_le.mpr (hall c (List.mem_cons_self ..))), hparse]
      cases hshrinks : shrinksFrom base 0 (c :: rest) with
      | true => exact iff_of_false nofun nofun
      | false =>
        refine ⟨fun h => ⟨⟨List.cons_ne_nil _ _, hall⟩, rfl, (Option.some.inj h).symm⟩, ?_⟩
        rintro ⟨-, -, rfl⟩
        rfl
    · refine iff_of_false (fun h => ?_) fun h => hall h.1.2
      dsimp only at h
      split at h
      · cases h
      · split at h
        · rename_i hparse
          have hrest := congrArg (fun result => result.2.2) hparse
          exact hall (parseDigits_rest.mp hrest)
        · cases h

theorem parseMagnitude_eq_some {s : List UInt8} {value : Nat} : parseMagnitude s = some value ↔
    ∃ base digits, Unsigned s base digits ∧ shrinksFrom base 0 digits = false ∧
      value = valueFrom base 0 digits % 2 ^ 64 := by
  by_cases hhex : ∃ x digits, (x = 'x'.toUInt8 ∨ x = 'X'.toUInt8) ∧ s = '0'.toUInt8 :: x :: digits
  · obtain ⟨x, digits, hx, rfl⟩ := hhex
    have hmagnitude : parseMagnitude ('0'.toUInt8 :: x :: digits) = finishMagnitude 16 digits := if_pos ⟨rfl, hx⟩
    rw [hmagnitude, finishMagnitude_eq_some]
    constructor
    · exact fun ⟨hdigits, hrest⟩ => ⟨16, digits, .hex hx hdigits, hrest⟩
    · rintro ⟨base, digits', hunsigned, hrest⟩
      cases hunsigned with
      | decimal hdigits =>
        -- the second character is no decimal digit
        have hlt := hdigits.2 x (by simp)
        rcases hx with rfl | rfl <;> exact absurd hlt (by decide)
      | hex _ hdigits => exact ⟨hdigits, hrest⟩
  · have hmagnitude : parseMagnitude s = finishMagnitude 10 s := by
      unfold parseMagnitude
      split
      · rename_i c d rest
        refine if_neg fun ⟨hc, hd⟩ => hhex ⟨d, rest, hd, ?_⟩
        rw [hc]
      · rfl
    rw [hmagnitude, finishMagnitude_eq_some]
    constructor
    · exact fun ⟨hdigits, hrest⟩ => ⟨10, s, .decimal hdigits, hrest⟩
    · rintro ⟨base, digits', hunsigned, hrest⟩
      cases hunsigned with
      | decimal hdigits => exact ⟨hdigits, hrest⟩
      | hex hx _ => exact absurd ⟨_, _, hx, rfl⟩ hhex

theorem Unsigned.unique {s digits digits' : List UInt8} {base base' : Nat} (h : Unsigned s base digits)
    (h' : Unsigned s base' digits') : base = base' ∧ digits = digits' := by
  have hnot {x : UInt8} {rest : List UInt8} (hx : x = 'x'.toUInt8 ∨ x = 'X'.toUInt8) :
      ¬Digits 10 ('0'.toUInt8 :: x :: rest) := by
    intro hdigits
    have hlt := hdigits.2 x (by simp)
    rcases hx with rfl | rfl <;> exact absurd hlt (by decide)
  cases h with
  | decimal hdigits =>
    cases h' with
    | decimal _ => exact ⟨rfl, rfl⟩
    | hex hx _ => exact absurd hdigits (hnot hx)
  | hex hx _ =>
    cases h' with
    | decimal hdigits => exact absurd hdigits (hnot hx)
    | hex _ _ => exact ⟨rfl, rfl⟩

/-! ## Signs -/

theorem Unsigned.head {c : UInt8} {rest digits : List UInt8} {base : Nat} (h : Unsigned (c :: rest) base digits) :
    c ≠ '+'.toUInt8 ∧ c ≠ '-'.toUInt8 := by
  have hdigit : digitVal c < 10 := by
    cases h with
    | decimal hdigits => exact hdigits.2 c (List.mem_cons_self ..)
    | hex _ _ => decide
  constructor
  · rintro rfl
    exact absurd hdigit (by decide)
  · rintro rfl
    exact absurd hdigit (by decide)

theorem integerLiteral_nil {negative : Bool} {base : Nat} {digits : List UInt8} :
    ¬IntegerLiteral [] negative base digits := by
  rintro ⟨rest, hsigned, hunsigned⟩
  cases hsigned
  cases hunsigned with
  | decimal hdigits => exact hdigits.1 rfl

theorem integerLiteral_minus {rest digits : List UInt8} {negative : Bool} {base : Nat} :
    IntegerLiteral ('-'.toUInt8 :: rest) negative base digits ↔ negative = true ∧ Unsigned rest base digits := by
  constructor
  · rintro ⟨rest', hsigned, hunsigned⟩
    cases hsigned with
    | none => exact absurd rfl hunsigned.head.2
    | minus => exact ⟨rfl, hunsigned⟩
  · rintro ⟨rfl, hunsigned⟩
    exact ⟨rest, .minus, hunsigned⟩

theorem integerLiteral_plus {rest digits : List UInt8} {negative : Bool} {base : Nat} :
    IntegerLiteral ('+'.toUInt8 :: rest) negative base digits ↔ negative = false ∧ Unsigned rest base digits := by
  constructor
  · rintro ⟨rest', hsigned, hunsigned⟩
    cases hsigned with
    | none => exact absurd rfl hunsigned.head.1
    | plus => exact ⟨rfl, hunsigned⟩
  · rintro ⟨rfl, hunsigned⟩
    exact ⟨rest, .plus, hunsigned⟩

theorem integerLiteral_unsigned {c : UInt8} {rest digits : List UInt8} {negative : Bool} {base : Nat}
    (hplus : c ≠ '+'.toUInt8) (hminus : c ≠ '-'.toUInt8) :
    IntegerLiteral (c :: rest) negative base digits ↔ negative = false ∧ Unsigned (c :: rest) base digits := by
  constructor
  · rintro ⟨rest', hsigned, hunsigned⟩
    cases hsigned with
    | none => exact ⟨rfl, hunsigned⟩
    | plus => exact absurd rfl hplus
    | minus => exact absurd rfl hminus
  · rintro ⟨rfl, hunsigned⟩
    exact ⟨_, .none, hunsigned⟩

theorem IntegerLiteral.unique {s digits digits' : List UInt8} {negative negative' : Bool} {base base' : Nat}
    (h : IntegerLiteral s negative base digits) (h' : IntegerLiteral s negative' base' digits') :
    negative = negative' ∧ base = base' ∧ digits = digits' := by
  cases s with
  | nil => exact absurd h integerLiteral_nil
  | cons c rest =>
    by_cases hminus : c = '-'.toUInt8
    · subst hminus
      obtain ⟨rfl, hunsigned⟩ := integerLiteral_minus.mp h
      obtain ⟨rfl, hunsigned'⟩ := integerLiteral_minus.mp h'
      exact ⟨rfl, hunsigned.unique hunsigned'⟩
    by_cases hplus : c = '+'.toUInt8
    · subst hplus
      obtain ⟨rfl, hunsigned⟩ := integerLiteral_plus.mp h
      obtain ⟨rfl, hunsigned'⟩ := integerLiteral_plus.mp h'
      exact ⟨rfl, hunsigned.unique hunsigned'⟩
    obtain ⟨rfl, hunsigned⟩ := (integerLiteral_unsigned hplus hminus).mp h
    obtain ⟨rfl, hunsigned'⟩ := (integerLiteral_unsigned hplus hminus).mp h'
    exact ⟨rfl, hunsigned.unique hunsigned'⟩

theorem IntegerLiteral.base_pos {s digits : List UInt8} {negative : Bool} {base : Nat}
    (h : IntegerLiteral s negative base digits) : 1 ≤ base := by
  obtain ⟨_, -, hunsigned⟩ := h
  exact hunsigned.base_pos

theorem parseUint_eq_some {s : List UInt8} {value : Nat} : parseUint s = some value ↔
    ∃ base digits, IntegerLiteral s false base digits ∧ shrinksFrom base 0 digits = false ∧
      value = valueFrom base 0 digits % 2 ^ 64 := by
  cases s with
  | nil => exact iff_of_false nofun fun ⟨_, _, h, _⟩ => integerLiteral_nil h
  | cons c rest =>
    unfold parseUint
    by_cases hminus : c = '-'.toUInt8
    · subst hminus
      simp only [integerLiteral_minus, if_true, reduceCtorEq, Bool.false_eq_true, false_and, exists_const]
    by_cases hplus : c = '+'.toUInt8
    · subst hplus
      simp only [if_neg hminus, if_true, parseMagnitude_eq_some, integerLiteral_plus, true_and]
    · simp only [if_neg hminus, if_neg hplus, parseMagnitude_eq_some, integerLiteral_unsigned hplus hminus, true_and]

/-- The number modulo 2^64 is one that `bebop_util_parse_int` has room for. -/
def InRange (negative : Bool) (magnitude : Nat) : Prop := if negative then magnitude ≤ 2 ^ 63 else magnitude < 2 ^ 63

theorem parseInt_eq_some {s : List UInt8} {value : Int} : parseInt s = some value ↔
    ∃ negative base digits, IntegerLiteral s negative base digits ∧ shrinksFrom base 0 digits = false ∧
      InRange negative (valueFrom base 0 digits % 2 ^ 64) ∧
      value = signedInt negative (valueFrom base 0 digits % 2 ^ 64) := by
  have hpositive (s : List UInt8) : (parseMagnitude s).bind (fun m => if m ≥ 2 ^ 63 then none else some (m : Int)) = some value ↔
      ∃ base digits, Unsigned s base digits ∧ shrinksFrom base 0 digits = false ∧
        InRange false (valueFrom base 0 digits % 2 ^ 64) ∧ value = (valueFrom base 0 digits % 2 ^ 64 : Nat) := by
    rw [Option.bind_eq_some_iff]
    constructor
    · rintro ⟨m, hm, hvalue⟩
      obtain ⟨base, digits, hunsigned, hshrinks, rfl⟩ := parseMagnitude_eq_some.mp hm
      split at hvalue
      · cases hvalue
      · rename_i hrange
        exact ⟨base, digits, hunsigned, hshrinks, Nat.not_le.mp hrange, (Option.some.inj hvalue).symm⟩
    · rintro ⟨base, digits, hunsigned, hshrinks, hrange, rfl⟩
      refine ⟨_, parseMagnitude_eq_some.mpr ⟨base, digits, hunsigned, hshrinks, rfl⟩, ?_⟩
      exact if_neg (Nat.not_le.mpr hrange)
  cases s with
  | nil => exact iff_of_false nofun fun ⟨_, _, _, h, _⟩ => integerLiteral_nil h
  | cons c rest =>
    unfold parseInt
    by_cases hminus : c = '-'.toUInt8
    · subst hminus
      simp only [if_true, Option.bind_eq_some_iff, integerLiteral_minus]
      constructor
      · rintro ⟨m, hm, hvalue⟩
        obtain ⟨base, digits, hunsigned, hshrinks, rfl⟩ := parseMagnitude_eq_some.mp hm
        split at hvalue
        · cases hvalue
        · rename_i hrange
          exact ⟨true, base, digits, ⟨rfl, hunsigned⟩, hshrinks, Nat.not_lt.mp hrange, (Option.some.inj hvalue).symm⟩
      · rintro ⟨_, base, digits, ⟨rfl, hunsigned⟩, hshrinks, hrange, rfl⟩
        refine ⟨_, parseMagnitude_eq_some.mpr ⟨base, digits, hunsigned, hshrinks, rfl⟩, ?_⟩
        exact if_neg (Nat.not_lt.mpr hrange)
    by_cases hplus : c = '+'.toUInt8
    · subst hplus
      simp only [if_neg hminus, if_true, hpositive, integerLiteral_plus]
      constructor
      · exact fun ⟨base, digits, hunsigned, hrest⟩ => ⟨false, base, digits, ⟨rfl, hunsigned⟩, hrest⟩
      · rintro ⟨_, base, digits, ⟨rfl, hunsigned⟩, hrest⟩
        exact ⟨base, digits, hunsigned, hrest⟩
    · simp only [if_neg hminus, if_neg hplus, hpositive, integerLiteral_unsigned hplus hminus]
      constructor
      · exact fun ⟨base, digits, hunsigned, hrest⟩ => ⟨false, base, digits, ⟨rfl, hunsigned⟩, hrest⟩
      · rintro ⟨_, base, digits, ⟨rfl, hunsigned⟩, hrest⟩
        exact ⟨base, digits, hunsigned, hrest⟩

/-! ## Result -/

theorem uintExact_iff {s : List UInt8} :
    UintExact s ↔ ¬∃ base digits, IntegerLiteral s false base digits ∧ WrapsUnseen base digits := by
  constructor
  · rintro h ⟨base, digits, hliteral, hwraps⟩
    have hshrinks := (shrinksFrom_iff hliteral.base_pos).mpr (.inr hwraps)
    obtain ⟨base', digits', hliteral', hvalue, hfits⟩ := (h _).mp (parseUint_eq_some.mpr ⟨base, digits, hliteral, hshrinks, rfl⟩)
    obtain ⟨-, rfl, rfl⟩ := hliteral.unique hliteral'
    have hlong := hwraps.1
    omega
  · intro h value
    rw [parseUint_eq_some]
    refine exists_congr fun base => exists_congr fun digits => and_congr_right fun hliteral => ?_
    rw [shrinksFrom_iff hliteral.base_pos, or_iff_left fun hwraps => h ⟨base, digits, hliteral, hwraps⟩]
    omega

theorem intExact_iff {s : List UInt8} :
    IntExact s ↔ ¬∃ negative base digits, IntegerLiteral s negative base digits ∧ WrapsUnseen base digits ∧
      InRange negative (valueFrom base 0 digits % 2 ^ 64) := by
  constructor
  · rintro h ⟨negative, base, digits, hliteral, hwraps, hrange⟩
    have hshrinks := (shrinksFrom_iff hliteral.base_pos).mpr (.inr hwraps)
    obtain ⟨negative', base', digits', hliteral', hvalue, hlow, hhigh⟩ :=
      (h _).mp (parseInt_eq_some.mpr ⟨negative, base, digits, hliteral, hshrinks, hrange, rfl⟩)
    obtain ⟨rfl, rfl, rfl⟩ := hliteral.unique hliteral'
    have hlong := hwraps.1
    unfold literalValue signedInt at hvalue
    cases negative
    all_goals
      simp only [if_true, if_false, Bool.false_eq_true] at hvalue hlow hhigh
      omega
  · intro h value
    rw [parseInt_eq_some]
    refine exists_congr fun negative => exists_congr fun base => exists_congr fun digits =>
      and_congr_right fun hliteral => ?_
    rw [shrinksFrom_iff hliteral.base_pos]
    constructor
    · rintro ⟨hlt | hwraps, hrange, rfl⟩
      · unfold InRange at hrange
        unfold literalValue signedInt
        rw [Nat.mod_eq_of_lt hlt] at hrange ⊢
        cases negative
        all_goals
          simp only [if_true, if_false, Bool.false_eq_true, true_and] at hrange ⊢
          omega
      · exact absurd ⟨negative, base, digits, hliteral, hwraps, hrange⟩ h
    · rintro ⟨hvalue, hlow, hhigh⟩
      unfold literalValue signedInt at hvalue
      have hlt : valueFrom base 0 digits < 2 ^ 64 := by
        cases negative
        all_goals
          simp only [if_true, if_false, Bool.false_eq_true] at hvalue
          omega
      refine ⟨.inl hlt, ?_⟩
      unfold InRange signedInt
      rw [Nat.mod_eq_of_lt hlt]
      cases negative
      all_goals
        simp only [if_true, if_false, Bool.false_eq_true] at hvalue ⊢
        omega

/-- When literals are read exactly: no literal wraps unseen, into the range of the type. -/
theorem integerLiterals_exact_iff (s : List UInt8) :
    (UintExact s ↔ ¬∃ base digits, IntegerLiteral s false base digits ∧ WrapsUnseen base digits) ∧
      (IntExact s ↔ ¬∃ negative base digits, IntegerLiteral s negative base digits ∧ WrapsUnseen base digits ∧
        InRange negative (valueFrom base 0 digits % 2 ^ 64)) :=
  ⟨uintExact_iff, intExact_iff⟩

def wrappingLiteral : List UInt8 := '2'.toUInt8 :: '5'.toUInt8 :: List.replicate 18 '0'.toUInt8

theorem wrapsUnseen_wrappingLiteral : WrapsUnseen 10 wrappingLiteral := by
  unfold WrapsUnseen
  decide

/-- The literal is taken for its number less 2^64. -/
theorem integerLiterals_wrap :
    parseUint wrappingLiteral = some 6553255926290448384 ∧ parseInt wrappingLiteral = some 6553255926290448384 ∧
      valueFrom 10 0 wrappingLiteral = 25000000000000000000 ∧ ¬UintExact wrappingLiteral ∧ ¬IntExact wrappingLiteral := by
  have hliteral : IntegerLiteral wrappingLiteral false 10 wrappingLiteral :=
    ⟨wrappingLiteral, .none, .decimal ⟨by decide +kernel, by decide +kernel⟩⟩
  refine ⟨by decide, by decide, by decide, fun hexact => ?_, fun hexact => ?_⟩
  · exact uintExact_iff.mp hexact ⟨10, wrappingLiteral, hliteral, wrapsUnseen_wrappingLiteral⟩
  · have hrange : InRange false (valueFrom 10 0 wrappingLiteral % 2 ^ 64) := by
      unfold InRange
      decide
    exact intExact_iff.mp hexact ⟨false, 10, wrappingLiteral, hliteral, wrapsUnseen_wrappingLiteral, hrange⟩

end Bebop.Compiler
