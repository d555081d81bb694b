import Mathlib.Data.List.Basic

/-!
# Unicode — UTF-16 strings and the UTF-8 forms of their characters

A string is a list of UTF-16 code units, which need not be well formed. `scalars` reads it,
lone surrogates as U+FFFD, and `toWellFormed` replaces them. The UTF-8 form of a character
is Lean's. `Utf8Shape` says which bytes it can have, digit by digit, so that a decoder can
be followed through its cases.
-/

namespace Unicode

/-! ## UTF-16 -/

def isHighSurrogate (unit : UInt16) : Bool := 0xd800 ≤ unit.toNat ∧ unit.toNat ≤ 0xdbff

def isLowSurrogate (unit : UInt16) : Bool := 0xdc00 ≤ unit.toNat ∧ unit.toNat ≤ 0xdfff

def units (c : Char) : List UInt16 :=
  if c.toNat < 0x10000 then [.ofNat c.toNat]
  else [.ofNat (0xd800 + (c.toNat - 0x10000) / 1024), .ofNat (0xdc00 + (c.toNat - 0x10000) % 1024)]

def pairCodePoint (high low : UInt16) : Nat :=
  0x10000 + (high.toNat - 0xd800) * 1024 + (low.toNat - 0xdc00)

/-- What a code unit that is not part of a pair reads as. -/
def single (unit : UInt16) : Char :=
  if isHighSurrogate unit ∨ isLowSurrogate unit then '\uFFFD' else Char.ofNat unit.toNat

def scalars : List UInt16 → List Char
  | [] => []
  | [a] => [single a]
  | a :: b :: rest =>
    if isHighSurrogate a ∧ isLowSurrogate b then Char.ofNat (pairCodePoint a b) :: scalars rest
    else single a :: scalars (b :: rest)

/-- A code unit that is not part of a pair, replaced if it is a surrogate. -/
def replaceLone (unit : UInt16) : UInt16 :=
  if isHighSurrogate unit ∨ isLowSurrogate unit then 0xfffd else unit

def toWellFormed : List UInt16 → List UInt16
  | [] => []
  | [a] => [replaceLone a]
  | a :: b :: rest =>
    if isHighSurrogate a ∧ isLowSurrogate b then a :: b :: toWellFormed rest
    else replaceLone a :: toWellFormed (b :: rest)

def isWellFormed : List UInt16 → Bool
  | [] => true
  | [a] => !isHighSurrogate a && !isLowSurrogate a
  | a :: b :: rest =>
    if isHighSurrogate a ∧ isLowSurrogate b then isWellFormed rest
    else (!isHighSurrogate a && !isLowSurrogate a) && isWellFormed (b :: rest)

theorem toNat_ofNat {n : Nat} (h : n.isValidChar) : (Char.ofNat n).toNat = n := by
  unfold Char.ofNat
  rw [dif_pos h]
  rfl

theorem isHighSurrogate_iff {unit : UInt16} :
    isHighSurrogate unit ↔ 0xd800 ≤ unit.toNat ∧ unit.toNat ≤ 0xdbff := decide_eq_true_iff

theorem isLowSurrogate_iff {unit : UInt16} :
    isLowSurrogate unit ↔ 0xdc00 ≤ unit.toNat ∧ unit.toNat ≤ 0xdfff := decide_eq_true_iff

theorem toNat_single {unit : UInt16} : (single unit).toNat =
    if isHighSurrogate unit ∨ isLowSurrogate unit then 0xfffd else unit.toNat := by
  unfold single
  split
  · rfl
  · rename_i hnot
    rw [isHighSurrogate_iff, isLowSurrogate_iff] at hnot
    have hlt := unit.toNat_lt
    exact toNat_ofNat (by unfold Nat.isValidChar; omega)

theorem units_single (unit : UInt16) : units (single unit) = [replaceLone unit] := by
  have hlt := unit.toNat_lt
  unfold units
  rw [toNat_single]
  unfold replaceLone
  split
  · rfl
  · rw [UInt16.ofNat_toNat]

theorem toNat_pair {high low : UInt16} (hhigh : isHighSurrogate high) (hlow : isLowSurrogate low) :
    (Char.ofNat (pairCodePoint high low)).toNat = pairCodePoint high low := by
  rw [isHighSurrogate_iff] at hhigh
  rw [isLowSurrogate_iff] at hlow
  refine toNat_ofNat ?_
  unfold Nat.isValidChar pairCodePoint
  omega

theorem units_pair {high low : UInt16} (hhigh : isHighSurrogate high) (hlow : isLowSurrogate low) :
    units (Char.ofNat (pairCodePoint high low)) = [high, low] := by
  unfold units
  rw [toNat_pair hhigh hlow]
  rw [isHighSurrogate_iff] at hhigh
  rw [isLowSurrogate_iff] at hlow
  unfold pairCodePoint
  rw [if_neg (by omega)]
  have hfirst : 0xd800 + (0x10000 + (high.toNat - 0xd800) * 1024 + (low.toNat - 0xdc00) - 0x10000) / 1024 =
      high.toNat := by omega
  have hsecond : 0xdc00 + (0x10000 + (high.toNat - 0xd800) * 1024 + (low.toNat - 0xdc00) - 0x10000) % 1024 =
      low.toNat := by omega
  rw [hfirst, hsecond, UInt16.ofNat_toNat, UInt16.ofNat_toNat]

/-- Reading a string and writing its characters replaces the lone surrogates. -/
theorem flatMap_units_scalars (s : List UInt16) : (scalars s).flatMap units = toWellFormed s := by
  induction s using scalars.induct with
  | case1 => rfl
  | case2 a =>
    rw [scalars, toWellFormed, List.flatMap_singleton]
    exact units_single a
  | case3 a b rest hpair ih =>
    rw [scalars, toWellFormed, if_pos hpair, if_pos hpair, List.flatMap_cons, ih,
      units_pair hpair.1 hpair.2]
    rfl
  | case4 a b rest hpair ih =>
    rw [scalars, toWellFormed, if_neg hpair, if_neg hpair, List.flatMap_cons, ih, units_single]
    rfl

theorem replaceLone_of_not {unit : UInt16} (h : (!isHighSurrogate unit && !isLowSurrogate unit) = true) :
    replaceLone unit = unit := by
  unfold replaceLone
  rw [if_neg]
  rw [Bool.and_eq_true, Bool.not_eq_true', Bool.not_eq_true'] at h
  rw [h.1, h.2]
  decide

theorem toWellFormed_of_isWellFormed {s : List UInt16} (h : isWellFormed s = true) : toWellFormed s = s := by
  induction s using scalars.induct with
  | case1 => rfl
  | case2 a =>
    rw [toWellFormed, replaceLone_of_not h]
  | case3 a b rest hpair ih =>
    rw [isWellFormed, if_pos hpair] at h
    rw [toWellFormed, if_pos hpair, ih h]
  | case4 a b rest hpair ih =>
    rw [isWellFormed, if_neg hpair, Bool.and_eq_true] at h
    rw [toWellFormed, if_neg hpair, ih h.2, replaceLone_of_not h.1]

theorem scalars_cons {unit : UInt16} (h : isHighSurrogate unit = false) (rest : List UInt16) :
    scalars (unit :: rest) = single unit :: scalars rest := by
  cases rest with
  | nil => rfl
  | cons b rest =>
    rw [scalars, if_neg]
    rw [h]
    exact fun hpair => Bool.noConfusion hpair.1

theorem isWellFormed_cons {unit : UInt16} (hhigh : isHighSurrogate unit = false)
    (hlow : isLowSurrogate unit = false) (rest : List UInt16) :
    isWellFormed (unit :: rest) = isWellFormed rest := by
  cases rest with
  | nil =>
    change (!isHighSurrogate unit && !isLowSurrogate unit) = true
    rw [hhigh, hlow]
    rfl
  | cons b rest =>
    rw [isWellFormed, if_neg, hhigh, hlow]
    · rfl
    · rw [hhigh]
      exact fun hpair => Bool.noConfusion hpair.1

theorem scalars_replicate {unit : UInt16} (h : isHighSurrogate unit = false) (n : Nat) :
    scalars (List.replicate n unit) = List.replicate n (single unit) := by
  induction n with
  | zero => rfl
  | succ n ih => rw [List.replicate_succ, scalars_cons h, ih, List.replicate_succ]

theorem isWellFormed_replicate {unit : UInt16} (hhigh : isHighSurrogate unit = false)
    (hlow : isLowSurrogate unit = false) (n : Nat) : isWellFormed (List.replicate n unit) = true := by
  induction n with
  | zero => rfl
  | succ n ih => rw [List.replicate_succ, isWellFormed_cons hhigh hlow, ih]

theorem head?_scalars (s : List UInt16) : (scalars s).head? = some '\uFEFF' ↔ s.head? = some 0xfeff := by
  have hsingle (unit : UInt16) : single unit = '\uFEFF' ↔ unit = 0xfeff := by
    rw [← Char.toNat_inj, toNat_single, ← UInt16.toNat_inj]
    change _ = 0xfeff ↔ unit.toNat = 0xfeff
    split
    · rename_i hlone
      rw [isHighSurrogate_iff, isLowSurrogate_iff] at hlone
      omega
    · exact Iff.rfl
  match s with
  | [] => exact ⟨nofun, nofun⟩
  | [a] =>
    rw [scalars, List.head?_cons, List.head?_cons, Option.some_inj, Option.some_inj]
    exact hsingle a
  | a :: b :: rest =>
    unfold scalars
    split
    · rename_i hpair
      rw [List.head?_cons, List.head?_cons, Option.some_inj, Option.some_inj, ← Char.toNat_inj,
        toNat_pair hpair.1 hpair.2, ← UInt16.toNat_inj]
      have hhigh := isHighSurrogate_iff.mp hpair.1
      change pairCodePoint a b = 0xfeff ↔ a.toNat = 0xfeff
      unfold pairCodePoint
      omega
    · rw [List.head?_cons, List.head?_cons, Option.some_inj, Option.some_inj]
      exact hsingle a

/-! ## Digits -/

theorem or_digit {x y : Nat} (hy : y < 64) : x <<< 6 ||| y = x * 64 + y := by
  have hlt : y < 2 ^ 6 := hy
  rw [← Nat.shiftLeft_add_eq_or_of_lt hlt, Nat.shiftLeft_eq]

theorem or_digit_shiftLeft {x y : Nat} (hy : y < 64) (k : Nat) :
    x <<< (6 + k) ||| y <<< k = (x * 64 + y) <<< k := by
  rw [Nat.shiftLeft_add, ← Nat.shiftLeft_or_distrib, or_digit hy]

theorem toNat_byte {n : Nat} (h : n < 256) : (UInt8.ofNat n).toNat = n :=
  UInt8.toNat_ofNat_of_lt h

theorem continuation_bits : ∀ y < 64, (0x80 + y) &&& 0xc0 = 0x80 ∧ (0x80 + y) &&& 0x3f = y := by
  decide

theorem two_bits : ∀ x < 32, (0xc0 + x) &&& 0x1f = x := by decide

theorem three_bits : ∀ x < 16, (0xe0 + x) &&& 0x0f = x := by decide

theorem four_bits : ∀ w < 8, (0xf0 + w) &&& 0x07 = w := by decide

theorem two_digits {x y : Nat} (hx : x < 32) (hy : y < 64) :
    ((0xc0 + x) &&& 0x1f) <<< 6 ||| ((0x80 + y) &&& 0x3f) = x * 64 + y := by
  rw [two_bits x hx, (continuation_bits y hy).2, or_digit hy]

theorem three_digits {x y z : Nat} (hx : x < 16) (hy : y < 64) (hz : z < 64) :
    ((0xe0 + x) &&& 0x0f) <<< 12 ||| ((0x80 + y) &&& 0x3f) <<< 6 ||| ((0x80 + z) &&& 0x3f) =
      (x * 64 + y) * 64 + z := by
  have hbits : x <<< 12 ||| y <<< 6 = (x * 64 + y) <<< 6 := or_digit_shiftLeft hy 6
  rw [three_bits x hx, (continuation_bits y hy).2, (continuation_bits z hz).2, hbits, or_digit hz]

theorem four_digits {w x y z : Nat} (hw : w < 8) (hx : x < 64) (hy : y < 64) (hz : z < 64) :
    ((0xf0 + w) &&& 0x07) <<< 18 ||| ((0x80 + x) &&& 0x3f) <<< 12 ||| ((0x80 + y) &&& 0x3f) <<< 6 |||
      ((0x80 + z) &&& 0x3f) = ((w * 64 + x) * 64 + y) * 64 + z := by
  have hhigh : w <<< 18 ||| x <<< 12 = (w * 64 + x) <<< 12 := or_digit_shiftLeft hx 12
  have hmiddle : (w * 64 + x) <<< 12 ||| y <<< 6 = ((w * 64 + x) * 64 + y) <<< 6 :=
    or_digit_shiftLeft hy 6
  rw [four_bits w hw, (continuation_bits x hx).2, (continuation_bits y hy).2,
    (continuation_bits z hz).2, hhigh, hmiddle, or_digit hz]

/-! ## UTF-8 -/

/-- The bytes of a code point, with its digits in base 64. -/
inductive Utf8Shape (n : Nat) : List UInt8 → Prop
  | one : n < 0x80 → Utf8Shape n [.ofNat n]
  | two (x y : Nat) : 2 ≤ x → x < 32 → y < 64 → n = x * 64 + y →
      Utf8Shape n [.ofNat (0xc0 + x), .ofNat (0x80 + y)]
  | three (x y z : Nat) : x < 16 → y < 64 → z < 64 → (x = 0 → 32 ≤ y) → (x = 13 → y < 32) →
      n = (x * 64 + y) * 64 + z →
      Utf8Shape n [.ofNat (0xe0 + x), .ofNat (0x80 + y), .ofNat (0x80 + z)]
  | four (w x y z : Nat) : w < 5 → x < 64 → y < 64 → z < 64 → (w = 0 → 16 ≤ x) → (w = 4 → x < 16) →
      n = ((w * 64 + x) * 64 + y) * 64 + z →
      Utf8Shape n [.ofNat (0xf0 + w), .ofNat (0x80 + x), .ofNat (0x80 + y), .ofNat (0x80 + z)]

theorem utf8Shape (c : Char) : Utf8Shape c.toNat (String.utf8EncodeChar c) := by
  have hvalid : c.toNat.isValidChar := c.valid
  unfold Nat.isValidChar at hvalid
  unfold String.utf8EncodeChar
  rw [Char.toNat_val]
  generalize c.toNat = n at hvalid
  dsimp only
  split
  · exact .one (by omega)
  · split
    · have hx : n / 64 % 0x20 + 0xc0 = 0xc0 + n / 64 := by omega
      have hy : n % 0x40 + 0x80 = 0x80 + n % 64 := Nat.add_comm _ _
      rw [hx, hy]
      exact .two (n / 64) (n % 64) (by omega) (by omega) (by omega) (by omega)
    · split
      · have hx : n / 4096 % 0x10 + 0xe0 = 0xe0 + n / 4096 := by omega
        have hy : n / 64 % 0x40 + 0x80 = 0x80 + n / 64 % 64 := Nat.add_comm _ _
        have hz : n % 0x40 + 0x80 = 0x80 + n % 64 := Nat.add_comm _ _
        rw [hx, hy, hz]
        exact .three (n / 4096) (n / 64 % 64) (n % 64) (by omega) (by omega) (by omega) (by omega)
          (by omega) (by omega)
      · have hw : n / 262144 % 0x08 + 0xf0 = 0xf0 + n / 262144 := by omega
        have hx : n / 4096 % 0x40 + 0x80 = 0x80 + n / 4096 % 64 := Nat.add_comm _ _
        have hy : n / 64 % 0x40 + 0x80 = 0x80 + n / 64 % 64 := Nat.add_comm _ _
        have hz : n % 0x40 + 0x80 = 0x80 + n % 64 := Nat.add_comm _ _
        rw [hw, hx, hy, hz]
        exact .four (n / 262144) (n / 4096 % 64) (n / 64 % 64) (n % 64) (by omega) (by omega)
          (by omega) (by omega) (by omega) (by omega) (by omega)

theorem utf8EncodeChar_of_ascii {c : Char} (h : c.toNat < 0x80) : String.utf8EncodeChar c = [.ofNat c.toNat] := by
  have hshape := utf8Shape c
  generalize String.utf8EncodeChar c = form at hshape
  cases hshape with
  | one => rfl
  | two | three | four => omega

theorem le_utf8EncodeChar {c : Char} (h : ¬c.toNat < 0x80) : ∀ b ∈ String.utf8EncodeChar c, 0x80 ≤ b.toNat := by
  have hshape := utf8Shape c
  have hbyte {n : Nat} (hlow : 0x80 ≤ n) (hhigh : n < 256) : 0x80 ≤ (UInt8.ofNat n).toNat := by
    rwa [UInt8.toNat_ofNat_of_lt' hhigh]
  generalize String.utf8EncodeChar c = form at hshape
  intro b hb
  cases hshape with
  | one => omega
  | two x y =>
    simp only [List.mem_cons, List.not_mem_nil, or_false] at hb
    rcases hb with rfl | rfl <;> exact hbyte (by omega) (by omega)
  | three x y z =>
    simp only [List.mem_cons, List.not_mem_nil, or_false] at hb
    rcases hb with rfl | rfl | rfl <;> exact hbyte (by omega) (by omega)
  | four w x y z =>
    simp only [List.mem_cons, List.not_mem_nil, or_false] at hb
    rcases hb with rfl | rfl | rfl | rfl <;> exact hbyte (by omega) (by omega)

def utf8 (chars : List Char) : List UInt8 := chars.flatMap String.utf8EncodeChar

theorem length_utf8_cons (c : Char) (chars : List Char) :
    (utf8 (c :: chars)).length = (String.utf8EncodeChar c).length + (utf8 chars).length := by
  rw [utf8, List.flatMap_cons, List.length_append]
  rfl

theorem length_utf8_replicate (c : Char) (n : Nat) :
    (utf8 (List.replicate n c)).length = n * (String.utf8EncodeChar c).length := by
  induction n with
  | zero => rw [Nat.zero_mul]; rfl
  | succ n ih => rw [List.replicate_succ, length_utf8_cons, ih, Nat.succ_mul, Nat.add_comm]

/-! ## The bytes of a code point -/

theorem exists_digit {b : UInt8} (h : b.toNat &&& 0xc0 = 0x80) : ∃ y < 64, b = .ofNat (0x80 + y) := by
  have hbounds : ∀ n < 256, n &&& 0xc0 = 0x80 → 0x80 ≤ n ∧ n < 0xc0 := by decide +kernel
  obtain ⟨hlower, hupper⟩ := hbounds b.toNat b.toNat_lt h
  refine ⟨b.toNat - 0x80, by omega, ?_⟩
  rw [Nat.add_sub_cancel' hlower, UInt8.ofNat_toNat]

theorem exists_first_digit {a : UInt8} {mark : Nat} (h : mark ≤ a.toNat) :
    ∃ x, mark + x < 256 ∧ a = .ofNat (mark + x) := by
  have hlt := a.toNat_lt
  refine ⟨a.toNat - mark, by omega, ?_⟩
  rw [Nat.add_sub_cancel' h, UInt8.ofNat_toNat]

theorem Utf8Shape.of_one {a : UInt8} (ha : a.toNat < 0x80) : Utf8Shape a.toNat [a] := by
  have hshape := Utf8Shape.one ha
  rw [UInt8.ofNat_toNat] at hshape
  exact hshape

theorem Utf8Shape.of_two {a b : UInt8} (ha : 0xc2 ≤ a.toNat ∧ a.toNat < 0xe0)
    (hb : b.toNat &&& 0xc0 = 0x80) :
    Utf8Shape ((a.toNat &&& 0x1f) <<< 6 ||| (b.toNat &&& 0x3f)) [a, b] := by
  obtain ⟨x, hx, rfl⟩ : ∃ x, 0xc0 + x < 256 ∧ a = .ofNat (0xc0 + x) := exists_first_digit (by omega)
  obtain ⟨y, hy, rfl⟩ := exists_digit hb
  rw [toNat_byte hx] at ha ⊢
  rw [toNat_byte (by omega), two_digits (by omega) hy]
  exact .two x y (by omega) (by omega) hy rfl

theorem Utf8Shape.of_three {a b c : UInt8} (ha : 0xe0 ≤ a.toNat ∧ a.toNat < 0xf0)
    (hb : b.toNat &&& 0xc0 = 0x80) (hc : c.toNat &&& 0xc0 = 0x80)
    (hshort : a.toNat = 0xe0 → 0xa0 ≤ b.toNat) (hsurrogate : a.toNat = 0xed → b.toNat < 0xa0) :
    Utf8Shape ((a.toNat &&& 0x0f) <<< 12 ||| (b.toNat &&& 0x3f) <<< 6 ||| (c.toNat &&& 0x3f))
      [a, b, c] := by
  obtain ⟨x, hx, rfl⟩ : ∃ x, 0xe0 + x < 256 ∧ a = .ofNat (0xe0 + x) := exists_first_digit ha.1
  obtain ⟨y, hy, rfl⟩ := exists_digit hb
  obtain ⟨z, hz, rfl⟩ := exists_digit hc
  rw [toNat_byte hx] at ha hshort hsurrogate ⊢
  rw [toNat_byte (by omega)] at hshort hsurrogate ⊢
  rw [toNat_byte (by omega), three_digits (by omega) hy hz]
  exact .three x y z (by omega) hy hz (by omega) (by omega) rfl

theorem Utf8Shape.of_four {a b c d : UInt8} (ha : 0xf0 ≤ a.toNat ∧ a.toNat < 0xf5)
    (hb : b.toNat &&& 0xc0 = 0x80) (hc : c.toNat &&& 0xc0 = 0x80) (hd : d.toNat &&& 0xc0 = 0x80)
    (hshort : a.toNat = 0xf0 → 0x90 ≤ b.toNat) (hlong : a.toNat = 0xf4 → b.toNat < 0x90) :
    Utf8Shape ((a.toNat &&& 0x07) <<< 18 ||| (b.toNat &&& 0x3f) <<< 12 ||| (c.toNat &&& 0x3f) <<< 6 |||
      (d.toNat &&& 0x3f)) [a, b, c, d] := by
  obtain ⟨w, hw, rfl⟩ : ∃ w, 0xf0 + w < 256 ∧ a = .ofNat (0xf0 + w) := exists_first_digit ha.1
  obtain ⟨x, hx, rfl⟩ := exists_digit hb
  obtain ⟨y, hy, rfl⟩ := exists_digit hc
  obtain ⟨z, hz, rfl⟩ := exists_digit hd
  rw [toNat_byte hw] at ha hshort hlong ⊢
  rw [toNat_byte (by omega)] at hshort hlong ⊢
  rw [toNat_byte (by omega), toNat_byte (by omega), four_digits (by omega) hx hy hz]
  exact .four w x y z (by omega) hx hy hz (by omega) (by omega) rfl

/-! ## Well-formed bytes -/

def WellFormedUtf8 (bytes : List UInt8) : Prop := ∃ chars : List Char, utf8 chars = bytes

/-- The digits determine the bytes. -/
theorem Utf8Shape.unique {n : Nat} {form form' : List UInt8} (h : Utf8Shape n form)
    (h' : Utf8Shape n form') : form = form' := by
  cases h with
  | one hn =>
    cases h' with
    | one => rfl
    | two x' y' hlow' hx' hy' hsum' => omega
    | three x' y' z' hx' hy' hz' hshort' hsurrogate' hsum' => omega
    | four w' x' y' z' hw' hx' hy' hz' hshort' hlong' hsum' => omega
  | two x y hlow hx hy hsum =>
    cases h' with
    | one hn' => omega
    | two x' y' hlow' hx' hy' hsum' =>
      obtain ⟨rfl, rfl⟩ : x = x' ∧ y = y' := by omega
      rfl
    | three x' y' z' hx' hy' hz' hshort' hsurrogate' hsum' => omega
    | four w' x' y' z' hw' hx' hy' hz' hshort' hlong' hsum' => omega
  | three x y z hx hy hz hshort hsurrogate hsum =>
    cases h' with
    | one hn' => omega
    | two x' y' hlow' hx' hy' hsum' => omega
    | three x' y' z' hx' hy' hz' hshort' hsurrogate' hsum' =>
      obtain ⟨rfl, rfl, rfl⟩ : x = x' ∧ y = y' ∧ z = z' := by omega
      rfl
    | four w' x' y' z' hw' hx' hy' hz' hshort' hlong' hsum' => omega
  | four w x y z hw hx hy hz hshort hlong hsum =>
    cases h' with
    | one hn' => omega
    | two x' y' hlow' hx' hy' hsum' => omega
    | three x' y' z' hx' hy' hz' hshort' hsurrogate' hsum' => omega
    | four w' x' y' z' hw' hx' hy' hz' hshort' hlong' hsum' =>
      obtain ⟨rfl, rfl, rfl, rfl⟩ : w = w' ∧ x = x' ∧ y = y' ∧ z = z' := by omega
      rfl

theorem Utf8Shape.isValidChar {n : Nat} {form : List UInt8} (h : Utf8Shape n form) :
    n.isValidChar := by
  unfold Nat.isValidChar
  cases h with
  | one hn => omega
  | two x y hlow hx hy hsum => omega
  -- the digits 13 and 32 and up are those of the surrogates
  | three x y z hx hy hz hshort hsurrogate hsum => omega
  | four w x y z hw hx hy hz hshort hlong hsum => omega

theorem Utf8Shape.exists_char {n : Nat} {form : List UInt8} (h : Utf8Shape n form) :
    ∃ c : Char, String.utf8EncodeChar c = form := by
  have hshape := utf8Shape (Char.ofNat n)
  rw [toNat_ofNat h.isValidChar] at hshape
  exact ⟨Char.ofNat n, hshape.unique h⟩

theorem wellFormedUtf8_nil : WellFormedUtf8 [] := ⟨[], rfl⟩

theorem wellFormedUtf8_cons {first : UInt8} {bytes : List UInt8} :
    WellFormedUtf8 (first :: bytes) ↔
      ∃ n form rest, Utf8Shape n form ∧ first :: bytes = form ++ rest ∧ WellFormedUtf8 rest := by
  constructor
  · rintro ⟨chars, hchars⟩
    cases chars with
    | nil => cases hchars
    | cons c chars =>
      refine ⟨c.toNat, String.utf8EncodeChar c, utf8 chars, utf8Shape c, ?_, chars, rfl⟩
      rw [← hchars, utf8, List.flatMap_cons]
      rfl
  · rintro ⟨n, form, rest, hshape, hbytes, chars, rfl⟩
    obtain ⟨c, rfl⟩ := hshape.exists_char
    refine ⟨c :: chars, ?_⟩
    rw [hbytes, utf8, List.flatMap_cons]
    rfl

theorem Utf8Shape.length_eq {n : Nat} {form : List UInt8} (h : Utf8Shape n form) : form.length =
    if n < 0x80 then 1 else if n < 0x800 then 2 else if n < 0x10000 then 3 else 4 := by
  cases h with
  | one hn =>
    rw [if_pos hn]
    rfl
  | two x y hlow hx hy hsum =>
    rw [if_neg (by omega), if_pos (by omega)]
    rfl
  | three x y z hx hy hz hshort hsurrogate hsum =>
    rw [if_neg (by omega), if_neg (by omega), if_pos (by omega)]
    rfl
  | four w x y z hw hx hy hz hshort hlong hsum =>
    rw [if_neg (by omega), if_neg (by omega), if_neg (by omega)]
    rfl

theorem Utf8Shape.length_pos {n : Nat} {form : List UInt8} (h : Utf8Shape n form) : 0 < form.length := by
  rw [h.length_eq]
  split
  · decide
  · split
    · decide
    · split <;> decide

/-- What accepts code points, one after the other, accepts well-formed bytes. -/
theorem accepts_iff_wellFormedUtf8 {accepts : Nat → List UInt8 → Prop}
    (hnil : ∀ fuel, accepts fuel [])
    (hcons : ∀ fuel first bytes, accepts (fuel + 1) (first :: bytes) ↔
      ∃ n form rest, Utf8Shape n form ∧ first :: bytes = form ++ rest ∧ accepts fuel rest)
    {fuel : Nat} {bytes : List UInt8} (hfuel : bytes.length ≤ fuel) :
    accepts fuel bytes ↔ WellFormedUtf8 bytes := by
  induction fuel generalizing bytes with
  | zero =>
    rw [List.eq_nil_of_length_eq_zero (Nat.le_zero.mp hfuel)]
    exact iff_of_true (hnil 0) wellFormedUtf8_nil
  | succ fuel ih =>
    cases bytes with
    | nil => exact iff_of_true (hnil _) wellFormedUtf8_nil
    | cons first bytes =>
      rw [hcons, wellFormedUtf8_cons]
      -- a round takes a byte or more, so the rest has rounds enough
      have hrest {n : Nat} {form rest : List UInt8} (hshape : Utf8Shape n form)
          (hbytes : first :: bytes = form ++ rest) : accepts fuel rest ↔ WellFormedUtf8 rest := by
        have hlength := congrArg List.length hbytes
        have hpos := hshape.length_pos
        rw [List.length_append] at hlength
        exact ih (by omega)
      constructor
      · rintro ⟨n, form, rest, hshape, hbytes, haccepts⟩
        exact ⟨n, form, rest, hshape, hbytes, (hrest hshape hbytes).mp haccepts⟩
      · rintro ⟨n, form, rest, hshape, hbytes, hwell⟩
        exact ⟨n, form, rest, hshape, hbytes, (hrest hshape hbytes).mpr hwell⟩

end Unicode
