import Bebop.Lib.Unicode
import Bebop.Compiler.Scanner

/-!
# Bebop — UTF-8 in the compiler

`bebop_utf8_decode` finds the width of a code point in its table, which lets some
first bytes pass that begin none, and tests the value it computes
(`utf8Decode_iff`). What it reads are the bytes of a code point all the same, so
that `bebop_utf8_valid` accepts the well-formed bytes.
-/

namespace Bebop.Compiler

open Unicode

/-! ## The table and the marks -/

theorem isContinuation_iff {b : UInt8} : isContinuation b = true ↔ b.toNat &&& 0xc0 = 0x80 := by
  unfold isContinuation
  rw [beq_iff_eq, ← UInt8.toNat_inj, UInt8.toNat_and]
  rfl

theorem utf8Width_cases (a : UInt8) :
    (utf8Width a = 2 ↔ 0xc0 ≤ a.toNat ∧ a.toNat < 0xe0) ∧
      (utf8Width a = 3 ↔ 0xe0 ≤ a.toNat ∧ a.toNat < 0xf0) ∧
      (utf8Width a = 4 ↔ 0xf0 ≤ a.toNat ∧ a.toNat < 0xf8) := by
  have htable : ∀ i : Fin 256, (utf8Width (.ofNat i) = 2 ↔ 0xc0 ≤ i.val ∧ i.val < 0xe0) ∧
      (utf8Width (.ofNat i) = 3 ↔ 0xe0 ≤ i.val ∧ i.val < 0xf0) ∧
      (utf8Width (.ofNat i) = 4 ↔ 0xf0 ≤ i.val ∧ i.val < 0xf8) := by decide +kernel
  have hwidth := htable ⟨a.toNat, a.toNat_lt⟩
  rw [UInt8.ofNat_toNat] at hwidth
  exact hwidth

/-! ## Code points -/

theorem utf8Decode_shape {n : Nat} {form : List UInt8} (h : Utf8Shape n form) (rest : List UInt8) :
    utf8Decode (form ++ rest) = some (n, form.length) := by
  have hnot {k : Nat} (hk : 0x80 ≤ k) (hlt : k < 256) : ¬UInt8.ofNat k < 0x80 := by
    rw [UInt8.lt_iff_toNat_lt, toNat_byte hlt]
    exact Nat.not_lt.mpr hk
  have hmark {y : Nat} (hy : y < 64) : isContinuation (.ofNat (0x80 + y)) = true := by
    rw [isContinuation_iff, toNat_byte (by omega)]
    exact (continuation_bits y hy).1
  cases h with
  | one hn =>
    have hlt : UInt8.ofNat n < 0x80 := by
      rw [UInt8.lt_iff_toNat_lt, toNat_byte (by omega)]
      exact hn
    rw [List.singleton_append]
    unfold utf8Decode
    dsimp only
    rw [if_pos hlt, toNat_byte (by omega)]
    rfl
  | two x y hlow hx hy hsum =>
    have hwidth : utf8Width (.ofNat (0xc0 + x)) = 2 := by
      rw [(utf8Width_cases _).1, toNat_byte (by omega)]
      omega
    rw [List.cons_append, List.singleton_append]
    rw [utf8Decode.eq_2 _ _ _ hwidth, if_neg (hnot (by omega) (by omega))]
    dsimp only
    rw [hmark hy, if_neg (by decide), toNat_byte (by omega), toNat_byte (by omega), two_digits hx hy,
      if_neg (by omega), hsum]
    rfl
  | three x y z hx hy hz hshort hsurrogate hsum =>
    have hwidth : utf8Width (.ofNat (0xe0 + x)) = 3 := by
      rw [(utf8Width_cases _).2.1, toNat_byte (by omega)]
      omega
    rw [List.cons_append, List.cons_append, List.singleton_append]
    rw [utf8Decode.eq_3 _ _ _ _ hwidth, if_neg (hnot (by omega) (by omega))]
    dsimp only
    rw [hmark hy, hmark hz, if_neg (by decide), toNat_byte (by omega), toNat_byte (by omega),
      toNat_byte (by omega), three_digits hx hy hz, if_neg (by omega), if_neg (by omega), hsum]
    rfl
  | four w x y z hw hx hy hz hshort hlong hsum =>
    have hwidth : utf8Width (.ofNat (0xf0 + w)) = 4 := by
      rw [(utf8Width_cases _).2.2, toNat_byte (by omega)]
      omega
    rw [List.cons_append, List.cons_append, List.cons_append, List.singleton_append]
    rw [utf8Decode.eq_4 _ _ _ _ _ hwidth, if_neg (hnot (by omega) (by omega))]
    dsimp only
    rw [hmark hx, hmark hy, hmark hz, if_neg (by decide), toNat_byte (by omega), toNat_byte (by omega),
      toNat_byte (by omega), toNat_byte (by omega), four_digits (by omega) hx hy hz,
      if_neg (by omega), hsum]
    rfl

theorem utf8Decode_iff {s : List UInt8} {n k : Nat} :
    utf8Decode s = some (n, k) ↔
      ∃ form rest, Utf8Shape n form ∧ s = form ++ rest ∧ k = form.length := by
  constructor
  · intro h
    unfold utf8Decode at h
    split at h
    · cases h
    · rename_i a s
      split at h
      · rename_i ha
        cases h
        exact ⟨[a], s, .of_one ha, rfl, rfl⟩
      · split at h
        · rename_i b rest hwidth
          rw [(utf8Width_cases a).1] at hwidth
          obtain ⟨x, hbyte, rfl⟩ : ∃ x, 0xc0 + x < 256 ∧ a = .ofNat (0xc0 + x) := exists_first_digit hwidth.1
          rw [toNat_byte hbyte] at hwidth h
          split at h
          · cases h
          · rename_i hb
            obtain ⟨y, hy, rfl⟩ := exists_digit (isContinuation_iff.mp (by simpa using hb))
            rw [toNat_byte (by omega), two_digits (by omega) hy] at h
            dsimp only at h
            split at h
            · cases h
            · cases h
              exact ⟨_, rest, .two x y (by omega) (by omega) hy rfl, rfl, rfl⟩
        · rename_i b c rest hwidth
          rw [(utf8Width_cases a).2.1] at hwidth
          obtain ⟨x, hbyte, rfl⟩ : ∃ x, 0xe0 + x < 256 ∧ a = .ofNat (0xe0 + x) := exists_first_digit hwidth.1
          rw [toNat_byte hbyte] at hwidth h
          split at h
          · cases h
          · rename_i hmarks
            have hmarks : isContinuation b = true ∧ isContinuation c = true := by simpa using hmarks
            obtain ⟨y, hy, rfl⟩ := exists_digit (isContinuation_iff.mp hmarks.1)
            obtain ⟨z, hz, rfl⟩ := exists_digit (isContinuation_iff.mp hmarks.2)
            rw [toNat_byte (by omega), toNat_byte (by omega), three_digits (by omega) hy hz] at h
            dsimp only at h
            split at h
            · cases h
            · split at h
              · cases h
              · cases h
                exact ⟨_, rest, .three x y z (by omega) hy hz (by omega) (by omega) rfl, rfl, rfl⟩
        · rename_i b c d rest hwidth
          rw [(utf8Width_cases a).2.2] at hwidth
          obtain ⟨w, hbyte, rfl⟩ : ∃ w, 0xf0 + w < 256 ∧ a = .ofNat (0xf0 + w) := exists_first_digit hwidth.1
          rw [toNat_byte hbyte] at hwidth h
          split at h
          · cases h
          · rename_i hmarks
            have hmarks : (isContinuation b = true ∧ isContinuation c = true) ∧ isContinuation d = true := by
              simpa using hmarks
            obtain ⟨x, hx, rfl⟩ := exists_digit (isContinuation_iff.mp hmarks.1.1)
            obtain ⟨y, hy, rfl⟩ := exists_digit (isContinuation_iff.mp hmarks.1.2)
            obtain ⟨z, hz, rfl⟩ := exists_digit (isContinuation_iff.mp hmarks.2)
            rw [toNat_byte (by omega), toNat_byte (by omega), toNat_byte (by omega),
              four_digits (by omega) hx hy hz] at h
            dsimp only at h
            split at h
            · cases h
            · cases h
              exact ⟨_, rest, .four w x y z (by omega) hx hy hz (by omega) (by omega) rfl, rfl, rfl⟩
        · cases h
  · rintro ⟨form, rest, hshape, rfl, rfl⟩
    exact utf8Decode_shape hshape rest

theorem utf8Valid_iff (s : List UInt8) : utf8Valid s = true ↔ WellFormedUtf8 s := by
  refine @accepts_iff_wellFormedUtf8 (fun fuel s => utf8ValidLoop fuel s = true) ?_ ?_ _ _ (Nat.le_refl _)
  · intro fuel
    cases fuel <;> rfl
  · intro fuel c s
    rw [utf8ValidLoop]
    constructor
    · intro h
      split at h
      · cases h
      · rename_i n consumed hdecode
        obtain ⟨form, rest, hshape, hs, rfl⟩ := utf8Decode_iff.mp hdecode
        rw [hs, List.drop_left] at h
        exact ⟨n, form, rest, hshape, hs, h⟩
    · rintro ⟨n, form, rest, hshape, hs, h⟩
      rw [hs, utf8Decode_shape hshape]
      dsimp only
      rw [List.drop_left]
      exact h

end Bebop.Compiler
