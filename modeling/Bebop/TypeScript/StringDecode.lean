import Bebop.Lib.Unicode
import Bebop.TypeScript.Strings

/-!
# Bebop — decoding strings in TypeScript

Both decoders read the UTF-8 form of any characters back (`decodeLoop_utf8`,
`run_utf8`): the one in the source completely, the platform's up to a byte order
mark at the front.
-/

namespace Bebop.TypeScript

open Checked Unicode

theorem fromCodePoint_toNat (c : Char) : fromCodePoint c.toNat = units c := by
  unfold fromCodePoint units
  split
  · rfl
  · have hlow : 0x03ff = 2 ^ 10 - 1 := rfl
    rw [Nat.shiftRight_eq_div_pow, hlow, Nat.and_two_pow_sub_one_eq_mod, Nat.add_comm,
      Nat.add_comm (_ % _)]

/-! ## `decodeUtf8` -/

theorem continuation_ok {y : Nat} (h : y < 64) (rest : List UInt8) :
    continuation (.ofNat (0x80 + y) :: rest) = .ok (0x80 + y, rest) := by
  unfold continuation
  dsimp only
  rw [toNat_byte (by omega), (continuation_bits y h).1, if_neg (not_not.mpr rfl)]

theorem readCodePoint_shape {n : Nat} {first : UInt8} {bytes : List UInt8}
    (h : Utf8Shape n (first :: bytes)) (rest : List UInt8) :
    readCodePoint first.toNat (bytes ++ rest) = .ok (n, rest) := by
  unfold readCodePoint
  generalize hbytes : first :: bytes = form at h
  cases h with
  | one hn =>
    obtain ⟨rfl, rfl⟩ := List.cons.inj hbytes
    rw [toNat_byte (by omega), if_pos hn]
    rfl
  | two x y hlow hx hy hsum =>
    obtain ⟨rfl, rfl⟩ := List.cons.inj hbytes
    rw [toNat_byte (by omega), if_neg (by omega), if_pos (by omega), List.singleton_append,
      continuation_ok hy, ok_bind]
    dsimp only
    rw [two_digits hx hy, hsum]
    rfl
  | three x y z hx hy hz hshort hsurrogate hsum =>
    obtain ⟨rfl, rfl⟩ := List.cons.inj hbytes
    rw [toNat_byte (by omega), if_neg (by omega), if_neg (by omega), if_pos (by omega),
      List.cons_append, List.singleton_append, continuation_ok hy, ok_bind]
    dsimp only
    rw [continuation_ok hz, ok_bind]
    dsimp only
    rw [rejectIf_bind, if_neg (by omega), three_digits hx hy hz, hsum]
    rfl
  | four w x y z hw hx hy hz hshort hlong hsum =>
    obtain ⟨rfl, rfl⟩ := List.cons.inj hbytes
    rw [toNat_byte (by omega), if_neg (by omega), if_neg (by omega), if_neg (by omega),
      if_pos (by omega), List.cons_append, List.cons_append, List.singleton_append,
      continuation_ok hx, ok_bind]
    dsimp only
    rw [continuation_ok hy, ok_bind]
    dsimp only
    rw [continuation_ok hz, ok_bind]
    dsimp only
    rw [rejectIf_bind, if_neg (by omega), four_digits (by omega) hx hy hz, hsum]
    rfl

theorem utf8_cons (c : Char) (cs : List Char) : utf8 (c :: cs) = String.utf8EncodeChar c ++ utf8 cs :=
  List.flatMap_cons ..

theorem exists_first_byte (c : Char) :
    ∃ first bytes, String.utf8EncodeChar c = first :: bytes ∧ Utf8Shape c.toNat (first :: bytes) := by
  have hshape := utf8Shape c
  generalize String.utf8EncodeChar c = form at hshape
  cases hshape with
  | one hn => exact ⟨_, _, rfl, .one hn⟩
  | two x y hlow hx hy hsum => exact ⟨_, _, rfl, .two x y hlow hx hy hsum⟩
  | three x y z hx hy hz hshort hsurrogate hsum =>
    exact ⟨_, _, rfl, .three x y z hx hy hz hshort hsurrogate hsum⟩
  | four w x y z hw hx hy hz hshort hlong hsum =>
    exact ⟨_, _, rfl, .four w x y z hw hx hy hz hshort hlong hsum⟩

theorem decodeLoop_utf8 (cs : List Char) (fuel : Nat) (h : (utf8 cs).length ≤ fuel) :
    decodeLoop fuel (utf8 cs) = .ok (cs.flatMap units) := by
  induction cs generalizing fuel with
  | nil => cases fuel <;> rfl
  | cons c cs ih =>
    obtain ⟨first, bytes, hbytes, hshape⟩ := exists_first_byte c
    rw [utf8_cons, hbytes, List.cons_append, List.length_cons, List.length_append] at h
    obtain ⟨fuel, rfl⟩ := Nat.exists_eq_add_one_of_ne_zero (n := fuel) (by omega)
    rw [utf8_cons, hbytes, List.cons_append, decodeLoop, readCodePoint_shape hshape, ok_bind]
    dsimp only
    rw [ih fuel (by omega), ok_bind, pure_eq_ok, fromCodePoint_toNat, List.flatMap_cons]

/-! ## `TextDecoder` -/

theorem handle_continuation {codePoint seen needed lower upper y : Nat} (hneeded : needed ≠ 0)
    (hy : y < 64) (hlower : lower ≤ 0x80 + y) (hupper : 0x80 + y ≤ upper) :
    Utf8Decoder.handle ⟨codePoint, seen, needed, lower, upper⟩ (0x80 + y) =
      if seen + 1 = needed then some (.start, some (codePoint * 64 + y))
      else some (⟨codePoint * 64 + y, seen + 1, needed, 0x80, 0xbf⟩, none) := by
  unfold Utf8Decoder.handle
  dsimp only
  rw [if_neg hneeded, if_neg (not_not.mpr ⟨hlower, hupper⟩), (continuation_bits y hy).2, or_digit hy]

theorem run_shape {n : Nat} {form : List UInt8} (h : Utf8Shape n form) (rest : List UInt8) :
    Utf8Decoder.start.run (form ++ rest) = (Utf8Decoder.start.run rest).map (n :: ·) := by
  cases h with
  | one hn =>
    rw [List.singleton_append, Utf8Decoder.run, toNat_byte (by omega), Utf8Decoder.handle,
      if_pos (by rfl), if_pos (by omega)]
  | two x y hlow hx hy hsum =>
    have hfirst : Utf8Decoder.start.handle (0xc0 + x) = some (⟨x, 0, 1, 0x80, 0xbf⟩, none) := by
      rw [Utf8Decoder.handle, if_pos (by rfl), if_neg (by omega), if_pos (by omega), two_bits x hx]
      rfl
    rw [List.cons_append, List.singleton_append, Utf8Decoder.run, toNat_byte (by omega), hfirst]
    dsimp only
    rw [Utf8Decoder.run, toNat_byte (by omega),
      handle_continuation (by omega) hy (by omega) (by omega), if_pos rfl, hsum]
  | three x y z hx hy hz hshort hsurrogate hsum =>
    have hfirst : Utf8Decoder.start.handle (0xe0 + x) = some (⟨x, 0, 2,
        if 0xe0 + x = 0xe0 then 0xa0 else 0x80, if 0xe0 + x = 0xed then 0x9f else 0xbf⟩, none) := by
      rw [Utf8Decoder.handle, if_pos (by rfl), if_neg (by omega), if_neg (by omega),
        if_pos (by omega), three_bits x hx]
      rfl
    rw [List.cons_append, List.cons_append, List.singleton_append, Utf8Decoder.run,
      toNat_byte (by omega), hfirst]
    dsimp only
    rw [Utf8Decoder.run, toNat_byte (by omega), handle_continuation (by omega) hy
      (by split <;> omega) (by split <;> omega), if_neg (by omega)]
    dsimp only
    rw [Utf8Decoder.run, toNat_byte (by omega),
      handle_continuation (by omega) hz (by omega) (by omega), if_pos rfl, hsum]
  | four w x y z hw hx hy hz hshort hlong hsum =>
    have hfirst : Utf8Decoder.start.handle (0xf0 + w) = some (⟨w, 0, 3,
        if 0xf0 + w = 0xf0 then 0x90 else 0x80, if 0xf0 + w = 0xf4 then 0x8f else 0xbf⟩, none) := by
      rw [Utf8Decoder.handle, if_pos (by rfl), if_neg (by omega), if_neg (by omega),
        if_neg (by omega), if_pos (by omega), four_bits w (by omega)]
      rfl
    rw [List.cons_append, List.cons_append, List.cons_append, List.singleton_append,
      Utf8Decoder.run, toNat_byte (by omega), hfirst]
    dsimp only
    rw [Utf8Decoder.run, toNat_byte (by omega), handle_continuation (by omega) hx
      (by split <;> omega) (by split <;> omega), if_neg (by omega)]
    dsimp only
    rw [Utf8Decoder.run, toNat_byte (by omega),
      handle_continuation (by omega) hy (by omega) (by omega), if_neg (by omega)]
    dsimp only
    rw [Utf8Decoder.run, toNat_byte (by omega),
      handle_continuation (by omega) hz (by omega) (by omega), if_pos rfl, hsum]

theorem run_utf8 (cs : List Char) : Utf8Decoder.start.run (utf8 cs) = some (cs.map Char.toNat) := by
  induction cs with
  | nil => rfl
  | cons c cs ih => rw [utf8_cons, run_shape (utf8Shape c), ih, Option.map_some, List.map_cons]

theorem flatMap_fromCodePoint (cs : List Char) :
    (cs.map Char.toNat).flatMap fromCodePoint = cs.flatMap units := by
  rw [List.flatMap_map]
  exact List.flatMap_congr fun c _ => fromCodePoint_toNat c

theorem textDecode_utf8 (cs : List Char) :
    textDecode (utf8 cs) = some
      ((if cs.head? = some '\uFEFF' then cs.tail else cs).flatMap units) := by
  have hdrop : dropBom (cs.map Char.toNat) =
      (if cs.head? = some '\uFEFF' then cs.tail else cs).map Char.toNat := by
    cases cs with
    | nil => rfl
    | cons c cs =>
      by_cases hbom : c = '\uFEFF'
      · rw [hbom]
        rfl
      · have hhead : (c :: cs).head? ≠ some '\uFEFF' := fun h => hbom (Option.some.inj h)
        rw [if_neg hhead, List.map_cons]
        have hne : c.toNat ≠ 0xfeff := fun heq => hbom (Char.toNat_inj.mp heq)
        unfold dropBom
        split
        · rename_i heq
          exact absurd (List.cons.inj heq).1 hne
        · rfl
  rw [textDecode, run_utf8, Option.map_some, hdrop, flatMap_fromCodePoint]

theorem decodeUtf8_utf8 (cs : List Char) : decodeUtf8 (utf8 cs) = .ok
    ((if textDecoderThreshold ≤ (utf8 cs).length ∧ cs.head? = some '\uFEFF' then cs.tail
      else cs).flatMap units) := by
  unfold decodeUtf8
  by_cases hempty : (utf8 cs).length = 0
  · rw [if_pos hempty, if_neg (by rw [hempty]; exact fun h => absurd h.1 (by decide))]
    cases cs with
    | nil => rfl
    | cons c cs =>
      obtain ⟨first, bytes, hbytes, -⟩ := exists_first_byte c
      rw [utf8_cons, hbytes] at hempty
      cases hempty
  · rw [if_neg hempty]
    by_cases hlong : textDecoderThreshold ≤ (utf8 cs).length
    · rw [if_pos hlong, textDecode_utf8]
      simp only [hlong, true_and]
    · rw [if_neg hlong, if_neg fun h => hlong h.1]
      exact decodeLoop_utf8 cs _ (Nat.le_refl _)

end Bebop.TypeScript
