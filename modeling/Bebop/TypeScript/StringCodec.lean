import Bebop.TypeScript.StringDecode

/-!
# Bebop — strings there and back in TypeScript

`writeString` appends the length of the UTF-8 form of a string, the form, and a zero byte,
whatever the buffer does meanwhile (`writeString_cases`). Read back, a string has its lone
surrogates replaced, and a long one loses a byte order mark at its front.
-/

namespace Bebop.TypeScript

open Bytes Checked Unicode

/-! ## What is written -/

theorem or_tables : (∀ x < 32, x ||| 0xc0 = x + 0xc0) ∧ (∀ x < 16, x ||| 0xe0 = x + 0xe0) ∧
    (∀ x < 8, x ||| 0xf0 = x + 0xf0) ∧ ∀ x < 64, x ||| 0x80 = x + 0x80 := by decide

theorem utf8Bytes_toNat (c : Char) :
    (BebopWriter.utf8Bytes c.toNat).map UInt8.ofNat = String.utf8EncodeChar c := by
  obtain ⟨htwo, hthree, hfour, hnext⟩ := or_tables
  have hlow (n : Nat) : n &&& 0x3f = n % 64 := Nat.and_two_pow_sub_one_eq_mod n 6
  unfold BebopWriter.utf8Bytes String.utf8EncodeChar
  rw [Char.toNat_val]
  generalize c.toNat = n
  have h1f : n >>> 6 &&& 0x1f = n / 64 % 32 := by
    rw [Nat.shiftRight_eq_div_pow]
    exact Nat.and_two_pow_sub_one_eq_mod _ 5
  have h0f : n >>> 12 &&& 0x0f = n / 4096 % 16 := by
    rw [Nat.shiftRight_eq_div_pow]
    exact Nat.and_two_pow_sub_one_eq_mod _ 4
  have h07 : n >>> 18 &&& 0x07 = n / 262144 % 8 := by
    rw [Nat.shiftRight_eq_div_pow]
    exact Nat.and_two_pow_sub_one_eq_mod _ 3
  have h12 : n >>> 12 &&& 0x3f = n / 4096 % 64 := by
    rw [hlow, Nat.shiftRight_eq_div_pow]
  have h6 : n >>> 6 &&& 0x3f = n / 64 % 64 := by
    rw [hlow, Nat.shiftRight_eq_div_pow]
  rw [hlow, h1f, h0f, h07, h12, h6, htwo _ (Nat.mod_lt _ (by decide)), hthree _ (Nat.mod_lt _ (by decide)),
    hfour _ (Nat.mod_lt _ (by decide)), hnext _ (Nat.mod_lt _ (by decide)),
    hnext _ (Nat.mod_lt _ (by decide)), hnext _ (Nat.mod_lt _ (by decide))]
  dsimp only
  by_cases hone : n < 0x80
  · rw [if_pos hone, if_pos (Nat.le_of_lt_succ hone)]
    rfl
  · have hone' : ¬n ≤ 0x7f := by omega
    rw [if_neg hone, if_neg hone']
    by_cases htwo : n < 0x800
    · rw [if_pos htwo, if_pos (Nat.le_of_lt_succ htwo)]
      rfl
    · have htwo' : ¬n ≤ 0x7ff := by omega
      rw [if_neg htwo, if_neg htwo']
      by_cases hthree : n < 0x10000
      · rw [if_pos hthree, if_pos (Nat.le_of_lt_succ hthree)]
        rfl
      · have hthree' : ¬n ≤ 0xffff := by omega
        rw [if_neg hthree, if_neg hthree']
        rfl

theorem codePoints_eq (s : List UInt16) : BebopWriter.codePoints s = (scalars s).map Char.toNat := by
  have hsingle (a : UInt16) : (single a).toNat =
      if 0xd800 ≤ a.toNat ∧ a.toNat ≤ 0xdbff then 0xfffd
      else if 0xdc00 ≤ a.toNat ∧ a.toNat ≤ 0xdfff then 0xfffd else a.toNat := by
    simp only [toNat_single, isHighSurrogate_iff, isLowSurrogate_iff]
    by_cases hhigh : 0xd800 ≤ a.toNat ∧ a.toNat ≤ 0xdbff
    · rw [if_pos (.inl hhigh), if_pos hhigh]
    · by_cases hlow : 0xdc00 ≤ a.toNat ∧ a.toNat ≤ 0xdfff
      · rw [if_pos (.inr hlow), if_neg hhigh, if_pos hlow]
      · rw [if_neg (not_or.mpr ⟨hhigh, hlow⟩), if_neg hhigh, if_neg hlow]
  induction s using scalars.induct with
  | case1 => rfl
  | case2 a =>
    rw [BebopWriter.codePoints, scalars, List.map_singleton, hsingle]
    split
    · rfl
    · split <;> rfl
  | case3 a b rest hpair ih =>
    have hhigh := isHighSurrogate_iff.mp hpair.1
    have hlow := isLowSurrogate_iff.mp hpair.2
    have hcode : (((a.toNat <<< 10 + b.toNat : Nat) : Int) + (0x10000 - 0xd800 * 2 ^ 10 - 0xdc00)).toNat =
        pairCodePoint a b := by
      unfold pairCodePoint
      rw [Nat.shiftLeft_eq]
      omega
    rw [BebopWriter.codePoints, scalars, if_pos hhigh, if_pos hlow, if_pos hpair, List.map_cons, ih,
      toNat_pair hpair.1 hpair.2, hcode]
  | case4 a b rest hpair ih =>
    rw [scalars, if_neg hpair, BebopWriter.codePoints, List.map_cons, hsingle, ih]
    by_cases hhigh : 0xd800 ≤ a.toNat ∧ a.toNat ≤ 0xdbff
    · have hlow : ¬(0xdc00 ≤ b.toNat ∧ b.toNat ≤ 0xdfff) := fun hlow =>
        hpair ⟨isHighSurrogate_iff.mpr hhigh, isLowSurrogate_iff.mpr hlow⟩
      rw [if_pos hhigh, if_pos hhigh, if_neg hlow]
    · rw [if_neg hhigh, if_neg hhigh]
      split <;> rfl

namespace BebopWriter

variable {writer writer' : BebopWriter}

/-! ## The buffer -/

theorem nextLength_ok {length fuel capacity : Nat} (hcapacity : 0 < capacity) (hpos : 0 < fuel)
    (hfuel : length < capacity + fuel) :
    ∃ next, nextLength length fuel capacity = .ok next ∧ length ≤ next := by
  induction fuel generalizing capacity with
  | zero => exact absurd hpos (Nat.lt_irrefl 0)
  | succ fuel ih =>
    unfold nextLength
    split
    · exact ih (by omega) (by omega) (by omega)
    · rename_i henough
      exact ⟨capacity, rfl, Nat.not_lt.mp henough⟩

structure Grown (writer writer' : BebopWriter) : Prop where
  buffer : writer.buffer <+: writer'.buffer
  length : writer'.length = writer.length
  fixed : writer'.fixed = writer.fixed

theorem guaranteeBufferLength_cases (writer : BebopWriter) (length : Nat) :
    (∃ writer', writer.guaranteeBufferLength length = .ok writer' ∧ Grown writer writer' ∧
      length ≤ writer'.buffer.length) ∨
    (writer.fixed = true ∧ ∃ error, writer.guaranteeBufferLength length = .error error) := by
  unfold guaranteeBufferLength
  by_cases hroom : length ≤ writer.buffer.length
  · rw [if_pos hroom]
    exact .inl ⟨writer, rfl, ⟨List.prefix_refl _, rfl, rfl⟩, hroom⟩
  · rw [if_neg hroom]
    cases hfixed : writer.fixed with
    | true => exact .inr ⟨rfl, _, rfl⟩
    | false =>
      obtain ⟨next, hnext, hle⟩ := nextLength_ok (writer.growable hfixed) (Nat.succ_pos length)
        (Nat.lt_add_left writer.buffer.length (Nat.lt_succ_self length))
      refine .inl ⟨writer.grow next, ?_, ⟨List.prefix_append _ _, rfl, rfl⟩, ?_⟩
      · rw [hnext]
        rfl
      · unfold grow
        dsimp only
        rw [List.length_append, List.length_replicate]
        omega

theorem storeAll_eq (writer : BebopWriter) (index : Nat) (bytes : List Nat)
    (h : index + bytes.length ≤ writer.buffer.length) :
    (writer.storeAll index bytes).buffer = writer.buffer.take index ++
        (bytes.map UInt8.ofNat ++ writer.buffer.drop (index + bytes.length)) ∧
      (writer.storeAll index bytes).length = writer.length ∧
      (writer.storeAll index bytes).fixed = writer.fixed := by
  induction bytes generalizing writer index with
  | nil =>
    refine ⟨?_, rfl, rfl⟩
    rw [List.map_nil, List.nil_append, List.length_nil, Nat.add_zero, List.take_append_drop]
    rfl
  | cons byte bytes ih =>
    rw [List.length_cons] at h
    have hset : (writer.store index byte).buffer =
        writer.buffer.take index ++ .ofNat byte :: writer.buffer.drop (index + 1) := by
      change writer.buffer.set index _ = _
      rw [List.set_eq_take_append_cons_drop, if_pos (by omega)]
    have hlength : (writer.buffer.take index).length = index := by
      rw [List.length_take]
      omega
    have htake : (writer.buffer.take index).take (index + 1) = writer.buffer.take index :=
      List.take_of_length_le (by omega)
    have hdrop : (writer.buffer.take index).drop (index + 1 + bytes.length) = [] :=
      List.drop_eq_nil_of_le (by omega)
    have hskip : index + 1 + bytes.length - index = bytes.length + 1 := by omega
    have hsum : index + 1 + bytes.length = index + (bytes.length + 1) := by omega
    obtain ⟨hbuffer, hlen, hfixed⟩ := ih (writer.store index byte) (index + 1) (by
      change _ ≤ (writer.buffer.set index _).length
      rw [List.length_set]
      omega)
    refine ⟨?_, hlen, hfixed⟩
    rw [storeAll, hbuffer, hset, List.length_cons, List.map_cons, List.take_append, List.drop_append,
      hlength, htake, hdrop, hskip, Nat.add_sub_cancel_left, List.take_succ_cons, List.take_zero,
      List.nil_append, List.drop_succ_cons, List.drop_drop, List.append_assoc, List.singleton_append,
      hsum, List.cons_append]

theorem Grown.take (h : Grown writer writer') {index : Nat} (hindex : index ≤ writer.buffer.length) :
    writer'.buffer.take index = writer.buffer.take index := by
  obtain ⟨added, hbuffer⟩ := h.buffer
  rw [← hbuffer, List.take_append_of_le_length hindex]

/-! ## A string -/

theorem writeCodePoints_cases (codePoints : List Nat) (writer : BebopWriter) {writeIndex : Nat}
    (hindex : writeIndex ≤ writer.buffer.length) :
    let bytes := codePoints.flatMap fun codePoint => (utf8Bytes codePoint).map UInt8.ofNat
    (∃ writer', writeCodePoints codePoints writer writeIndex = .ok (writer', writeIndex + bytes.length) ∧
      writer'.buffer.take (writeIndex + bytes.length) = writer.buffer.take writeIndex ++ bytes ∧
      writeIndex + bytes.length ≤ writer'.buffer.length ∧ writer'.fixed = writer.fixed) ∨
    (writer.fixed = true ∧ ∃ error, writeCodePoints codePoints writer writeIndex = .error error) := by
  induction codePoints generalizing writer writeIndex with
  | nil =>
    refine .inl ⟨writer, rfl, ?_, hindex, rfl⟩
    rw [List.flatMap_nil, List.append_nil]
    rfl
  | cons codePoint rest ih =>
    dsimp only at ih ⊢
    rw [writeCodePoints]
    rcases writer.guaranteeBufferLength_cases (writeIndex + (utf8Bytes codePoint).length) with
      ⟨grown, hgrown, hlead, hroom⟩ | ⟨hfixed, error, hgrown⟩
    · rw [hgrown, ok_bind]
      obtain ⟨hbuffer, hlength, hfixed⟩ := grown.storeAll_eq writeIndex (utf8Bytes codePoint) hroom
      have hroom' : writeIndex + (utf8Bytes codePoint).length ≤
          (grown.storeAll writeIndex (utf8Bytes codePoint)).buffer.length := by
        rw [hbuffer, List.length_append, List.length_append, List.length_take, List.length_map,
          List.length_drop]
        omega
      -- the bytes up to the next index are the old ones and those of the code point
      have hwritten : (grown.storeAll writeIndex (utf8Bytes codePoint)).buffer.take
            (writeIndex + (utf8Bytes codePoint).length) =
          writer.buffer.take writeIndex ++ (utf8Bytes codePoint).map UInt8.ofNat := by
        rw [hbuffer, ← List.append_assoc, hlead.take hindex]
        refine List.take_left' ?_
        rw [List.length_append, List.length_take, List.length_map]
        omega
      have hmore : writeIndex + ((utf8Bytes codePoint).map UInt8.ofNat ++
            rest.flatMap fun codePoint => (utf8Bytes codePoint).map UInt8.ofNat).length =
          writeIndex + (utf8Bytes codePoint).length +
            (rest.flatMap fun codePoint => (utf8Bytes codePoint).map UInt8.ofNat).length := by
        rw [List.length_append, List.length_map]
        omega
      rw [List.flatMap_cons, hmore]
      rcases ih (grown.storeAll writeIndex (utf8Bytes codePoint)) hroom' with
        ⟨writer', hrest, htake, hlong, hsame⟩ | ⟨hnone, error, hrest⟩
      · refine .inl ⟨writer', hrest, ?_, hlong, ?_⟩
        · rw [htake, hwritten, List.append_assoc]
        · rw [hsame, hfixed, hlead.fixed]
      · refine .inr ⟨?_, error, hrest⟩
        rw [← hlead.fixed, ← hfixed]
        exact hnone
    · rw [hgrown]
      exact .inr ⟨hfixed, error, rfl⟩

theorem bytes_codePoints (value : List UInt16) :
    ((codePoints value).flatMap fun codePoint => (utf8Bytes codePoint).map UInt8.ofNat) =
      utf8 (scalars value) := by
  rw [codePoints_eq, List.flatMap_map]
  exact List.flatMap_congr fun c _ => utf8Bytes_toNat c

theorem setLength_of_le {length : Nat} (h : length ≤ writer.buffer.length) :
    ∃ writer', writer.setLength length = .ok writer' ∧ writer'.buffer = writer.buffer ∧
      writer'.length = length ∧ writer'.fixed = writer.fixed := by
  unfold setLength
  rw [dif_pos h]
  exact ⟨_, rfl, rfl, rfl, rfl⟩

theorem reserve_cases (writer : BebopWriter) (byteCount : Nat) :
    (∃ writer', writer.reserve byteCount = .ok (writer.length, writer') ∧
      writer.buffer <+: writer'.buffer ∧ writer'.length = writer.length + byteCount ∧
      writer'.fixed = writer.fixed) ∨
    (writer.fixed = true ∧ ∃ error, writer.reserve byteCount = .error error) := by
  unfold reserve
  rcases writer.guaranteeBufferLength_cases (writer.length + byteCount) with
    ⟨grown, hgrown, hlead, hroom⟩ | ⟨hfixed, error, hgrown⟩
  · obtain ⟨writer', hset, hbuffer, hlength, hfixed⟩ := setLength_of_le hroom
    rw [hgrown, ok_bind, hset, ok_bind]
    refine .inl ⟨writer', rfl, ?_, hlength, hfixed.trans hlead.fixed⟩
    rw [hbuffer]
    exact hlead.buffer
  · rw [hgrown]
    exact .inr ⟨hfixed, error, rfl⟩

theorem toArray_framed {start : Nat} {bytes : List UInt8} {written : List UInt8}
    (htake : writer.buffer.take (start + 4 + bytes.length) = written ++ bytes)
    (hwritten : written.length = start + 4) (hroom : start + 4 + bytes.length + 1 ≤ writer.buffer.length) :
    ∃ writer', ((writer.setUint32 start bytes.length).store (start + 4 + bytes.length) 0).setLength
        (start + 4 + bytes.length + 1) = .ok writer' ∧
      writer'.toArray = written.take start ++ (leBytes 4 bytes.length ++ (bytes ++ [0])) := by
  have hvalues : ((leBytes 4 bytes.length).map UInt8.toNat).length = 4 := by
    rw [List.length_map, length_leBytes]
  obtain ⟨hleads, -, -⟩ := writer.storeAll_eq start ((leBytes 4 bytes.length).map UInt8.toNat)
    (by rw [hvalues]; omega)
  obtain ⟨hstored, -, -⟩ := (writer.setUint32 start bytes.length).storeAll_eq
    (start + 4 + bytes.length) [0] (by
      rw [setUint32, hleads, List.length_append, List.length_append, List.length_take,
        List.length_map, List.length_drop, hvalues, List.length_singleton]
      omega)
  have hback : ((leBytes 4 bytes.length).map UInt8.toNat).map UInt8.ofNat = leBytes 4 bytes.length := by
    rw [List.map_map]
    exact (List.map_congr_left fun b _ => UInt8.ofNat_toNat).trans (List.map_id _)
  rw [hvalues, hback] at hleads
  -- the buffer up to the zero byte, and what comes after it
  have hbuffer : writer.buffer = written ++ (bytes ++ writer.buffer.drop (start + 4 + bytes.length)) := by
    rw [← List.append_assoc, ← htake, List.take_append_drop]
  have hlength : (writer.setUint32 start bytes.length).buffer =
      written.take start ++ (leBytes 4 bytes.length ++
        (bytes ++ writer.buffer.drop (start + 4 + bytes.length))) := by
    have htakeStart : writer.buffer.take start = written.take start := by
      rw [hbuffer, List.take_append_of_le_length (by omega)]
    have hdropStart : writer.buffer.drop (start + 4) =
        bytes ++ writer.buffer.drop (start + 4 + bytes.length) := by
      conv_lhs => rw [hbuffer]
      rw [← hwritten, List.drop_left]
    rw [setUint32, hleads, htakeStart, hdropStart]
  have hwidth : (written.take start ++ (leBytes 4 bytes.length ++ bytes)).length =
      start + 4 + bytes.length := by
    rw [List.length_append, List.length_append, List.length_take, length_leBytes]
    omega
  have hzero : ((writer.setUint32 start bytes.length).store (start + 4 + bytes.length) 0).buffer =
      written.take start ++ (leBytes 4 bytes.length ++ bytes) ++
        (0 :: writer.buffer.drop (start + 4 + bytes.length + 1)) := by
    change ((writer.setUint32 start bytes.length).storeAll (start + 4 + bytes.length) [0]).buffer = _
    rw [hstored, hlength]
    have hsplit : written.take start ++ (leBytes 4 bytes.length ++
        (bytes ++ writer.buffer.drop (start + 4 + bytes.length))) =
          written.take start ++ (leBytes 4 bytes.length ++ bytes) ++
            writer.buffer.drop (start + 4 + bytes.length) := by
      rw [List.append_assoc, List.append_assoc]
    rw [hsplit, List.take_left' hwidth, List.drop_append, hwidth, List.drop_eq_nil_of_le (by omega),
      List.nil_append, List.drop_drop, List.length_singleton, Nat.add_sub_cancel_left]
    rfl
  have hlast : (written.take start ++ (leBytes 4 bytes.length ++ bytes) ++ [0]).length =
      start + 4 + bytes.length + 1 := by
    rw [List.length_append, hwidth, List.length_singleton]
  have hfits : start + 4 + bytes.length + 1 ≤
      ((writer.setUint32 start bytes.length).store (start + 4 + bytes.length) 0).buffer.length := by
    rw [hzero, List.length_append, hwidth, List.length_cons]
    omega
  obtain ⟨writer', hset, hbuffer', hlen, -⟩ := setLength_of_le hfits
  refine ⟨writer', hset, ?_⟩
  rw [toArray, hbuffer', hlen, hzero, ← List.singleton_append, ← List.append_assoc, List.take_left' hlast,
    List.append_assoc, List.append_assoc]

theorem writeString_cases (writer : BebopWriter) (value : List UInt16) :
    (∃ writer', writer.writeString value = .ok writer' ∧
      (utf8 (scalars value)).length ≤ 0xffffffff ∧
      writer'.toArray = writer.toArray ++ (leBytes 4 (utf8 (scalars value)).length ++
        (utf8 (scalars value) ++ [0]))) ∨
    ((writer.fixed = true ∨ 0xffffffff < (utf8 (scalars value)).length) ∧
      ∃ error, writer.writeString value = .error error) := by
  unfold writeString
  rcases writer.reserve_cases 4 with ⟨reserved, hreserve, hlead, hlength, hfixed⟩ | ⟨hfixed, error, hreserve⟩
  · rw [hreserve, ok_bind]
    dsimp only
    have hroom : writer.length + 4 ≤ reserved.buffer.length := hlength ▸ reserved.bounded
    have hloop := writeCodePoints_cases (codePoints value) reserved hroom
    rw [bytes_codePoints] at hloop
    rcases hloop with ⟨looped, hcall, htake, hlong, hsame⟩ | ⟨hnone, error, hcall⟩
    · rw [hcall, ok_bind]
      dsimp only
      rcases looped.guaranteeBufferLength_cases
          (writer.length + 4 + (utf8 (scalars value)).length + 1) with
        ⟨grown, hgrown, hgrow, hroom'⟩ | ⟨hnone, error, hgrown⟩
      · rw [hgrown, ok_bind, Nat.add_sub_cancel_left, rejectIf_bind]
        by_cases hlimit : (utf8 (scalars value)).length > 0xffffffff
        · rw [if_pos hlimit]
          exact .inr ⟨.inr hlimit, _, rfl⟩
        · rw [if_neg hlimit]
          have hwritten : (reserved.buffer.take (writer.length + 4)).length = writer.length + 4 := by
            rw [List.length_take]
            omega
          obtain ⟨writer', hset, harray⟩ := toArray_framed ((hgrow.take hlong).trans htake) hwritten hroom'
          refine .inl ⟨writer', hset, Nat.not_lt.mp hlimit, ?_⟩
          obtain ⟨added, hadded⟩ := hlead
          rw [harray, List.take_take, ← hadded, Nat.min_eq_left (Nat.le_add_right _ _),
            List.take_append_of_le_length writer.bounded]
          rfl
      · rw [hgrown]
        exact .inr ⟨.inl (by rw [← hfixed, ← hsame]; exact hnone), error, rfl⟩
    · rw [hcall]
      exact .inr ⟨.inl (by rw [← hfixed]; exact hnone), error, rfl⟩
  · rw [hreserve]
    exact .inr ⟨.inl hfixed, error, rfl⟩

end BebopWriter

end Bebop.TypeScript

/-!
## The round trip of a string in TypeScript

A well-formed string is read back as it is, unless its UTF-8 form has three hundred bytes
or more and it starts with U+FEFF, which the platform's decoder takes for a byte order mark.
-/

namespace Bebop.TypeScript

open Bytes Checked Unicode

theorem readString_writeString {writer writer' : BebopWriter} {value : List UInt16}
    (h : writer.writeString value = .ok writer') :
    readString ⟨writer'.toArray, writer.length⟩ = .ok
      ((if textDecoderThreshold ≤ (utf8 (scalars value)).length ∧ value.head? = some 0xfeff then
          (scalars value).tail
        else scalars value).flatMap units, ⟨writer'.toArray, writer'.toArray.length⟩) := by
  rcases writer.writeString_cases value with ⟨_, hcall, hlimit, harray⟩ | ⟨-, error, hcall⟩
  · obtain rfl := Except.ok.inj (h.symm.trans hcall)
    generalize hbytes : utf8 (scalars value) = bytes at hlimit harray
    have hstart : writer.toArray.length = writer.length := by
      rw [BebopWriter.toArray, List.length_take]
      exact Nat.min_eq_left writer.bounded
    have hlength : writer'.toArray.length = writer.length + 4 + bytes.length + 1 := by
      rw [harray, List.length_append, List.length_append, List.length_append, length_leBytes, hstart,
        List.length_singleton]
      omega
    have hlead : leAt writer'.toArray writer.length 4 = bytes.length := by
      rw [harray, leAt_append_right (by omega), hstart, Nat.sub_self]
      exact leAt_leBytes (by omega) _
    -- the reader is at the bytes of the string
    have hdrop : writer'.toArray.drop (writer.length + 4) = bytes ++ [0] := by
      rw [harray, ← List.append_assoc]
      refine List.drop_left' ?_
      rw [List.length_append, length_leBytes, hstart]
    have hzero : byteAt writer'.toArray (writer.length + 4 + bytes.length) = 0 := by
      have hget : writer'.toArray[writer.length + 4 + bytes.length]? = some 0 := by
        rw [← List.getElem?_drop, hdrop]
        exact List.getElem?_concat_length
      rw [byteAt, hget]
      rfl
    unfold readString
    rw [Rpc.BebopReader.readUint32, Rpc.BebopReader.require, rejectIf_of_not (by dsimp only; omega), ok_bind,
      pure_eq_ok, ok_bind]
    dsimp only
    rw [hlead, Rpc.BebopReader.require, rejectIf_of_not (by dsimp only; omega), ok_bind, hzero,
      rejectIf_of_not (by decide), ok_bind, hdrop, List.take_left' rfl, ← hbytes, decodeUtf8_utf8, ok_bind,
      pure_eq_ok, hbytes, hlength]
    simp only [head?_scalars]
  · cases h.symm.trans hcall

/-- A string is read back as it was written, up to lone surrogates, exactly if it is short or
does not start with U+FEFF. -/
theorem string_roundTrip_iff (writer : BebopWriter) (value : List UInt16) :
    (writer.fixed = false → ((∃ writer', writer.writeString value = .ok writer') ↔
      (utf8 (scalars value)).length ≤ 0xffffffff)) ∧
    (isWellFormed value = true → toWellFormed value = value) ∧
    ∀ writer', writer.writeString value = .ok writer' →
      ((∃ reader, readString ⟨writer'.toArray, writer.length⟩ = .ok (toWellFormed value, reader)) ↔
        ¬(textDecoderThreshold ≤ (utf8 (scalars value)).length ∧ value.head? = some 0xfeff)) := by
  refine ⟨fun hgrowable => ?_, toWellFormed_of_isWellFormed, fun writer' h => ?_⟩
  · rcases writer.writeString_cases value with ⟨writer', hcall, hlimit, -⟩ | ⟨hwhy, error, hcall⟩
    · exact ⟨fun _ => hlimit, fun _ => ⟨writer', hcall⟩⟩
    · refine ⟨fun ⟨writer', h⟩ => ?_, fun hlimit => ?_⟩
      · cases hcall.symm.trans h
      · rcases hwhy with hfixed | hlong
        · rw [hgrowable] at hfixed
          cases hfixed
        · exact absurd hlimit (Nat.not_le.mpr hlong)
  · rw [readString_writeString h, ← flatMap_units_scalars]
    by_cases hbom : textDecoderThreshold ≤ (utf8 (scalars value)).length ∧ value.head? = some 0xfeff
    · rw [if_pos hbom]
      refine ⟨fun ⟨reader, hread⟩ => ?_, fun hnot => absurd hbom hnot⟩
      -- what is read is one code unit short
      obtain ⟨rest, hrest⟩ := List.head?_eq_some_iff.mp ((head?_scalars value).mpr hbom.2)
      have hsame := (Prod.mk.inj (Except.ok.inj hread)).1
      rw [hrest, List.tail_cons, List.flatMap_cons] at hsame
      have hlength := congrArg List.length hsame
      rw [List.length_append] at hlength
      have hone : (units '\uFEFF').length = 1 := rfl
      omega
    · rw [if_neg hbom]
      exact ⟨fun _ => hbom, fun _ => ⟨_, rfl⟩⟩

def BebopWriter.small : BebopWriter := ⟨List.replicate 16 0, false, 0, Nat.zero_le _, fun _ => by decide⟩

/-- U+FEFF and a pair of surrogates, short enough. -/
theorem string_roundTrip_short :
    ∃ writer', BebopWriter.small.writeString [0xfeff, 0xd83d, 0xde00] = .ok writer' ∧
      ∃ reader, readString ⟨writer'.toArray, 0⟩ = .ok ([0xfeff, 0xd83d, 0xde00], reader) := by
  obtain ⟨hwrites, hwell, hread⟩ := string_roundTrip_iff BebopWriter.small [0xfeff, 0xd83d, 0xde00]
  obtain ⟨writer', hcall⟩ := (hwrites rfl).mpr (by decide)
  refine ⟨writer', hcall, ?_⟩
  have hback := (hread writer' hcall).mpr (by decide)
  rw [hwell (by decide)] at hback
  exact hback

/-- U+FEFF and 297 letters, 300 bytes: the first is lost. -/
theorem string_roundTrip_bom :
    ∃ writer', BebopWriter.small.writeString (0xfeff :: List.replicate 297 0x61) = .ok writer' ∧
      isWellFormed (0xfeff :: List.replicate 297 0x61) = true ∧
      (∃ reader, readString ⟨writer'.toArray, 0⟩ = .ok (List.replicate 297 0x61, reader)) ∧
      ¬∃ reader, readString ⟨writer'.toArray, 0⟩ = .ok (0xfeff :: List.replicate 297 0x61, reader) := by
  have hscalars : scalars (0xfeff :: List.replicate 297 0x61) = '\uFEFF' :: List.replicate 297 'a' := by
    rw [scalars_cons (by decide), scalars_replicate (by decide)]
    rfl
  have hlength : (utf8 (scalars (0xfeff :: List.replicate 297 0x61))).length = 300 := by
    rw [hscalars, length_utf8_cons, length_utf8_replicate]
    rfl
  have hwell : isWellFormed (0xfeff :: List.replicate 297 0x61) = true := by
    rw [isWellFormed_cons (by decide) (by decide)]
    exact isWellFormed_replicate (by decide) (by decide) 297
  rcases BebopWriter.small.writeString_cases (0xfeff :: List.replicate 297 0x61) with
    ⟨writer', hcall, -, -⟩ | ⟨hwhy, -⟩
  · have hread := readString_writeString hcall
    have hback : (List.replicate 297 'a').flatMap units = List.replicate 297 0x61 := by
      rw [List.flatMap_replicate]
      exact List.flatten_replicate_singleton
    rw [if_pos ⟨by rw [hlength]; decide, rfl⟩, hscalars, List.tail_cons, hback] at hread
    refine ⟨writer', hcall, hwell, ⟨_, hread⟩, fun ⟨reader, hsame⟩ => ?_⟩
    -- the two have different lengths
    have hvalue := (Prod.mk.inj (Except.ok.inj (hread.symm.trans hsame))).1
    have hlengths := congrArg List.length hvalue
    rw [List.length_cons, List.length_replicate] at hlengths
    omega
  · rw [hlength] at hwhy
    rcases hwhy with hfixed | hlong
    · cases hfixed
    · exact absurd hlong (by decide)

end Bebop.TypeScript
