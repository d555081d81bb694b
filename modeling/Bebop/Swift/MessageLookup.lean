import Bebop.Swift.MessageDecode

/-!
# Bebop — the Swift accessors look fields up

`messageFieldRank`, `messageFieldRange` and `BebopMessageView.field` on an
index that `parseMessageIndex` returned: the rank of a tag
(`messageFieldRank_eq`), and the range of its value (`field_eq`). No shift,
subtraction or range of theirs traps.
-/

namespace Bebop.Swift

open Checked Bytes Bits Message

theorem minus_of_le {a b : Nat} (h : b ≤ a) : minus a b = .ok (a - b) := if_pos h

theorem shiftLeft_mod {i w : Nat} (hi : i < w) : (1 <<< i) % 2 ^ w = 2 ^ i := by
  rw [Nat.one_shiftLeft, Nat.mod_eq_of_lt (Nat.pow_lt_pow_right (by decide) hi)]

theorem and_two_pow {m i : Nat} : m &&& 2 ^ i ≠ 0 ↔ m.testBit i = true := by
  rw [← Nat.one_shiftLeft, Ne, and_one_shiftLeft_eq_zero, Bool.not_eq_false]

theorem minus_two_pow (i : Nat) : minus (2 ^ i) 1 = .ok (2 ^ i - 1) :=
  minus_of_le (Nat.two_pow_pos i)

variable {bs : List UInt8} {d : Decoded}

/-! ## By tag -/

theorem tinyRank_eq (hp : d.tags.Pairwise (· < ·))
    (htags : ∀ (r : Nat) (hr : r < d.tags.length), d.tags[r] = byteAt bs (d.directory + r))
    (hroom : d.directory + d.tags.length ≤ bs.length) (tag : Nat) :
    tinyRank tag (indexOf bs d) bs d.tags.length 0 =
      .ok ((d.rank? tag).map fun r : Nat => (r : Int)) := by
  refine tagSearch_eq tag (fun n r => tinyRank tag (indexOf bs d) bs n r) (fun r => (r : Int)) hp
    (fun _ => rfl) ?_
  intro n r hr
  have hread : (readAt bs ((d.directory : Int) + r) : Attempt Nat) = .ok d.tags[r] := by
    rw [htags r hr]
    exact readAt_natCast (i := d.directory + r) (by omega)
  change (do
    let candidate ← readAt bs ((d.directory : Int) + r)
    if candidate = tag then return some (r : Int)
    else if candidate > tag then return none
    else tinyRank tag (indexOf bs d) bs n ((r : Int) + 1) : Attempt (Option Int)) = _
  rw [hread, ok_bind]
  rfl

theorem maskRank_eq {w : Nat} (hw : w = 1 ∨ w = 2 ∨ w = 4)
    (htags : maskTags bs d.directory w = some d.tags) (hroom : d.directory + w ≤ bs.length)
    {tag : Nat} (htag : 1 ≤ tag) :
    (if ¬tag ≤ w * 8 then return none
      else do
        let mask ← loadLittleEndian bs d.directory w
        let bit := (1 <<< (← minus tag 1)) % 2 ^ 32
        if ¬mask &&& bit ≠ 0 then return none
        else return some (popcount 32 (mask &&& (← minus bit 1)) : Nat) :
      Attempt (Option Int)) = .ok ((d.rank? tag).map fun r : Nat => (r : Int)) := by
  obtain ⟨i, rfl⟩ := Nat.exists_eq_add_of_le' htag
  rw [rank?_mask htags]
  by_cases hbig : ¬i + 1 ≤ w * 8
  · rw [if_pos hbig, if_neg (by omega)]
    rfl
  have hi : i < 32 := by omega
  rw [if_neg hbig, loadLittleEndian_eq hw hroom, ok_bind, minus_of_le htag, ok_bind,
    Nat.add_sub_cancel]
  dsimp only
  rw [shiftLeft_mod hi, minus_two_pow, ok_bind, popcount_and_two_pow_sub_one (by omega)]
  by_cases hbit : (leAt bs d.directory w).testBit i = true
  · rw [if_neg (not_not.mpr (and_two_pow.mpr hbit)), if_pos ⟨by omega, hbit⟩]
    rfl
  · rw [if_pos (mt and_two_pow.mp hbit), if_neg fun h => hbit h.2]
    rfl

theorem blockRank_eq (hlen : 5 ≤ bs.length)
    (htags : blockTags bs (byteAt bs (bs.length - 2)) 8 0 d.directory 0 = some d.tags)
    (hroom : d.directory + 5 * popcount 8 (byteAt bs (bs.length - 2)) ≤ bs.length)
    {tag : Nat} (htag : 1 ≤ tag ∧ tag ≤ 255) :
    (do
      let block := (← minus tag 1) >>> 5
      let blockBit := (1 <<< block) % 2 ^ 8
      let topMask ← readAt bs ((bs.length : Int) - 2)
      if ¬topMask &&& blockBit ≠ 0 then return none
      else
        let preceding := popcount 8 (topMask &&& (← minus blockBit 1))
        let entry := (d.directory : Int) + 5 * (preceding : Nat)
        let mask ← loadLittleEndian bs (entry + 1) 4
        let bit := (1 <<< ((← minus tag 1) &&& 31)) % 2 ^ 32
        if ¬mask &&& bit ≠ 0 then return none
        else
          let stored : Nat ← readAt bs entry
          return some (stored + (popcount 32 (mask &&& (← minus bit 1)) : Nat)) :
      Attempt (Option Int)) = .ok ((d.rank? tag).map fun r : Nat => (r : Int)) := by
  obtain ⟨B, i, hB, hi, rfl⟩ := tag_block_bit htag
  have hpred : minus (i + (32 * B + 1)) 1 = .ok (i + 32 * B) := minus_of_le htag.1
  have hblock : (i + 32 * B) >>> 5 = B := by
    rw [Nat.shiftRight_eq_div_pow]
    omega
  have hbitIndex : (i + 32 * B) &&& 31 = i := by
    rw [Nat.and_two_pow_sub_one_eq_mod _ 5]
    omega
  rw [rank?_blocks htags hB hi, hpred, ok_bind]
  dsimp only
  rw [hblock, shiftLeft_mod hB, readAt_blockMask hlen, ok_bind]
  by_cases hpresent : (byteAt bs (bs.length - 2)).testBit B = true
  swap
  · rw [if_pos (mt and_two_pow.mp hpresent), if_neg fun h => hpresent h.1]
    rfl
  have hinside := blockEntry_room hB hpresent hroom
  have hload : loadLittleEndian bs
      ((d.directory : Int) + 5 * (popcount B (byteAt bs (bs.length - 2)) : Nat) + 1) 4 =
      .ok (leAt bs (d.directory + 5 * popcount B (byteAt bs (bs.length - 2)) + 1) 4) := by
    rw [← loadLittleEndian_eq (w := 4) (by decide) (by omega)]
    congr 1
  have hrank : (readAt bs ((d.directory : Int) + 5 * (popcount B (byteAt bs (bs.length - 2)) : Nat)) :
      Attempt Nat) = .ok (byteAt bs (d.directory + 5 * popcount B (byteAt bs (bs.length - 2)))) := by
    rw [← readAt_natCast (by omega)]
    congr 1
  rw [if_neg (not_not.mpr (and_two_pow.mpr hpresent)), minus_two_pow, ok_bind,
    popcount_and_two_pow_sub_one (by omega), hload, ok_bind, ok_bind, hbitIndex, shiftLeft_mod hi,
    minus_two_pow]
  by_cases hbit : (leAt bs (d.directory + 5 * popcount B (byteAt bs (bs.length - 2)) + 1) 4).testBit i
      = true
  · rw [if_neg (not_not.mpr (and_two_pow.mpr hbit)), hrank, ok_bind, ok_bind,
      popcount_and_two_pow_sub_one (by omega), if_pos ⟨hpresent, hbit⟩]
    rfl
  · rw [if_pos (mt and_two_pow.mp hbit), if_neg fun h => hbit h.2]
    rfl

theorem messageFieldRank_eq (h : d.Sound bs) {tag : Nat} (htag : 1 ≤ tag ∧ tag ≤ 255) :
    messageFieldRank tag (indexOf bs d) bs = .ok ((d.rank? tag).map fun r : Nat => (r : Int)) := by
  have htags := h.tags
  have hl := h.layout
  have hlen := h.header.1
  have hcode : (indexOf bs d).directoryKind = d.kind.code := rfl
  have hkind : DirectoryKind.ofCode (indexOf bs d).directoryKind = some d.kind :=
    DirectoryKind.ofCode_code d.kind
  unfold messageFieldRank
  by_cases hnil : d.tags = []
  · have hnot : tag ∉ d.tags := by simp [hnil]
    have hcount : ¬(tag ≠ 0 ∧ (indexOf bs d).fieldCount ≠ 0) := by
      rw [indexOf, hnil]
      exact fun hall => hall.2 rfl
    rw [if_pos hcount, Decoded.rank?, if_neg hnot]
    rfl
  have hpos := List.length_pos_iff.mpr hnil
  have hsome : ¬¬(tag ≠ 0 ∧ (indexOf bs d).fieldCount ≠ 0) := by
    simp only [indexOf]
    omega
  rw [if_neg hsome, hkind]
  cases hdk : d.kind with
  | empty =>
    rw [hdk] at htags
    exact absurd (Option.some.inj htags).symm hnil
  | tiny1 | tiny2 | tiny3 =>
    rw [hdk] at htags
    have hsize : d.size bs = d.tags.length := by
      rw [tinyTags_length htags, Decoded.size, hdk]
      rfl
    have hrange : rangeCount 0 (indexOf bs d).fieldCount = .ok d.tags.length :=
      rangeCount_natCast 0 rfl (Nat.zero_le _)
    dsimp only
    rw [hrange, ok_bind]
    exact tinyRank_eq h.pairwise (fun r hr => tinyTags_getElem htags hr) (by omega) tag
  | mask8 | mask16 | mask32 =>
    rw [hdk] at htags hcode
    have hsize : d.size bs = directorySize d.kind 0 := by rw [Decoded.size, hdk]; rfl
    rw [hdk] at hsize
    rw [hcode]
    exact maskRank_eq (by decide) htags (by simp only [directorySize] at hsize; omega) htag.1
  | blocks =>
    rw [hdk] at htags
    have hsize : d.size bs = 1 + 5 * popcount 8 (byteAt bs (bs.length - 2)) := by
      rw [Decoded.size, hdk]
      rfl
    simp only [directoryTags] at htags
    split at htags
    · cases htags
    · exact blockRank_eq hlen htags (by omega) htag

/-! ## The range of a value -/

theorem messageFieldRange_eq (h : d.Sound bs) {r : Nat} (hr : r < d.tags.length)
    (hok : d.FieldOk bs r) :
    messageFieldRange r (indexOf bs d) bs =
      .ok (((4 + d.fieldStart bs r : Nat) : Int), ((4 + d.fieldEnd bs r : Nat) : Int)) := by
  have hl := h.layout
  have hle := hok.1
  have hstart : (if (r : Int) = 0 then return 0
      else loadLittleEndian bs ((d.boundaries : Int) + ((r : Int) - 1) * d.width) d.width :
      Attempt Nat) = .ok (d.fieldStart bs r) := by
    unfold Decoded.fieldStart
    by_cases hzero : r = 0
    · rw [if_pos (by omega), if_pos hzero]
      rfl
    · rw [if_neg (by omega), if_neg hzero, show (r : Int) - 1 = ((r - 1 : Nat) : Int) by omega]
      exact load_boundary h (by omega)
  have hend : (if (r : Int) + 1 = (d.tags.length : Int) then return (d.boundaries : Int) - 4
      else do
        let boundary : Nat ← loadLittleEndian bs ((d.boundaries : Int) + (r : Int) * d.width) d.width
        return boundary : Attempt Int) = .ok ((d.fieldEnd bs r : Nat) : Int) := by
    unfold Decoded.fieldEnd
    by_cases hlast : r + 1 = d.tags.length
    · rw [if_pos (by omega), if_pos hlast, Decoded.payloadSize]
      rw [show (d.boundaries : Int) - 4 = ((d.boundaries - 4 : Nat) : Int) by omega]
      rfl
    · rw [if_neg (by omega), if_neg hlast, load_boundary h (by omega), ok_bind]
      rfl
  have hrange : rangeCount (4 + ((d.fieldStart bs r : Nat) : Int)) (4 + ((d.fieldEnd bs r : Nat) : Int)) =
      .ok (4 + d.fieldEnd bs r - (4 + d.fieldStart bs r)) :=
    rangeCount_natCast (4 + d.fieldStart bs r) (Int.natCast_add 4 _) (by omega)
  change (do
    let start : Nat ← (if (r : Int) = 0 then return 0
      else loadLittleEndian bs ((d.boundaries : Int) + ((r : Int) - 1) * d.width) d.width)
    let stop : Int ← (if (r : Int) + 1 = (d.tags.length : Int) then return (d.boundaries : Int) - 4
      else do
        let boundary : Nat ← loadLittleEndian bs ((d.boundaries : Int) + (r : Int) * d.width) d.width
        return boundary)
    let _ ← rangeCount (4 + (start : Int)) (4 + stop)
    return (4 + (start : Int), 4 + stop) : Attempt (Int × Int)) = _
  rw [hstart, ok_bind, hend, ok_bind, hrange, ok_bind]
  rfl

theorem field_eq (h : d.Sound bs) (hb : d.BoundariesOk bs) {tag : Nat}
    (htag : 1 ≤ tag ∧ tag ≤ 255) :
    field tag (indexOf bs d) bs =
      .ok ((d.lookup bs tag).map fun range : Nat × Nat => ((range.1 : Int), (range.2 : Int))) := by
  have hl := h.layout
  unfold field
  rw [messageFieldRank_eq h htag, ok_bind, Decoded.lookup]
  cases hrank : d.rank? tag with
  | none => rfl
  | some r =>
    have hr := d.rank?_lt h.pairwise hrank
    have hpay := (hb r hr).2
    unfold Decoded.payloadSize at hpay
    simp only [Option.map_some]
    rw [messageFieldRange_eq h hr (hb r hr), ok_bind, slice, if_pos (by dsimp only; omega)]
    rfl

end Bebop.Swift
