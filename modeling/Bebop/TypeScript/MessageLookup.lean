import Bebop.TypeScript.MessageDecode

/-!
# Bebop — the TypeScript accessors look fields up

`fieldRank`, `fieldRange` and `BebopMessageView.field` on an index that
`parseMessageIndex` returned: the rank of a tag (`fieldRank_eq`), and the range
of its value (`field_eq`).
-/

namespace Bebop.TypeScript

open Checked Bytes Bits JavaScript Message

/-! ## Masks -/

theorem bit_eq {i : Nat} (hi : i < 32) : shru (shl 1 i) 0 = ((2 ^ i : Nat) : Int) := by
  rw [shru_zero, toUint32_one_shl hi, Nat.one_shiftLeft]

theorem popcount32_below {m i : Nat} (hm : m < 2 ^ 32) (hi : i < 32) :
    popcount32 (land m (((2 ^ i : Nat) : Int) - 1)) = (popcount i m : Nat) := by
  have hpos : 0 < 2 ^ i := Nat.two_pow_pos i
  have hle : 2 ^ i ≤ 2 ^ 31 := Nat.pow_le_pow_right (by decide) (by omega)
  have hbelow : ((2 ^ i : Nat) : Int) - 1 = ((2 ^ i - 1 : Nat) : Int) := by omega
  have hand : m &&& (2 ^ i - 1) < 2 ^ 32 := Nat.lt_of_le_of_lt Nat.and_le_left hm
  rw [hbelow, land_mask hm (by omega), popcount32_eq hand, popcount_and_two_pow_sub_one (by omega)]

variable {bs : List UInt8} {d : Decoded}

/-! ## By tag -/

theorem tinyRank_eq (hp : d.tags.Pairwise (· < ·))
    (htags : ∀ (r : Nat) (hr : r < d.tags.length), d.tags[r] = byteAt bs (d.directory + r))
    (hroom : d.directory + d.tags.length ≤ bs.length) (tag : Nat) :
    tinyRank tag (indexOf d) bs d.tags.length 0 = .ok ((d.rank? tag).map fun r : Nat => (r : Int)) := by
  refine tagSearch_eq tag (fun n r => tinyRank tag (indexOf d) bs n r) (fun r => (r : Int)) hp
    (fun _ => rfl) ?_
  intro n r hr
  have hread : element bs ((d.directory : Int) + r) = .ok ((d.tags[r] : Nat) : Int) := by
    rw [htags r hr]
    exact element_of_lt (i := d.directory + r) (by omega)
  change (do
    let candidate ← element bs ((d.directory : Int) + r)
    if candidate = tag then return some (r : Int)
    else if candidate > tag then return none
    else tinyRank tag (indexOf d) bs n ((r : Int) + 1) : Attempt (Option Int)) = _
  rw [hread, ok_bind]
  simp only [Int.natCast_inj, gt_iff_lt, Int.ofNat_lt]
  rfl

theorem maskRank_eq {w : Nat} (hw : w = 1 ∨ w = 2 ∨ w = 4)
    (htags : maskTags bs d.directory w = some d.tags) (hroom : d.directory + w ≤ bs.length)
    {tag : Nat} (htag : 1 ≤ tag) :
    (if (tag : Int) > (w : Int) * 8 then return none
      else do
        let mask ← loadLittleEndian bs d.directory w
        let bit := shru (shl 1 ((tag : Int) - 1)) 0
        if land mask bit = 0 then return none
        else return some (popcount32 (land mask (bit - 1))) :
      Attempt (Option Int)) = .ok ((d.rank? tag).map fun r : Nat => (r : Int)) := by
  obtain ⟨i, rfl⟩ := Nat.exists_eq_add_of_le' htag
  rw [rank?_mask htags]
  by_cases hbig : ((i + 1 : Nat) : Int) > (w : Int) * 8
  · rw [if_pos hbig, if_neg (by omega)]
    rfl
  have hi : i < 32 := by omega
  have hmask : leAt bs d.directory w < 2 ^ 32 := by
    refine Nat.lt_of_lt_of_le (leAt_lt bs d.directory w) ?_
    rcases hw with rfl | rfl | rfl <;> decide
  rw [if_neg hbig, loadLittleEndian_eq hw hroom, ok_bind,
    show ((i + 1 : Nat) : Int) - 1 = (i : Int) by omega]
  dsimp only
  rw [bit_eq hi, popcount32_below hmask hi]
  by_cases hbit : (leAt bs d.directory w).testBit i = true
  · rw [if_neg (by rw [land_two_pow hmask hi, hbit]; decide), if_pos ⟨by omega, hbit⟩]
    rfl
  · rw [if_pos (by rw [land_two_pow hmask hi]; simpa using hbit), if_neg fun h => hbit h.2]
    rfl

theorem tag_fields {B i : Nat} (hB : B < 8) (hi : i < 32) :
    shru (((i + (32 * B + 1) : Nat) : Int) - 1) 5 = (B : Int) ∧
      land (((i + (32 * B + 1) : Nat) : Int) - 1) 31 = (i : Int) := by
  have hpred : ((i + (32 * B + 1) : Nat) : Int) - 1 = ((i + 32 * B : Nat) : Int) := by omega
  have hshift : (i + 32 * B) >>> 5 = B := by
    rw [Nat.shiftRight_eq_div_pow]
    omega
  have hand : (i + 32 * B) &&& 31 = i := by
    rw [Nat.and_two_pow_sub_one_eq_mod _ 5]
    omega
  rw [hpred]
  constructor
  · rw [← congrArg (fun n : Nat => (n : Int)) hshift]
    exact shru_natCast (by omega) (by decide)
  · rw [← congrArg (fun n : Nat => (n : Int)) hand]
    exact land_mask (by omega) (by decide)

theorem blockRank_eq (hlen : 5 ≤ bs.length)
    (htags : blockTags bs (byteAt bs (bs.length - 2)) 8 0 d.directory 0 = some d.tags)
    (hroom : d.directory + 5 * popcount 8 (byteAt bs (bs.length - 2)) ≤ bs.length)
    {tag : Nat} (htag : 1 ≤ tag ∧ tag ≤ 255) :
    (do
      let block := shru ((tag : Int) - 1) 5
      let blockBit := shl 1 block
      let topMask ← element bs ((bs.length : Int) - 2)
      if land topMask blockBit = 0 then return none
      else
        let preceding := popcount32 (land topMask (blockBit - 1))
        let entry := (d.directory : Int) + 5 * preceding
        let mask ← loadLittleEndian bs (entry + 1) 4
        let bit := shru (shl 1 (land ((tag : Int) - 1) 31)) 0
        if land mask bit = 0 then return none
        else return some ((← element bs entry) + popcount32 (land mask (bit - 1))) :
      Attempt (Option Int)) = .ok ((d.rank? tag).map fun r : Nat => (r : Int)) := by
  obtain ⟨B, i, hB, hi, rfl⟩ := tag_block_bit htag
  obtain ⟨hblock, hbitIndex⟩ := tag_fields hB hi
  have htop := byteAt_lt bs (bs.length - 2)
  have hblockBit : shl 1 (B : Int) = ((2 ^ B : Nat) : Int) := by
    rw [← Nat.one_shiftLeft]
    refine shl_natCast (n := 1) (by omega) ?_
    rw [Nat.one_shiftLeft]
    exact Nat.pow_lt_pow_right (by decide) (by omega)
  rw [rank?_blocks htags hB hi]
  dsimp only
  rw [hblock, hbitIndex, element_blockMask hlen, ok_bind, hblockBit, bit_eq hi,
    popcount32_below (by omega) (by omega)]
  by_cases hpresent : (byteAt bs (bs.length - 2)).testBit B = true
  swap
  · rw [if_pos (by rw [land_two_pow (by omega) (by omega)]; simpa using hpresent),
      if_neg fun h => hpresent h.1]
    rfl
  have hinside := blockEntry_room hB hpresent hroom
  have hmask : leAt bs (d.directory + 5 * popcount B (byteAt bs (bs.length - 2)) + 1) 4 < 2 ^ 32 :=
    leAt_lt bs _ 4
  have hload : loadLittleEndian bs
      ((d.directory : Int) + 5 * (popcount B (byteAt bs (bs.length - 2)) : Nat) + 1) 4 =
      .ok (leAt bs (d.directory + 5 * popcount B (byteAt bs (bs.length - 2)) + 1) 4 : Int) := by
    rw [← loadLittleEndian_eq (w := 4) (by decide) (by omega)]
    congr 1
  have hrank : element bs ((d.directory : Int) + 5 * (popcount B (byteAt bs (bs.length - 2)) : Nat)) =
      .ok (byteAt bs (d.directory + 5 * popcount B (byteAt bs (bs.length - 2))) : Int) := by
    rw [← element_of_lt (by omega)]
    congr 1
  rw [if_neg (by rw [land_two_pow (by omega) (by omega), hpresent]; decide), hload, ok_bind,
    popcount32_below hmask hi]
  by_cases hbit : (leAt bs (d.directory + 5 * popcount B (byteAt bs (bs.length - 2)) + 1) 4).testBit i
      = true
  · rw [if_neg (by rw [land_two_pow hmask hi, hbit]; decide), hrank, ok_bind, if_pos ⟨hpresent, hbit⟩]
    rfl
  · rw [if_pos (by rw [land_two_pow hmask hi]; simpa using hbit), if_neg fun h => hbit h.2]
    rfl

theorem fieldRank_eq (h : d.Sound bs) {tag : Nat} (htag : 1 ≤ tag ∧ tag ≤ 255) :
    fieldRank tag (indexOf d) bs = .ok ((d.rank? tag).map fun r : Nat => (r : Int)) := by
  have htags := h.tags
  have hl := h.layout
  have hlen := h.header.1
  unfold fieldRank
  by_cases hnil : d.tags = []
  · have hnot : tag ∉ d.tags := by simp [hnil]
    have hcount : (indexOf d).fieldCount = 0 := by
      rw [indexOf, hnil]
      rfl
    rw [if_pos (.inr (.inr hcount)), Decoded.rank?, if_neg hnot]
    rfl
  have hpos := List.length_pos_iff.mpr hnil
  have hsome : ¬((tag : Int) < 1 ∨ (tag : Int) > 255 ∨ (indexOf d).fieldCount = 0) := by
    simp only [indexOf]
    omega
  rw [if_neg hsome]
  cases hkind : d.kind with
  | empty =>
    rw [hkind] at htags
    exact absurd (Option.some.inj htags).symm hnil
  | tiny1 | tiny2 | tiny3 =>
    have hcode : (indexOf d).directoryKind = d.kind.code := rfl
    rw [hkind] at htags hcode
    have hsize : d.size bs = d.tags.length := by
      rw [tinyTags_length htags, Decoded.size, hkind]
      rfl
    rw [hcode]
    exact tinyRank_eq h.pairwise (fun r hr => tinyTags_getElem htags hr) (by omega) tag
  | mask8 | mask16 | mask32 =>
    have hcode : (indexOf d).directoryKind = d.kind.code := rfl
    rw [hkind] at htags hcode
    have hsize : d.size bs = directorySize d.kind 0 := by rw [Decoded.size, hkind]; rfl
    rw [hkind] at hsize
    rw [hcode]
    exact maskRank_eq (by decide) htags (by simp only [directorySize] at hsize; omega) htag.1
  | blocks =>
    have hcode : (indexOf d).directoryKind = d.kind.code := rfl
    rw [hkind] at htags hcode
    have hsize : d.size bs = 1 + 5 * popcount 8 (byteAt bs (bs.length - 2)) := by
      rw [Decoded.size, hkind]
      rfl
    simp only [directoryTags] at htags
    split at htags
    · cases htags
    · rw [hcode]
      exact blockRank_eq hlen htags (by omega) htag

/-! ## The range of a value -/

theorem fieldRange_eq (h : d.Sound bs) {r : Nat} (hr : r < d.tags.length) :
    fieldRange r (indexOf d) bs =
      .ok (((4 + d.fieldStart bs r : Nat) : Int), ((4 + d.fieldEnd bs r : Nat) : Int)) := by
  have hl := h.layout
  have hstart : (if (r : Int) = 0 then return 0
      else loadLittleEndian bs ((d.boundaries : Int) + ((r : Int) - 1) * d.width) d.width :
      Attempt Int) = .ok ((d.fieldStart bs r : Nat) : Int) := by
    unfold Decoded.fieldStart
    by_cases hzero : r = 0
    · rw [if_pos (by omega), if_pos hzero]
      rfl
    · rw [if_neg (by omega), if_neg hzero, show (r : Int) - 1 = ((r - 1 : Nat) : Int) by omega]
      exact load_boundary h (by omega)
  have hend : (if (r : Int) + 1 = (d.tags.length : Int) then return (d.boundaries : Int) - 4
      else loadLittleEndian bs ((d.boundaries : Int) + (r : Int) * d.width) d.width :
      Attempt Int) = .ok ((d.fieldEnd bs r : Nat) : Int) := by
    unfold Decoded.fieldEnd
    by_cases hlast : r + 1 = d.tags.length
    · rw [if_pos (by omega), if_pos hlast, Decoded.payloadSize]
      rw [show (d.boundaries : Int) - 4 = ((d.boundaries - 4 : Nat) : Int) by omega]
      rfl
    · rw [if_neg (by omega), if_neg hlast]
      exact load_boundary h (by omega)
  change (do
    let start ← (if (r : Int) = 0 then return 0
      else loadLittleEndian bs ((d.boundaries : Int) + ((r : Int) - 1) * d.width) d.width)
    let stop ← (if (r : Int) + 1 = (d.tags.length : Int) then return (d.boundaries : Int) - 4
      else loadLittleEndian bs ((d.boundaries : Int) + (r : Int) * d.width) d.width)
    return (4 + start, 4 + stop) : Attempt (Int × Int)) = _
  rw [hstart, ok_bind, hend, ok_bind]
  rfl

theorem field_eq (h : d.Sound bs) (hb : d.BoundariesOk bs) {tag : Nat}
    (htag : 1 ≤ tag ∧ tag ≤ 255) :
    field tag (indexOf d) bs =
      .ok ((d.lookup bs tag).map fun range : Nat × Nat => ((range.1 : Int), (range.2 : Int))) := by
  have hl := h.layout
  unfold field
  rw [fieldRank_eq h htag, ok_bind, Decoded.lookup]
  cases hrank : d.rank? tag with
  | none => rfl
  | some r =>
    have hr := d.rank?_lt h.pairwise hrank
    obtain ⟨hle, hpay⟩ := hb r hr
    unfold Decoded.payloadSize at hpay
    simp only [Option.map_some]
    rw [fieldRange_eq h hr, ok_bind]
    dsimp only
    rw [subarray_of_le (by omega) (by omega) (by omega)]
    rfl

end Bebop.TypeScript
