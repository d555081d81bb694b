import Bebop.C.MessageDecode

/-!
# Bebop — the C accessors look fields up

A slice by rank (`messageFieldAtRank_eq`) and the rank of a tag (`messageFieldRank_eq`), of
an index either reader produced: of one that was lazily read a slice may be refused, and
none of the outcomes is a fault.
-/

namespace Bebop.C

open Checked Bytes Bits Message

variable {bs : List UInt8} {d : Decoded}

/-! ## By rank -/

/-- The view of the slice of rank `r`. -/
def viewAt (bs : List UInt8) (d : Decoded) (r : Nat) : View :=
  ⟨4 + d.fieldStart bs r, d.fieldEnd bs r - d.fieldStart bs r⟩

/-- What an accessor answers for the slice of rank `r`. -/
def sliceAt (bs : List UInt8) (d : Decoded) (r : Nat) : Outcome View :=
  if d.FieldOk bs r then .ok (viewAt bs d r) else .error malformed

theorem payloadSize_lt (h : d.Sound bs) : d.payloadSize < 2 ^ 32 := by
  have hlen : leAt bs 0 4 < 2 ^ 32 := leAt_lt bs 0 4
  have hbody := h.header.2.1
  have hl := h.layout
  unfold Decoded.payloadSize
  omega

theorem messageFieldAtRank_eq (h : d.Sound bs) (r : Nat) :
    messageFieldAtRank (indexOf bs d) r =
      if r < d.tags.length then sliceAt bs d r else .error invalid := by
  have hl := h.layout
  have hsize := wireSizeLen_eq
  unfold messageFieldAtRank
  by_cases hr : r < d.tags.length
  swap
  · rw [rejectIf_of (show r ≥ (indexOf bs d).fieldCount by exact Nat.not_lt.mp hr), if_neg hr]
    rfl
  rw [rejectIf_of_not (show ¬r ≥ (indexOf bs d).fieldCount by exact Nat.not_le.mpr hr), ok_bind,
    if_pos hr]
  have hstart : (if r = 0 then pure 0
      else wireLoadLe bs (d.boundaries + (r - 1) * d.width) d.width : Outcome Nat) =
      .ok (d.fieldStart bs r) := by
    unfold Decoded.fieldStart
    by_cases hzero : r = 0
    · rw [if_pos hzero, if_pos hzero]
      rfl
    · have := h.boundary_room (show r - 1 + 1 < d.tags.length by omega)
      rw [if_neg hzero, if_neg hzero, wireLoadLe_eq h.width_cases (by omega)]
      rfl
  have hend : (if r + 1 = d.tags.length then pure (d.payloadSize % 2 ^ 32)
      else wireLoadLe bs (d.boundaries + r * d.width) d.width : Outcome Nat) =
      .ok (d.fieldEnd bs r) := by
    unfold Decoded.fieldEnd
    by_cases hlast : r + 1 = d.tags.length
    · rw [if_pos hlast, if_pos hlast, Nat.mod_eq_of_lt (payloadSize_lt h)]
      rfl
    · have := h.boundary_room (show r + 1 < d.tags.length by omega)
      rw [if_neg hlast, if_neg hlast, wireLoadLe_eq h.width_cases (by omega)]
      rfl
  have hpay : back d.boundaries wireSizeLen = (.ok d.payloadSize : Outcome Nat) :=
    back_of_le (by omega)
  change (do
    let start ← (if r = 0 then pure 0
      else wireLoadLe bs (d.boundaries + (r - 1) * d.width) d.width)
    let payloadSize ← back d.boundaries wireSizeLen
    let stop ← (if r + 1 = d.tags.length then pure (payloadSize % 2 ^ 32)
      else wireLoadLe bs (d.boundaries + r * d.width) d.width)
    rejectIf malformed (stop < start ∨ stop > payloadSize)
    return ⟨wireSizeLen + start, stop - start⟩ : Outcome View) = _
  rw [hstart, ok_bind, hpay, ok_bind, hend, ok_bind]
  unfold sliceAt
  by_cases hok : d.FieldOk bs r
  · obtain ⟨hle, hpay⟩ := hok
    rw [rejectIf_of_not (by omega), if_pos ⟨hle, hpay⟩]
    rfl
  · rw [rejectIf_of (by unfold Decoded.FieldOk at hok; omega), if_neg hok]
    rfl

/-! ## By tag -/

theorem tinyRank_eq (hp : d.tags.Pairwise (· < ·))
    (htags : ∀ (r : Nat) (hr : r < d.tags.length), d.tags[r] = byteAt bs (d.directory + r))
    (hroom : d.directory + d.tags.length ≤ bs.length) (tag : Nat) :
    tinyRank (indexOf bs d) tag d.tags.length 0 = .ok (d.rank? tag) := by
  have hstep : ∀ n r (hr : r < d.tags.length), tinyRank (indexOf bs d) tag (n + 1) r =
      if d.tags[r] = tag then .ok (some r)
      else if d.tags[r] > tag then .ok none
      else tinyRank (indexOf bs d) tag n (r + 1) := by
    intro n r hr
    have hread : read bs (d.directory + r) = (.ok (d.tags[r]) : Outcome Nat) := by
      rw [htags r hr]
      exact read_of_lt (by omega)
    rw [tinyRank, indexOf_encoded, indexOf_directory, hread]
    rfl
  have hsearch := tagSearch_eq tag (tinyRank (indexOf bs d) tag) id hp (fun _ => rfl) hstep
  rw [hsearch, Option.map_id]
  rfl

theorem maskRank_eq {w : Nat} (hw : w = 1 ∨ w = 2 ∨ w = 4)
    (htags : maskTags bs d.directory w = some d.tags) (hroom : d.directory + w ≤ bs.length)
    {tag : Nat} (htag : 1 ≤ tag) :
    (if tag > w * 8 then return none
      else do
        let mask ← wireLoadLe bs d.directory w
        if mask &&& (1 <<< (tag - 1)) = 0 then return none
        else return some (wirePopcount32 (mask &&& ((1 <<< (tag - 1)) - 1))) :
      Outcome (Option Nat)) = .ok (d.rank? tag) := by
  obtain ⟨i, rfl⟩ := Nat.exists_eq_add_of_le' htag
  rw [Nat.add_sub_cancel, rank?_mask htags]
  by_cases hbig : i + 1 > w * 8
  · rw [if_pos hbig, if_neg (by omega)]
    rfl
  rw [if_neg hbig, wireLoadLe_eq hw hroom, ok_bind]
  by_cases hbit : (leAt bs d.directory w).testBit i = true
  · rw [if_neg (by rw [and_one_shiftLeft_eq_zero, hbit]; decide), if_pos ⟨by omega, hbit⟩,
      wirePopcount32, Nat.one_shiftLeft, popcount_and_two_pow_sub_one (by omega)]
    rfl
  · rw [if_pos (by rw [and_one_shiftLeft_eq_zero]; simpa using hbit), if_neg fun h => hbit h.2]
    rfl

theorem blockRank_eq (hlen : 5 ≤ bs.length)
    (htags : blockTags bs (byteAt bs (bs.length - 2)) 8 0 d.directory 0 = some d.tags)
    (hroom : d.directory + 5 * popcount 8 (byteAt bs (bs.length - 2)) ≤ bs.length)
    {tag : Nat} (htag : 1 ≤ tag ∧ tag ≤ 255) (hkind : d.kind = .blocks) :
    messageFieldRank (indexOf bs d) tag = .ok (d.rank? tag) := by
  obtain ⟨B, i, hB, hi, rfl⟩ := tag_block_bit htag
  have hblock : (i + (32 * B + 1) - 1) >>> 5 = B := by
    rw [Nat.shiftRight_eq_div_pow]
    omega
  have hbitIndex : (i + (32 * B + 1) - 1) &&& 31 = i := by
    rw [Nat.and_two_pow_sub_one_eq_mod _ 5]
    omega
  unfold messageFieldRank
  simp only [indexOf, hkind, hblock, hbitIndex, back_of_le (show 2 ≤ bs.length by omega),
    read_of_lt (show bs.length - 2 < bs.length by omega), ok_bind]
  rw [rank?_blocks htags hB hi]
  by_cases hpresent : (byteAt bs (bs.length - 2)).testBit B = true
  swap
  · rw [if_pos (by rw [and_one_shiftLeft_eq_zero]; simpa using hpresent),
      if_neg fun h => hpresent h.1]
    rfl
  have hpreceding : wirePopcount32 (byteAt bs (bs.length - 2) &&& (1 <<< B - 1)) =
      popcount B (byteAt bs (bs.length - 2)) := by
    rw [wirePopcount32, Nat.one_shiftLeft, popcount_and_two_pow_sub_one (by omega)]
  have hinside := blockEntry_room hB hpresent hroom
  rw [if_neg (by rw [and_one_shiftLeft_eq_zero, hpresent]; decide), hpreceding,
    wireLoadLe_four (by omega), ok_bind]
  by_cases hbit : (leAt bs (d.directory + 5 * popcount B (byteAt bs (bs.length - 2)) + 1) 4).testBit i
      = true
  · rw [if_neg (by rw [and_one_shiftLeft_eq_zero, hbit]; decide), read_of_lt (by omega), ok_bind,
      if_pos ⟨hpresent, hbit⟩, wirePopcount32, Nat.one_shiftLeft,
      popcount_and_two_pow_sub_one (by omega)]
    rfl
  · rw [if_pos (by rw [and_one_shiftLeft_eq_zero]; simpa using hbit), if_neg fun h => hbit h.2]
    rfl

theorem messageFieldRank_eq (h : d.Sound bs) (hne : d.tags ≠ []) {tag : Nat}
    (htag : 1 ≤ tag ∧ tag ≤ 255) :
    messageFieldRank (indexOf bs d) tag = .ok (d.rank? tag) := by
  have htags := h.tags
  have hl := h.layout
  have hlen := h.header.1
  cases hkind : d.kind with
  | empty =>
    rw [hkind] at htags
    exact absurd (Option.some.inj htags).symm hne
  | tiny1 | tiny2 | tiny3 =>
    rw [hkind] at htags
    have hsize : d.size bs = d.tags.length := by
      rw [tinyTags_length htags, Decoded.size, hkind]
      rfl
    have hscan := tinyRank_eq h.pairwise (fun r hr => tinyTags_getElem htags hr) (by omega) tag
    unfold messageFieldRank
    simpa only [indexOf, hkind] using hscan
  | mask8 | mask16 | mask32 =>
    rw [hkind] at htags
    have hsize : d.size bs = directorySize d.kind 0 := by rw [Decoded.size, hkind]; rfl
    rw [hkind] at hsize
    have hmask := maskRank_eq (by decide) htags (by simp only [directorySize] at hsize; omega) htag.1
    unfold messageFieldRank
    simp only [indexOf, hkind]
    exact hmask
  | blocks =>
    rw [hkind] at htags
    have hsize : d.size bs = 1 + 5 * popcount 8 (byteAt bs (bs.length - 2)) := by
      rw [Decoded.size, hkind]
      rfl
    simp only [directoryTags] at htags
    split at htags
    · cases htags
    · exact blockRank_eq hlen htags (by omega) htag hkind

theorem messageIndexField_eq (h : d.Sound bs) {tag : Nat} (htag : tag ≤ 255) :
    messageIndexField (indexOf bs d) tag =
      match d.rank? tag with
      | none => .ok none
      | some r => some <$> sliceAt bs d r := by
  unfold messageIndexField
  by_cases hnone : tag = 0 ∨ (indexOf bs d).fieldCount = 0
  · have hnot : tag ∉ d.tags := by
      intro hmem
      have hrange := h.range tag hmem
      have hpos := List.length_pos_of_mem hmem
      rcases hnone with hzero | hzero
      · omega
      · exact absurd hzero (Nat.ne_of_gt hpos)
    rw [if_pos hnone, Decoded.rank?, if_neg hnot]
    rfl
  · have hne : d.tags ≠ [] := fun hnil => hnone (Or.inr (by rw [indexOf, hnil]; rfl))
    rw [if_neg hnone, messageFieldRank_eq h hne ⟨by omega, htag⟩, ok_bind]
    cases hrank : d.rank? tag with
    | none => rfl
    | some r =>
      have hr := d.rank?_lt h.pairwise hrank
      have hlen := h.length_le
      dsimp only
      rw [Nat.mod_eq_of_lt (by omega), messageFieldAtRank_eq h, if_pos hr]
      rfl

end Bebop.C
