import Bebop.C.MessageIteration

/-!
# Bebop — the size of an indexed message

`bebop_indexed_message_size` is what the writer then takes, and no directory that describes
the same tags is shorter than the one the writer chooses. A payload without tags has a size
but is never written (`indexedMessageSize_predicts_iff`).
-/

namespace Bebop.C

open Checked Bytes Bits Message

/-- `bebop_indexed_message_size` -/
def indexedMessageSize (payloadSize : Nat) (sortedTags : List Nat) : Nat :=
  if messageTagsValid sortedTags = false ∨ payloadSize > uint32Max then sizeMax
  else
    let metadataSize := metadataSize payloadSize sortedTags
    if payloadSize > uint32Max - metadataSize ∨ payloadSize > sizeMax - wireSizeLen - metadataSize then sizeMax
    else wireSizeLen + payloadSize + metadataSize

/-- An offset for each tag: the first at zero, ascending, and inside the payload. -/
structure OffsetsOk (tags offsets : List Nat) (payloadSize : Nat) : Prop where
  length : offsets.length = tags.length
  first : ∀ o ∈ offsets[0]?, o = 0
  ascend : offsets.Pairwise (· ≤ ·)
  inside : ∀ o ∈ offsets, o ≤ payloadSize

/-- What a message takes that was ended, and `SIZE_MAX` exactly if ending fails. -/
def Predicts (payloadSize : Nat) (tags : List Nat) : Prop :=
  ∀ (alloc : Nat → Bool) (writer : Writer) (lengthPosition : Nat) (offsets : List Nat),
    writer.bytes.length ≤ sizeMax → writer.bytes.length = lengthPosition + 4 + payloadSize →
    OffsetsOk tags offsets payloadSize →
      (∀ finished, writerEndIndexedMessage alloc writer lengthPosition (lengthPosition + 4) (tags.zip offsets) =
          .ok finished →
        finished.bytes.length - lengthPosition = indexedMessageSize payloadSize tags) ∧
      ∀ reserved, writerReserve alloc writer (metadataSize payloadSize tags) = .ok reserved →
        (indexedMessageSize payloadSize tags = sizeMax ↔
          ∃ e, writerEndIndexedMessage alloc writer lengthPosition (lengthPosition + 4) (tags.zip offsets) = .error e)

/-- No index that is accepted with the same tags has a shorter directory. -/
def Minimal (tags : List Nat) : Prop :=
  ∀ encoded index, messageIndexParse encoded = .ok index →
    (∀ tag ≤ 255, tag ∈ tags ↔ messageIndexField index tag ≠ .ok none) →
    (messageDirectoryLayout tags).size ≤ encoded.length - 1 - index.directory

/-! ## Layouts -/

theorem size_maskLayout_le (maxTag : Nat) (layout : DirectoryLayout) :
    (maskLayout maxTag layout).size ≤ layout.size := by
  unfold maskLayout
  split_ifs with h8 h16 h32
  · exact h8.2
  · exact h16.2
  · exact h32.2
  · exact Nat.le_refl _

theorem size_maskLayout_le_mask {maxTag w : Nat} (hw : w = 1 ∨ w = 2 ∨ w = 4) (hmax : maxTag ≤ 8 * w)
    (layout : DirectoryLayout) : (maskLayout maxTag layout).size ≤ w := by
  unfold maskLayout
  split_ifs with h8 h16 h32
  · show 1 ≤ w
    omega
  · show 2 ≤ w
    omega
  · show 4 ≤ w
    omega
  · omega

theorem size_tinyLayout_le (count : Nat) (layout : DirectoryLayout) : (tinyLayout count layout).size ≤ layout.size := by
  unfold tinyLayout
  split_ifs with htiny
  · exact Nat.le_of_lt htiny.2
  · exact Nat.le_refl _

theorem size_tinyLayout_le_count {count : Nat} (hcount : count ≤ 3) (layout : DirectoryLayout) :
    (tinyLayout count layout).size ≤ count := by
  unfold tinyLayout
  split_ifs with htiny
  · exact Nat.le_refl _
  · omega

/-- The layout of the blocks, which the others only replace by smaller ones. -/
def blocksLayout (tags : List Nat) : DirectoryLayout := ⟨.blocks, 1 + 5 * popcount 32 (blockMask tags), blockMask tags⟩

theorem messageDirectoryLayout_last {tags : List Nat} {maxTag : Nat} (h : tags.getLast? = some maxTag) :
    messageDirectoryLayout tags = tinyLayout tags.length (maskLayout maxTag (blocksLayout tags)) := by
  unfold messageDirectoryLayout
  rw [h]
  simp only [layoutMask_eq]
  rfl

theorem size_messageDirectoryLayout_le (tags : List Nat) :
    (messageDirectoryLayout tags).size ≤ 1 + 5 * popcount 32 (blockMask tags) := by
  cases hlast : tags.getLast? with
  | none =>
    unfold messageDirectoryLayout
    rw [hlast]
    exact Nat.zero_le _
  | some maxTag =>
    rw [messageDirectoryLayout_last hlast]
    exact Nat.le_trans (size_tinyLayout_le _ _) (size_maskLayout_le _ _)

theorem metadataSize_le {tags : List Nat} (h : tags.length ≤ 255) (payloadSize : Nat) :
    metadataSize payloadSize tags ≤ 2000 := by
  have hlayout := size_messageDirectoryLayout_le tags
  have hcount := popcount_le 32 (blockMask tags)
  have hwidth : boundaryWidth payloadSize ≤ 4 := by
    unfold boundaryWidth
    split_ifs <;> decide
  have hbound : (if tags.length = 0 then 0 else tags.length - 1) * boundaryWidth payloadSize ≤ 254 * 4 :=
    Nat.mul_le_mul (by split <;> omega) hwidth
  unfold metadataSize
  dsimp only
  omega

/-! ## Minimality -/

theorem popcount_blockMask_le {bs : List UInt8} {d : Decoded} (h : d.Sound bs) (hkind : d.kind = .blocks) :
    popcount 8 (blockMask d.tags) ≤ popcount 8 (byteAt bs (bs.length - 2)) := by
  obtain ⟨-, htags, -⟩ := blocks_tags h hkind
  refine (List.monotone_filter_right (List.range 8) fun B hB => ?_).length_le
  rw [testBit_blockMask, decide_eq_true_iff] at hB
  obtain ⟨t, ht⟩ := List.exists_mem_of_ne_nil _ hB
  obtain ⟨hmem, hblock⟩ := List.mem_filter.mp ht
  obtain ⟨B', i, hB', hi, rfl⟩ := tag_block_bit (h.range t hmem)
  have heq : B' = B := by
    have := of_decide_eq_true hblock
    omega
  rw [← heq]
  exact ((mem_blockTags rfl htags (Nat.zero_le B') hB' hi).mp hmem).1

theorem size_layout_le_size {bs : List UInt8} {d : Decoded} (h : d.Sound bs) :
    (messageDirectoryLayout d.tags).size ≤ d.size bs := by
  cases hlast : d.tags.getLast? with
  | none =>
    unfold messageDirectoryLayout
    rw [hlast]
    exact Nat.zero_le _
  | some maxTag =>
    rw [messageDirectoryLayout_last hlast]
    have htags := h.tags
    have hmem : maxTag ∈ d.tags := List.mem_of_getLast? hlast
    unfold Decoded.size
    cases hkind : d.kind with
    | empty =>
      rw [hkind] at htags
      rw [← Option.some.inj htags] at hmem
      cases hmem
    | tiny1 | tiny2 | tiny3 =>
      rw [hkind] at htags
      have hlength := tinyTags_length htags
      refine Nat.le_trans (size_tinyLayout_le_count (by omega) _) ?_
      rw [hlength]
      exact Nat.le_refl _
    | mask8 | mask16 | mask32 =>
      rw [hkind] at htags
      have hrange := maskTags_range htags maxTag hmem
      refine Nat.le_trans (size_tinyLayout_le _ _) (size_maskLayout_le_mask (by simp [directorySize]) ?_ _)
      simp only [directorySize]
      omega
    | blocks =>
      refine Nat.le_trans (size_tinyLayout_le _ _) (Nat.le_trans (size_maskLayout_le _ _) ?_)
      show 1 + 5 * popcount 32 (blockMask d.tags) ≤ 1 + 5 * popcount 8 (byteAt bs (bs.length - 2))
      have hle := popcount_blockMask_le h hkind
      rw [popcount_of_lt (by decide) (blockMask_lt ⟨h.pairwise, h.range⟩)]
      omega

theorem minimal {tags : List Nat} (hascend : tags.Pairwise (· < ·)) (hrange : ∀ t ∈ tags, t ≤ 255) : Minimal tags := by
  intro encoded index hparse hsame
  have hbegin := (messageIndex_lazy encoded).2.1 index hparse
  rw [messageIndexParse_eq] at hparse
  obtain ⟨d, hd, rfl⟩ := orRaise_map_eq_ok hparse
  obtain ⟨hsound, -⟩ := decode_eq_some.mp hd
  have htags : tags = d.tags := by
    refine eq_of_pairwise_lt hascend hsound.pairwise fun tag => ?_
    by_cases htag : tag ≤ 255
    · rw [hsame tag htag]
      exact (mem_iff_messageIndexField hsound htag).symm
    · exact iff_of_false (fun hmem => htag (hrange tag hmem)) fun hmem => htag (hsound.range tag hmem).2
  have hlayout := hsound.layout
  rw [htags, indexOf_directory, show encoded.length - 1 - d.directory = d.size encoded by omega]
  exact size_layout_le_size hsound

/-! ## Prediction -/

section Ending

variable {alloc : Nat → Bool} {writer finished : Writer} {lengthPosition payloadSize : Nat} {tags offsets : List Nat}

theorem writerEndIndexedMessage_ok (hlength : writer.bytes.length = lengthPosition + 4 + payloadSize)
    (hoffsets : offsets.length = tags.length)
    (h : writerEndIndexedMessage alloc writer lengthPosition (lengthPosition + 4) (tags.zip offsets) = .ok finished) :
    messageTagsValid tags = true ∧ payloadSize ≤ uint32Max ∧ (tags = [] → payloadSize = 0) ∧
      ¬payloadSize > uint32Max - metadataSize payloadSize tags ∧
      ∃ reserved, writerReserve alloc writer (metadataSize payloadSize tags) = .ok reserved := by
  have hfst : (tags.zip offsets).map Prod.fst = tags := List.map_fst_zip (Nat.le_of_eq hoffsets.symm)
  have hzip : (tags.zip offsets).length = tags.length := by rw [List.length_zip, hoffsets, Nat.min_self]
  have hpay : writer.bytes.length - (lengthPosition + 4) = payloadSize := by omega
  unfold writerEndIndexedMessage at h
  simp only [hfst, hzip, writerLength, hpay] at h
  obtain ⟨_, htags, h⟩ := bind_ok h
  obtain ⟨_, -, h⟩ := bind_ok h
  obtain ⟨_, hlong, h⟩ := bind_ok h
  obtain ⟨_, hempty, h⟩ := bind_ok h
  obtain ⟨_, -, h⟩ := bind_ok h
  obtain ⟨_, -, h⟩ := bind_ok h
  obtain ⟨_, hroom, h⟩ := bind_ok h
  obtain ⟨reserved, hreserve, -⟩ := bind_ok h
  refine ⟨by simpa using rejectIf_ok htags, Nat.not_lt.mp (rejectIf_ok hlong), fun hnil => ?_, rejectIf_ok hroom,
    reserved, hreserve⟩
  by_contra hne
  exact rejectIf_ok hempty ⟨by rw [hnil]; rfl, hne⟩

theorem metadataSize_le_of_valid (h : messageTagsValid tags = true) (hrange : ∀ t ∈ tags, t ≤ 255) (payloadSize : Nat) :
    TagsOk tags ∧ metadataSize payloadSize tags ≤ 2000 := by
  obtain ⟨hpos, hascend⟩ := List.pairwise_cons.mp (messageTagsValid_iff.mp h)
  have hok : TagsOk tags := ⟨hascend, fun t ht => ⟨hpos t ht, hrange t ht⟩⟩
  exact ⟨hok, metadataSize_le hok.length_le payloadSize⟩

theorem indexedMessageSize_cases (payloadSize : Nat) {tags : List Nat} (hrange : ∀ t ∈ tags, t ≤ 255) :
    if messageTagsValid tags = true ∧ payloadSize + metadataSize payloadSize tags ≤ uint32Max then
      indexedMessageSize payloadSize tags = 4 + payloadSize + metadataSize payloadSize tags ∧
        4 + payloadSize + metadataSize payloadSize tags < sizeMax
    else indexedMessageSize payloadSize tags = sizeMax := by
  unfold indexedMessageSize
  split
  · rename_i hboth
    obtain ⟨hvalid, hfits⟩ := hboth
    unfold uint32Max at hfits
    dsimp only
    rw [if_neg (by rw [hvalid]; unfold uint32Max; simp; omega), if_neg (by unfold uint32Max sizeMax wireSizeLen; omega)]
    exact ⟨rfl, by unfold sizeMax; omega⟩
  · rename_i hnot
    by_cases hfirst : messageTagsValid tags = false ∨ payloadSize > uint32Max
    · exact if_pos hfirst
    · rw [if_neg hfirst]
      obtain ⟨hvalid, hshort⟩ := not_or.mp hfirst
      rw [Bool.not_eq_false] at hvalid
      have hmetadata := (metadataSize_le_of_valid hvalid hrange payloadSize).2
      refine if_pos (.inl ?_)
      have hlong : ¬payloadSize + metadataSize payloadSize tags ≤ uint32Max := fun hfits => hnot ⟨hvalid, hfits⟩
      unfold uint32Max at hshort hlong ⊢
      omega

theorem sliced_of (hoffsets : OffsetsOk tags offsets payloadSize) (htags : TagsOk tags)
    (hempty : tags = [] → payloadSize = 0) : Sliced tags offsets payloadSize :=
  ⟨htags, hoffsets.length, hoffsets.first, hoffsets.ascend, hoffsets.inside, hempty⟩

theorem writerEndIndexedMessage_size {reserved : Writer} (hfits : writer.bytes.length ≤ sizeMax)
    (hlength : writer.bytes.length = lengthPosition + 4 + payloadSize) (hsliced : Sliced tags offsets payloadSize)
    (hsize : payloadSize + metadataSize payloadSize tags ≤ uint32Max)
    (hreserve : writerReserve alloc writer (metadataSize payloadSize tags) = .ok reserved) :
    ∃ finished, writerEndIndexedMessage alloc writer lengthPosition (lengthPosition + 4) (tags.zip offsets) = .ok finished ∧
      finished.bytes.length - lengthPosition = 4 + payloadSize + metadataSize payloadSize tags := by
  let before := writer.bytes.take lengthPosition
  let slot := (writer.bytes.drop lengthPosition).take 4
  let payload := (writer.bytes.drop lengthPosition).drop 4
  have hbytes : writer.bytes = before ++ (slot ++ payload) := by
    rw [List.take_append_drop, List.take_append_drop]
  have hbefore : before.length = lengthPosition := by
    rw [List.length_take]
    omega
  have hslot : slot.length = 4 := by
    rw [List.length_take, List.length_drop]
    omega
  have hpayload : payload.length = payloadSize := by
    rw [List.length_drop, List.length_drop]
    omega
  rw [← hpayload] at hsliced hsize hreserve
  obtain ⟨finished, hend, hfinished⟩ := writerEndIndexedMessage_reserved hbytes hslot hsliced hsize hfits hreserve
  rw [hbefore] at hend
  refine ⟨finished, hend, ?_⟩
  have hbody := (encodable_of_sliced hsliced hsize).2
  rw [hfinished, List.length_append, hbefore, encode, List.length_append, length_leBytes, hbody, ← hpayload]
  omega

end Ending

theorem predicts {payloadSize : Nat} {tags : List Nat} (hrange : ∀ t ∈ tags, t ≤ 255)
    (hempty : tags = [] → payloadSize = 0 ∨ payloadSize ≥ uint32Max) : Predicts payloadSize tags := by
  intro alloc writer lengthPosition offsets hfits hlength hoffsets
  have hcases := indexedMessageSize_cases payloadSize hrange
  refine ⟨fun finished hend => ?_, fun reserved hreserve => ?_⟩
  · obtain ⟨hvalid, hshort, hnil, hroom, reserved, hreserve⟩ := writerEndIndexedMessage_ok hlength hoffsets.length hend
    obtain ⟨htags, hmetadata⟩ := metadataSize_le_of_valid hvalid hrange payloadSize
    have hsum : payloadSize + metadataSize payloadSize tags ≤ uint32Max := by
      unfold uint32Max at hroom ⊢
      omega
    obtain ⟨finished', hend', hlength'⟩ :=
      writerEndIndexedMessage_size hfits hlength (sliced_of hoffsets htags hnil) hsum hreserve
    obtain rfl := Except.ok.inj (hend.symm.trans hend')
    rw [if_pos ⟨hvalid, hsum⟩] at hcases
    rw [hlength', hcases.1]
  · by_cases hgood : messageTagsValid tags = true ∧ payloadSize + metadataSize payloadSize tags ≤ uint32Max
    · rw [if_pos hgood] at hcases
      obtain ⟨htags, -⟩ := metadataSize_le_of_valid hgood.1 hrange payloadSize
      have hnil : tags = [] → payloadSize = 0 := by
        intro hnil
        have hpos : 1 ≤ metadataSize payloadSize tags := by
          unfold metadataSize
          dsimp only
          omega
        have hsum := hgood.2
        rcases hempty hnil with hzero | hlong
        · exact hzero
        · omega
      obtain ⟨finished, hend, -⟩ :=
        writerEndIndexedMessage_size hfits hlength (sliced_of hoffsets htags hnil) hgood.2 hreserve
      refine iff_of_false (by omega) ?_
      rintro ⟨e, he⟩
      rw [hend] at he
      cases he
    · rw [if_neg hgood] at hcases
      refine iff_of_true hcases ?_
      cases hend : writerEndIndexedMessage alloc writer lengthPosition (lengthPosition + 4) (tags.zip offsets) with
      | error e => exact ⟨e, rfl⟩
      | ok finished =>
        obtain ⟨hvalid, hshort, -, hroom, -⟩ := writerEndIndexedMessage_ok hlength hoffsets.length hend
        obtain ⟨-, hmetadata⟩ := metadataSize_le_of_valid hvalid hrange payloadSize
        refine absurd ⟨hvalid, ?_⟩ hgood
        unfold uint32Max at hroom hshort ⊢
        omega

theorem not_predicts {payloadSize : Nat} (hpos : payloadSize ≠ 0) (hshort : payloadSize < uint32Max) :
    ¬Predicts payloadSize [] := by
  intro hpredicts
  let writer : Writer := ⟨List.replicate (4 + payloadSize) 0, 5 + payloadSize, by rw [List.length_replicate]; omega⟩
  have hlength : writer.bytes.length = 0 + 4 + payloadSize := by
    show (List.replicate (4 + payloadSize) (0 : UInt8)).length = _
    rw [List.length_replicate, Nat.zero_add]
  have hfits : writer.bytes.length ≤ sizeMax := by
    unfold uint32Max at hshort
    unfold sizeMax
    omega
  have hreserve : writerReserve (fun _ => true) writer (metadataSize payloadSize []) = .ok writer := by
    unfold writerReserve
    refine if_pos ?_
    rw [hlength]
    show 1 + 0 + 0 * _ ≤ 5 + payloadSize - _
    omega
  have hiff := (hpredicts (fun _ => true) writer 0 [] hfits hlength ⟨rfl, nofun, .nil, nofun⟩).2 writer hreserve
  have hcases := indexedMessageSize_cases payloadSize (show ∀ t ∈ [], t ≤ 255 from nofun)
  have hone : metadataSize payloadSize [] = 1 := by
    show 1 + 0 + 0 * _ = 1
    omega
  rw [if_pos ⟨rfl, by omega⟩] at hcases
  have hnot : indexedMessageSize payloadSize [] ≠ sizeMax := by omega
  refine hnot (hiff.mpr ?_)
  cases hend : writerEndIndexedMessage (fun _ => true) writer 0 (0 + 4) (([] : List Nat).zip []) with
  | error e => exact ⟨e, rfl⟩
  | ok finished => exact absurd ((writerEndIndexedMessage_ok hlength rfl hend).2.2.1 rfl) hpos

/-! ## Result -/

/-- There are tags, or no payload, or so much that no message holds it. -/
theorem indexedMessageSize_predicts_iff (payloadSize : Nat) (tags : List Nat) (hascend : tags.Pairwise (· < ·))
    (hrange : ∀ t ∈ tags, t ≤ 255) :
    Predicts payloadSize tags ∧ Minimal tags ↔ (tags = [] → payloadSize = 0 ∨ payloadSize ≥ uint32Max) := by
  constructor
  · rintro ⟨hpredicts, -⟩ rfl
    by_contra hnot
    obtain ⟨hpos, hshort⟩ := not_or.mp hnot
    exact not_predicts hpos (Nat.not_le.mp hshort) hpredicts
  · exact fun hempty => ⟨predicts hrange hempty, minimal hascend hrange⟩

/-- The tags 1 and 40, with three bytes of payload. -/
theorem indexedMessageSize_predicts_blocks : Predicts 3 [1, 40] ∧ Minimal [1, 40] :=
  (indexedMessageSize_predicts_iff 3 [1, 40] (by decide) (by decide)).mpr nofun

/-- One byte of payload and no tags: the size is 6, and the writer refuses. -/
theorem indexedMessageSize_untagged :
    indexedMessageSize 1 [] = 6 ∧
      writerEndIndexedMessage (fun _ => true) ⟨[0, 0, 0, 0, 0xAA], 16, by decide⟩ 0 4 [] = .error invalid ∧
      ¬Predicts 1 [] :=
  ⟨rfl, rfl, not_predicts (by decide) (by decide)⟩

end Bebop.C
