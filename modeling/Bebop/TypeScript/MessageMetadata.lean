import Bebop.C.MessageEncode
import Bebop.TypeScript.MessageLookup
import Bebop.TypeScript.MessageStores

/-!
# Bebop — the metadata of a TypeScript message

What `endMessage` writes behind a payload. The masks it collects with the 32-bit operators
are those of the format, the layout is the one the C writer chooses, and each loop performs
the stores of its part of the metadata.
-/

namespace Bebop.TypeScript

open Checked Bytes Bits JavaScript Message

/-! ## Masks -/

theorem toUint32_foldl_lor {tags : List Nat} {f : Nat → Int} {g : Nat → Nat}
    (h : ∀ t ∈ tags, toUint32 (f t) = 1 <<< g t) (mask : Int) :
    toUint32 (tags.foldl (fun mask (t : Nat) => lor mask (f t)) mask) =
      (tags.map g).foldl (fun m i => m ||| (1 <<< i)) (toUint32 mask) := by
  induction tags generalizing mask with
  | nil => rfl
  | cons t rest ih =>
    rw [List.foldl_cons, ih fun t ht => h t (List.mem_cons_of_mem _ ht), toUint32_lor,
      h t (List.mem_cons_self ..)]
    rfl

theorem toUint32_tagMask {tags : List Nat} (h : ∀ t ∈ tags, 1 ≤ t ∧ t ≤ 32) :
    toUint32 (tagMask tags) = mask (tags.map (· - 1)) := by
  refine toUint32_foldl_lor (g := (· - 1)) (fun t ht => ?_) 0
  have hrange := h t ht
  rw [show (t : Int) - 1 = ((t - 1 : Nat) : Int) by omega]
  exact toUint32_one_shl (by omega)

theorem tag_block {t : Nat} (h : 1 ≤ t ∧ t ≤ 255) :
    shru ((t : Int) - 1) 5 = (((t - 1) / 32 : Nat) : Int) ∧
      land ((t : Int) - 1) 31 = ((t - (32 * ((t - 1) / 32) + 1) : Nat) : Int) := by
  obtain ⟨hblock, hbit⟩ := tag_fields (B := (t - 1) / 32) (i := t - (32 * ((t - 1) / 32) + 1))
    (by omega) (by omega)
  rw [show t - (32 * ((t - 1) / 32) + 1) + (32 * ((t - 1) / 32) + 1) = t by omega] at hblock hbit
  exact ⟨hblock, hbit⟩

theorem toUint32_blockTagMask {tags : List Nat} (h : TagsOk tags) (b : Nat) :
    toUint32 (blockTagMask b tags) = mask ((inBlock b tags).map (· - (32 * b + 1))) := by
  have hfilter : blockTagMask b tags = (inBlock b tags).foldl
      (fun mask (t : Nat) => lor mask (shl 1 (land ((t : Int) - 1) 31))) 0 := by
    rw [inBlock, List.foldl_filter, blockTagMask]
    refine List.foldl_ext _ _ _ fun mask t ht => ?_
    rw [(tag_block (h.range t ht)).1]
    simp only [Int.natCast_inj, decide_eq_true_iff]
  rw [hfilter]
  refine toUint32_foldl_lor (fun t ht => ?_) 0
  obtain ⟨htags, hlow, hhigh⟩ := (mem_inBlock h).mp ht
  have hb : (t - 1) / 32 = b := by omega
  rw [(tag_block (h.range t htags)).2, hb]
  exact toUint32_one_shl (by omega)

theorem tagBlockMask_eq {tags : List Nat} (h : TagsOk tags) :
    tagBlockMask tags = (blockMask tags : Int) := by
  have hfold : ∀ (l : List Nat) (m : Nat), (∀ t ∈ l, 1 ≤ t ∧ t ≤ 255) → m < 2 ^ 8 →
      l.foldl (fun blockMask (t : Nat) => lor blockMask (shl 1 (shru ((t : Int) - 1) 5))) (m : Int) =
        (((l.map fun t => (t - 1) / 32).foldl (fun m i => m ||| (1 <<< i)) m : Nat) : Int) := by
    intro l
    induction l with
    | nil => exact fun _ _ _ => rfl
    | cons t rest ih =>
      intro m hrange hm
      have ht := hrange t (List.mem_cons_self ..)
      have hbit : 1 <<< ((t - 1) / 32) < 2 ^ 8 := by
        rw [Nat.one_shiftLeft]
        exact Nat.pow_lt_pow_right (by decide) (by omega)
      have hor : m ||| 1 <<< ((t - 1) / 32) < 2 ^ 8 := Nat.or_lt_two_pow hm hbit
      have hstep : lor (m : Int) (shl 1 (shru ((t : Int) - 1) 5)) =
          ((m ||| 1 <<< ((t - 1) / 32) : Nat) : Int) := by
        have hshl : shl 1 (((t - 1) / 32 : Nat) : Int) = ((1 <<< ((t - 1) / 32) : Nat) : Int) :=
          shl_natCast (n := 1) (by omega) (by omega)
        rw [(tag_block ht).1, hshl, lor_natCast (by omega) (by omega) (by omega)]
      rw [List.foldl_cons, hstep, ih _ (fun t ht => hrange t (List.mem_cons_of_mem _ ht)) hor]
      rfl
  exact hfold tags 0 h.range (by decide)

theorem popcount32_toUint32 (x : Int) : popcount32 x = (popcount 32 (toUint32 x) : Nat) := by
  have hsame : popcount32 x = popcount32 (toUint32 x) := by
    unfold popcount32
    rw [shru_zero, shru_zero, toUint32_natCast (toUint32_lt x)]
  rw [hsame, popcount32_eq (toUint32_lt x)]

/-! ## Layout -/

/-- A layout of the C writer, in the numbers of the language. -/
def layoutOf (layout : C.DirectoryLayout) : MessageDirectoryLayout :=
  ⟨layout.kind.code, layout.size, layout.blockMask⟩

theorem maskDirectory_layoutOf (maxTag : Nat) (layout : C.DirectoryLayout) :
    maskDirectory maxTag (layoutOf layout) = layoutOf (C.maskLayout maxTag layout) := by
  have h8 : ((maxTag : Int) ≤ 8 ∧ (layoutOf layout).size ≥ 1) ↔ (maxTag ≤ 8 ∧ 1 ≤ layout.size) := by
    simp only [layoutOf]
    omega
  have h16 : ((maxTag : Int) ≤ 16 ∧ (layoutOf layout).size ≥ 2) ↔
      (maxTag ≤ 16 ∧ 2 ≤ layout.size) := by
    simp only [layoutOf]
    omega
  have h32 : ((maxTag : Int) ≤ 32 ∧ (layoutOf layout).size ≥ 4) ↔
      (maxTag ≤ 32 ∧ 4 ≤ layout.size) := by
    simp only [layoutOf]
    omega
  unfold maskDirectory C.maskLayout
  simp only [h8, h16, h32]
  split_ifs <;> rfl

theorem tinyDirectory_layoutOf {count : Nat} (hpos : 0 < count) (layout : C.DirectoryLayout) :
    tinyDirectory count (layoutOf layout) = layoutOf (C.tinyLayout count layout) := by
  have hiff : ((count : Int) ≤ 3 ∧ (count : Int) < (layoutOf layout).size) ↔
      (count ≤ 3 ∧ count < layout.size) := by
    simp only [layoutOf]
    omega
  unfold tinyDirectory C.tinyLayout
  simp only [hiff]
  split_ifs with h
  · obtain rfl | rfl | rfl : count = 1 ∨ count = 2 ∨ count = 3 := by omega
    all_goals rfl
  · rfl

theorem messageDirectoryLayout_eq {tags : List Nat} (h : TagsOk tags) :
    messageDirectoryLayout tags.length (tags.getLast?.getD 0 : Nat) (tagBlockMask tags) =
      layoutOf (C.messageDirectoryLayout tags) := by
  rw [tagBlockMask_eq h, messageDirectoryLayout, C.messageDirectoryLayout]
  cases hlast : tags.getLast? with
  | none =>
    obtain rfl := List.getLast?_eq_none_iff.mp hlast
    rfl
  | some maxTag =>
    have hpos : 0 < tags.length := by
      rw [List.length_pos_iff]
      rintro rfl
      cases hlast
    have hblocks : (⟨7, 1 + 5 * popcount32 (blockMask tags), blockMask tags⟩ :
        MessageDirectoryLayout) =
          layoutOf ⟨.blocks, 1 + 5 * popcount 32 (blockMask tags), blockMask tags⟩ := by
      have hmask := blockMask_lt h
      rw [popcount32_eq (by omega), layoutOf]
      congr 1
    simp only [C.layoutMask_eq, Option.getD_some]
    rw [if_neg (by omega), hblocks, maskDirectory_layoutOf, tinyDirectory_layoutOf hpos]

/-! ## Stores -/

/-- The entries of the `n` blocks from `b` on; `r` tags precede them. -/
def blockStores (tags : List Nat) : (n b r : Nat) → List Store
  | 0, _, _ => []
  | n + 1, b, r =>
    if inBlock b tags = [] then blockStores tags n (b + 1) r
    else
      .number r 1 :: .number (mask ((inBlock b tags).map (· - (32 * b + 1)))) 4 ::
        blockStores tags n (b + 1) (r + (inBlock b tags).length)

def directoryStores (kind : DirectoryKind) (tags : List Nat) : List Store :=
  match kind with
  | .empty => []
  | .tiny1 | .tiny2 | .tiny3 => tags.map (Store.number · 1)
  | .mask8 => [.number (mask (tags.map (· - 1))) 1]
  | .mask16 => [.number (mask (tags.map (· - 1))) 2]
  | .mask32 => [.number (mask (tags.map (· - 1))) 4]
  | .blocks => blockStores tags 8 0 0 ++ [.number (blockMask tags) 1]

/-- The numbers behind a payload: the boundaries, the directory and the control
byte. -/
def metadataStores (tags offsets : List Nat) (payloadSize : Nat) : List Store :=
  (offsets.drop 1).map (Store.number · (C.boundaryWidth payloadSize)) ++
    (directoryStores (C.messageDirectoryLayout tags).kind tags ++
      [.number ((C.messageDirectoryLayout tags).kind.code * 4 + C.widthCode payloadSize) 1])

namespace MessageWriter

theorem writeBoundaries_performs {width : Nat} (hwidth : width = 1 ∨ width = 2 ∨ width = 4)
    {offsets : List Nat} (hoffsets : ∀ o ∈ offsets, o < 256 ^ width) {writer : MessageWriter}
    (h : writer.fixed = false) :
    Performs writer (writeBoundaries width offsets writer) True
      (offsets.map (Store.number · width)) (offsets.flatMap (leBytes width)) [] [] := by
  induction offsets generalizing writer with
  | nil => exact performs_return h
  | cons offset rest ih =>
    refine Performs.congr (Performs.bind
      (writeOffset_performs h hwidth (hoffsets offset (List.mem_cons_self ..))) ?_)
      (and_self_iff ..)
    exact fun writer' hstored _ => ih (fun o ho => hoffsets o (List.mem_cons_of_mem _ ho))
      hstored.growing

theorem writeTags_performs {tags : List Nat} (htags : ∀ t ∈ tags, t ≤ 255) {writer : MessageWriter}
    (h : writer.fixed = false) :
    Performs writer (writeTags tags writer) True (tags.map (Store.number · 1))
      (tags.map UInt8.ofNat) [] [] := by
  induction tags generalizing writer with
  | nil => exact performs_return h
  | cons tag rest ih =>
    have htag := htags tag (List.mem_cons_self ..)
    refine Performs.congr (Performs.bind (writeByte_performs h (by omega)) ?_) (and_self_iff ..)
    exact fun writer' hstored _ => ih (fun t ht => htags t (List.mem_cons_of_mem _ ht))
      hstored.growing

theorem shru_blockTagMask {tags : List Nat} (h : TagsOk tags) (b : Nat) :
    shru (blockTagMask b tags) 0 =
      ((mask ((inBlock b tags).map (· - (32 * b + 1))) : Nat) : Int) := by
  rw [shru_zero, toUint32_blockTagMask h]

theorem popcount32_blockTagMask {tags : List Nat} (h : TagsOk tags) (b : Nat) :
    popcount32 (blockTagMask b tags) = ((inBlock b tags).length : Int) := by
  obtain ⟨-, hbits⟩ := bits_mask_sub (n := 32) (inBlock_pairwise h b) fun t ht =>
    ((mem_inBlock h).mp ht).2
  have hlength := congrArg List.length hbits
  rw [List.length_map] at hlength
  rw [popcount32_toUint32, toUint32_blockTagMask h, popcount, hlength]

theorem writeBlocks_performs {tags : List Nat} (h : TagsOk tags) {n b r : Nat} (hn : b + n = 8)
    (hr : r + (fromBlock b tags).length = tags.length) {writer : MessageWriter}
    (hgrowing : writer.fixed = false) :
    Performs writer (writeBlocks (tagBlockMask tags) tags n b r writer) True
      (blockStores tags n b r) (blockEntries tags n b r) [] [] := by
  induction n generalizing b r writer with
  | zero => exact performs_return hgrowing
  | succ n ih =>
    have hbit := testBit_blockMask tags b
    have hsplit := congrArg List.length (fromBlock_succ h b)
    rw [List.length_append] at hsplit
    have hmask := blockMask_lt h
    have hclear : land (tagBlockMask tags) (shl 1 b) = 0 ↔ inBlock b tags = [] := by
      rw [tagBlockMask_eq h, land_one_shl (by omega) (by omega), hbit]
      simp
    rw [writeBlocks, blockStores, blockEntries]
    by_cases hnil : inBlock b tags = []
    · rw [if_pos (hclear.mpr hnil), if_pos hnil, if_pos hnil]
      rw [hnil, List.length_nil] at hsplit
      exact ih (b := b + 1) (by omega) (by omega) hgrowing
    · have hlen := h.length_le
      obtain ⟨hword, -⟩ := bits_mask_sub (n := 32) (inBlock_pairwise h b) fun t ht =>
        ((mem_inBlock h).mp ht).2
      rw [if_neg fun hzero => hnil (hclear.mp hzero), if_neg hnil, if_neg hnil]
      simp only [shru_blockTagMask h, popcount32_blockTagMask h]
      have hrank : Performs writer (writer.writeByte r) True [.number r 1] [UInt8.ofNat r] [] [] :=
        writeByte_performs hgrowing (by omega)
      refine Performs.congr (Performs.bind hrank ?_) (and_self_iff ..)
      intro writer' hstored _
      refine Performs.congr (Performs.bind
        (writeUint32_performs hstored.growing (by omega)) ?_) (and_self_iff ..)
      intro writer'' hstored' _
      exact ih (b := b + 1) (r := r + (inBlock b tags).length) (by omega) (by omega) hstored'.growing

theorem writeMask_performs {tags : List Nat} (h : TagsOk tags) {width : Nat}
    (hwidth : width = 1 ∨ width = 2 ∨ width = 4) (hmax : ∀ t ∈ tags, t ≤ 8 * width) {code : Int}
    (hcode : shl 1 code = (width : Int)) {writer : MessageWriter} (hgrowing : writer.fixed = false) :
    Performs writer (writer.writeOffset (shru (tagMask tags) 0) (shl 1 code)) True
      [.number (mask (tags.map (· - 1))) width] (leBytes width (mask (tags.map (· - 1)))) [] [] := by
  have hword : mask (tags.map (· - 1)) < 256 ^ width := by
    have hlt : mask (tags.map (· - 1)) < 2 ^ (8 * width) := by
      refine mask_lt fun i hi => ?_
      obtain ⟨t, ht, rfl⟩ := List.mem_map.mp hi
      have hlow := (h.range t ht).1
      have hhigh := hmax t ht
      omega
    rwa [Nat.pow_mul] at hlt
  rw [hcode, shru_zero, toUint32_tagMask fun t ht => ⟨(h.range t ht).1, by
    have hhigh := hmax t ht
    omega⟩]
  exact writeOffset_performs hgrowing hwidth hword

theorem writeDirectory_performs {tags : List Nat} (h : TagsOk tags) {writer : MessageWriter}
    (hgrowing : writer.fixed = false) :
    Performs writer
      (writer.writeDirectory (layoutOf (C.messageDirectoryLayout tags)) (tagBlockMask tags) tags)
      True (directoryStores (C.messageDirectoryLayout tags).kind tags)
      (directoryBytes (C.messageDirectoryLayout tags).kind tags) [] [] := by
  obtain ⟨hfits, -, -⟩ := C.messageDirectoryLayout_ok h
  generalize C.messageDirectoryLayout tags = layout at hfits ⊢
  obtain ⟨kind, size, top⟩ := layout
  have htag := fun t ht => (h.range t ht).2
  unfold writeDirectory layoutOf
  dsimp only at hfits ⊢
  cases kind with
  | empty => exact performs_return hgrowing
  | tiny1 | tiny2 | tiny3 => exact writeTags_performs htag hgrowing
  | mask8 | mask16 | mask32 => exact writeMask_performs h (by decide) hfits.2 (by decide) hgrowing
  | blocks =>
    have hblocks := writeBlocks_performs h (n := 8) (b := 0) (r := 0) rfl
      (by rw [fromBlock_zero, Nat.zero_add]) hgrowing
    refine Performs.congr (Performs.bind hblocks ?_) (and_self_iff ..)
    intro writer' hstored _
    have hmask := blockMask_lt h
    rw [tagBlockMask_eq h]
    exact writeByte_performs hstored.growing (by omega)

/-! ## The end of a message -/

/-- What `endMessage` writes behind a payload. -/
def writeMetadata (writer : MessageWriter) (tags offsets : List Nat) (payloadSize : Nat) :
    Rpc.Attempt MessageWriter := do
  let directory := layoutOf (C.messageDirectoryLayout tags)
  let writer ← writeBoundaries (C.boundaryWidth payloadSize) (offsets.drop 1) writer
  let writer ← writer.writeDirectory directory (tagBlockMask tags) tags
  writer.writeByte (lor (shl directory.kind 2) (C.widthCode payloadSize))

def metadataBytes (tags offsets : List Nat) (payloadSize : Nat) : List UInt8 :=
  boundaryBytes (2 ^ C.widthCode payloadSize) offsets ++
    (directoryBytes (C.messageDirectoryLayout tags).kind tags ++
      [UInt8.ofNat ((C.messageDirectoryLayout tags).kind.code * 4 + C.widthCode payloadSize)])

theorem control_eq (kind : DirectoryKind) {width : Nat} (h : width ≤ 2) :
    lor (shl (kind.code : Int) 2) (width : Int) = ((kind.code * 4 + width : Nat) : Int) := by
  have hcode := kind.code_lt
  have hor : kind.code <<< 2 ||| width = kind.code * 4 + width := C.control_or h
  have hshift : kind.code <<< 2 = kind.code * 4 := Nat.shiftLeft_eq _ 2
  have hshl : shl (kind.code : Int) 2 = ((kind.code <<< 2 : Nat) : Int) :=
    shl_natCast (k := 2) (by decide) (by omega)
  rw [hshl, lor_natCast (by omega) (by omega) (by omega), hor]

theorem writeMetadata_performs {tags offsets : List Nat} {payloadSize : Nat}
    (h : Sliced tags offsets payloadSize) (hsize : payloadSize ≤ C.uint32Max)
    {writer : MessageWriter} (hgrowing : writer.fixed = false) :
    Performs writer (writer.writeMetadata tags offsets payloadSize) True
      (metadataStores tags offsets payloadSize) (metadataBytes tags offsets payloadSize) [] [] := by
  have hwidth : C.boundaryWidth payloadSize = 1 ∨ C.boundaryWidth payloadSize = 2 ∨
      C.boundaryWidth payloadSize = 4 := by
    unfold C.boundaryWidth
    split_ifs <;> decide
  have hoffsets : ∀ o ∈ offsets.drop 1, o < 256 ^ C.boundaryWidth payloadSize := fun o ho =>
    Nat.lt_of_le_of_lt (h.inside o (List.mem_of_mem_drop ho)) (C.lt_of_boundaryWidth hsize)
  have hcode := (C.messageDirectoryLayout tags).kind.code_lt
  have hwc := C.widthCode_le payloadSize
  unfold writeMetadata metadataStores metadataBytes boundaryBytes
  rw [← C.boundaryWidth_eq]
  refine Performs.congr (Performs.bind (writeBoundaries_performs hwidth hoffsets hgrowing) ?_)
    (and_self_iff ..)
  intro boundaries hboundaries _
  refine Performs.congr (Performs.bind
    (writeDirectory_performs h.tagsOk hboundaries.growing) ?_) (and_self_iff ..)
  intro directory hdirectory _
  have hcontrol : lor (shl (layoutOf (C.messageDirectoryLayout tags)).kind 2)
      (C.widthCode payloadSize) = _ := control_eq (C.messageDirectoryLayout tags).kind hwc
  rw [hcontrol]
  exact writeByte_performs hdirectory.growing (by omega)

theorem item_append_singleton (items : List Nat) (value : Nat) :
    item (items ++ [value]) items.length = .ok value := by
  rw [item, List.getElem?_append_right (Nat.le_refl _), Nat.sub_self]
  rfl

theorem item_last {items : List Nat} (h : items ≠ []) :
    item items (items.length - 1) = .ok (items.getLast?.getD 0) := by
  rw [item, ← List.getLast?_eq_getElem?]
  cases hlast : items.getLast? with
  | none => exact absurd (List.getLast?_eq_none_iff.mp hlast) h
  | some value => rfl

/-- The message at the top: the fields that were marked since it was begun. -/
structure Opened (writer : MessageWriter) (token tagStart payloadStart : Nat)
    (tags offsets : List Nat) : Prop where
  open_tags : ∃ older, older.length = token ∧ writer.messageTagStarts = older ++ [tagStart]
  open_payload : ∃ older, older.length = token ∧ writer.messagePayloadStarts = older ++ [payloadStart]
  tags : ∃ older, older.length = tagStart ∧ writer.messageTags = older ++ tags
  offsets : ∃ older, older.length = tagStart ∧ writer.messageOffsets = older ++ offsets

theorem Opened.requireOpenMessage {writer : MessageWriter} {token tagStart payloadStart : Nat}
    {tags offsets : List Nat} (h : Opened writer token tagStart payloadStart tags offsets) :
    writer.requireOpenMessage token = .ok () := by
  obtain ⟨older, hlength, hstarts⟩ := h.open_tags
  refine rejectIf_of_not ?_
  rw [hstarts, List.length_append, List.length_singleton, hlength]
  exact not_not.mpr rfl

theorem Opened.tagStart {writer : MessageWriter} {token tagStart payloadStart : Nat}
    {tags offsets : List Nat} (h : Opened writer token tagStart payloadStart tags offsets) :
    item writer.messageTagStarts token = .ok tagStart := by
  obtain ⟨older, rfl, hstarts⟩ := h.open_tags
  rw [hstarts]
  exact item_append_singleton older tagStart

theorem Opened.payloadStart {writer : MessageWriter} {token tagStart payloadStart : Nat}
    {tags offsets : List Nat} (h : Opened writer token tagStart payloadStart tags offsets) :
    item writer.messagePayloadStarts token = .ok payloadStart := by
  obtain ⟨older, rfl, hstarts⟩ := h.open_payload
  rw [hstarts]
  exact item_append_singleton older payloadStart

theorem endMessage_eq {writer : MessageWriter} {token tagStart payloadStart : Nat}
    {tags offsets : List Nat} (h : Opened writer token tagStart payloadStart tags offsets)
    (hsliced : Sliced tags offsets (writer.length - payloadStart)) :
    writer.endMessage token = (do
      let bodySize := writer.length - payloadStart +
        C.metadataSize (writer.length - payloadStart) tags
      rejectIf (runtimeError "message body exceeds uint32 length") (bodySize > 0xffffffff)
      let written ← writer.writeMetadata tags offsets (writer.length - payloadStart)
      return {
        toBebopWriter := written.setUint32 (payloadStart - 4) bodySize
        messageTags := written.messageTags.take tagStart
        messageOffsets := written.messageOffsets.take tagStart
        messageTagStarts := written.messageTagStarts.dropLast
        messagePayloadStarts := written.messagePayloadStarts.dropLast }) := by
  obtain ⟨olderTags, hstart, htags⟩ := h.tags
  obtain ⟨olderOffsets, hstart', hoffsets⟩ := h.offsets
  have hcount : writer.messageTags.length - tagStart = tags.length := by
    rw [htags, List.length_append, hstart, Nat.add_sub_cancel_left]
  have hdrop : writer.messageTags.drop tagStart = tags := by
    rw [htags, ← hstart, List.drop_left]
  have hboundaries : (writer.messageOffsets.drop (tagStart + 1)).take (tags.length - 1) =
      offsets.drop 1 := by
    rw [hoffsets, ← hstart', ← List.drop_drop, List.drop_left]
    exact List.take_of_length_le (by rw [List.length_drop, hsliced.length])
  -- the last tag of the array is the last tag of the message, if that has one
  have hmax : (if tags.length = 0 then pure 0
      else item writer.messageTags (writer.messageTags.length - 1) : Rpc.Attempt Nat) =
        .ok (tags.getLast?.getD 0) := by
    by_cases hnil : tags = []
    · rw [hnil]
      rfl
    · have hlast : writer.messageTags.getLast? = tags.getLast? := by
        rw [htags, List.getLast?_append_of_ne_nil _ hnil]
      rw [if_neg (by rwa [List.length_eq_zero_iff]), item_last (by rw [htags]; simp [hnil]), hlast]
  have hlayout := messageDirectoryLayout_eq hsliced.tagsOk
  have hsize : C.metadataSize (writer.length - payloadStart) tags =
      (tags.length - 1) * C.boundaryWidth (writer.length - payloadStart) +
        (C.messageDirectoryLayout tags).size + 1 := by
    have hzero : (if tags.length = 0 then 0 else tags.length - 1) = tags.length - 1 := by
      split <;> omega
    simp only [C.metadataSize, hzero]
    omega
  rw [endMessage, h.requireOpenMessage, ok_bind, h.tagStart, ok_bind, h.payloadStart, ok_bind]
  simp only [hcount, hdrop, hboundaries]
  rw [hmax, ok_bind]
  have hwidth : (if writer.length - payloadStart ≤ 255 then 1
      else if writer.length - payloadStart ≤ 65535 then 2 else 4) =
        C.boundaryWidth (writer.length - payloadStart) := rfl
  have hwidthCode : (if C.boundaryWidth (writer.length - payloadStart) = 1 then 0
      else if C.boundaryWidth (writer.length - payloadStart) = 2 then 1 else 2 : Int) =
        C.widthCode (writer.length - payloadStart) := by
    unfold C.widthCode
    split_ifs <;> rfl
  have hdirectory : (layoutOf (C.messageDirectoryLayout tags)).size.toNat =
      (C.messageDirectoryLayout tags).size := Int.toNat_natCast _
  simp only [hlayout, hsize, hwidth, hwidthCode, hdirectory, writeMetadata, bind_assoc,
    ← Nat.add_assoc]

end MessageWriter

end Bebop.TypeScript
