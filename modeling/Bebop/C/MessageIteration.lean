import Bebop.C.MessageResults

/-!
# Bebop — iteration over a C message index

All ways to ask an index for its tags give the same answer: the iterator, the lookup of a
tag, the lookup by rank and the masks of a block directory. The slices of an index that was
validated tile the payload.
-/

namespace Bebop.C

open Checked Bytes Bits Message

/-- The loop of `bebop_message_index_block_masks` over the blocks from `block`. -/
def blockMasksFrom (encoded : List UInt8) (topMask : Nat) : (n block entry : Nat) → Outcome (List Nat)
  | 0, _, _ => return []
  | n + 1, block, entry => do
    if topMask &&& (1 <<< block) ≠ 0 then
      let mask ← wireLoadLe encoded (entry + 1) 4
      let masks ← blockMasksFrom encoded topMask n (block + 1) (entry + 5)
      return mask :: masks
    else
      let masks ← blockMasksFrom encoded topMask n (block + 1) entry
      return 0 :: masks

/-- `bebop_message_index_block_masks` -/
def messageIndexBlockMasks (index : MessageIndex) : Outcome (List Nat) := do
  rejectIf invalid (index.directoryKind ≠ .blocks)
  let topMask ← read index.encoded (← back index.encoded.length 2)
  blockMasksFrom index.encoded topMask 8 0 index.directory

/-- The answers of `n` calls of `bebop_message_field_iterator_next_tag`. -/
def messageFieldIteratorTags : (n : Nat) → MessageFieldIterator → Outcome (List (Option Nat) × MessageFieldIterator)
  | 0, it => return ([], it)
  | n + 1, it => do
    let (tag, it) ← messageFieldIteratorNextTag it
    let (tags, it) ← messageFieldIteratorTags n it
    return (tag :: tags, it)

/-- The answers of `n` calls of `bebop_message_field_iterator_next`. -/
def messageFieldIteratorFields :
    (n : Nat) → MessageFieldIterator → Outcome (List (Option (Nat × Outcome View)) × MessageFieldIterator)
  | 0, it => return ([], it)
  | n + 1, it => do
    let (field, it) ← messageFieldIteratorNext it
    let (fields, it) ← messageFieldIteratorFields n it
    return (field :: fields, it)

/-- Views that follow each other from one position to another. -/
def Tiles : (start : Nat) → List View → (stop : Nat) → Prop
  | start, [], stop => start = stop
  | start, view :: views, stop => view.start = start ∧ Tiles (start + view.length) views stop

variable {bs : List UInt8} {d : Decoded}

/-! ## The iterator -/

theorem messageFieldIteratorTags_eq (h : d.Sound bs) {n : Nat} {it : MessageFieldIterator} (hit : Iterating bs d it)
    (hn : it.rank + n = d.tags.length) :
    ∃ it', messageFieldIteratorTags n it = .ok ((d.tags.drop it.rank).map some, it') ∧ Iterating bs d it' ∧
      it'.rank = d.tags.length := by
  induction n generalizing it with
  | zero =>
    refine ⟨it, ?_, hit, hn⟩
    rw [List.drop_eq_nil_of_le (by omega)]
    rfl
  | succ n ih =>
    have hlt : it.rank < d.tags.length := by omega
    obtain ⟨it', hnext, hit', hrank⟩ := messageFieldIteratorNextTag_step h hit hlt
    obtain ⟨it'', hrest, hit'', hend⟩ := ih hit' (by omega)
    refine ⟨it'', ?_, hit'', hend⟩
    rw [messageFieldIteratorTags, hnext, ok_bind]
    dsimp only
    rw [hrest, List.drop_eq_getElem_cons hlt, hrank]
    rfl

theorem messageFieldIteratorFields_eq (h : d.Sound bs) {n : Nat} {it : MessageFieldIterator} (hit : Iterating bs d it)
    (hn : it.rank + n = d.tags.length) :
    ∃ it', messageFieldIteratorFields n it =
      .ok (((d.tags.zipIdx).drop it.rank).map fun p => some (p.1, messageIndexFieldAt (indexOf bs d) p.2), it') := by
  induction n generalizing it with
  | zero =>
    refine ⟨it, ?_⟩
    rw [List.drop_eq_nil_of_le (by rw [List.length_zipIdx]; omega)]
    rfl
  | succ n ih =>
    have hlt : it.rank < d.tags.length := by omega
    have hlength := h.length_le
    obtain ⟨it', hnext, hit', hrank⟩ := messageFieldIteratorNextTag_step h hit hlt
    obtain ⟨it'', hrest⟩ := ih hit' (by omega)
    refine ⟨it'', ?_⟩
    have hlt' : it.rank < d.tags.zipIdx.length := by rwa [List.length_zipIdx]
    have hbefore : (it'.rank - 1) % 256 = it.rank := by omega
    rw [messageFieldIteratorFields, messageFieldIteratorNext, hnext, ok_bind, List.drop_eq_getElem_cons hlt',
      List.getElem_zipIdx, Nat.zero_add, ← hrank]
    simp only [Option.map_some, pure_eq_ok, ok_bind, hrest, hbefore, hit'.index, List.map_cons]
    rfl

theorem messageFieldIteratorNextTag_end {it : MessageFieldIterator} (hit : Iterating bs d it)
    (hend : it.rank = d.tags.length) : messageFieldIteratorNextTag it = .ok (none, it) := by
  rw [messageFieldIteratorNextTag, if_pos (by rw [hit.index]; exact hend)]
  rfl

/-! ## The masks of a block directory -/

theorem blockMasksFrom_eq {top n b entry r : Nat} {tags : List Nat} (hn : b + n = 8)
    (h : blockTags bs top n b entry r = some tags) (hroom : entry + 5 * (popcount 8 top - popcount b top) ≤ bs.length) :
    ∃ masks, blockMasksFrom bs top n b entry = .ok masks ∧ masks.length = n ∧
      ∀ B i, b ≤ B → B < 8 → ((masks.getD (B - b) 0).testBit i = true ↔ i < 32 ∧ i + (32 * B + 1) ∈ tags) := by
  induction n generalizing b entry r tags with
  | zero => exact ⟨[], rfl, rfl, fun B i hb hB => by omega⟩
  | succ n ih =>
    cases hbit : top.testBit b with
    | false =>
      have hsucc : popcount (b + 1) top = popcount b top := by
        rw [popcount_succ, hbit]
        rfl
      rw [blockTags_succ_clear hbit] at h
      obtain ⟨masks, hmasks, hlength, hbits⟩ := ih (by omega) h (by rwa [hsucc])
      refine ⟨0 :: masks, ?_, by rw [List.length_cons, hlength], fun B i hb hB => ?_⟩
      · rw [blockMasksFrom, if_neg (by rw [not_not, and_one_shiftLeft_eq_zero, hbit]), hmasks]
        rfl
      · rcases Nat.eq_or_lt_of_le hb with rfl | hlt
        · -- an absent block has no tags: those of the others lie above it
          rw [Nat.sub_self, List.getD_cons_zero, Nat.zero_testBit]
          refine iff_of_false Bool.false_ne_true fun ⟨hi, hmem⟩ => ?_
          have hrange := (blockTags_range (by omega) h _ hmem).1
          omega
        · rw [show B - b = B - (b + 1) + 1 by omega, List.getD_cons_succ]
          exact hbits B i hlt hB
    | true =>
      obtain ⟨rest, -, -, -, hrest, rfl⟩ := blockTags_succ_set hbit h
      obtain ⟨hentry, hroom'⟩ := entry_room (show b + (n + 1) = 8 by omega) hbit hroom
      obtain ⟨masks, hmasks, hlength, hbits⟩ := ih (by omega) hrest hroom'
      refine ⟨leAt bs (entry + 1) 4 :: masks, ?_, by rw [List.length_cons, hlength], fun B i hb hB => ?_⟩
      · rw [blockMasksFrom, if_pos (by rw [ne_eq, and_one_shiftLeft_eq_zero, hbit]; decide),
          wireLoadLe_four (by omega), ok_bind, hmasks]
        rfl
      · rw [List.mem_append]
        rcases Nat.eq_or_lt_of_le hb with rfl | hlt
        · have htail : i < 32 → i + (32 * b + 1) ∉ rest := by
            intro hi hmem
            have hrange := (blockTags_range (by omega) hrest _ hmem).1
            omega
          have hword : (leAt bs (entry + 1) 4).testBit i = true → i < 32 := lt_of_testBit (leAt_lt bs _ 4)
          rw [Nat.sub_self, List.getD_cons_zero]
          simp only [List.mem_map, mem_bits, Nat.add_right_cancel_iff, exists_eq_right]
          constructor
          · exact fun hi => ⟨hword hi, .inl ⟨hword hi, hi⟩⟩
          · rintro ⟨hi, ⟨-, hset⟩ | hmem⟩
            · exact hset
            · exact absurd hmem (htail hi)
        · have hhead : i < 32 → i + (32 * B + 1) ∉ (bits 32 (leAt bs (entry + 1) 4)).map (· + (32 * b + 1)) := by
            intro hi hmem
            obtain ⟨j, hj, hji⟩ := List.mem_map.mp hmem
            have hlow := (mem_bits.mp hj).1
            omega
          rw [show B - b = B - (b + 1) + 1 by omega, List.getD_cons_succ, hbits B i hlt hB]
          exact and_congr_right fun hi => (or_iff_right (hhead hi)).symm

theorem messageIndexBlockMasks_eq (h : d.Sound bs) (hkind : d.kind = .blocks) :
    ∃ masks, messageIndexBlockMasks (indexOf bs d) = .ok masks ∧ masks.length = 8 ∧
      ∀ B i, B < 8 → ((masks.getD B 0).testBit i = true ↔ i < 32 ∧ 32 * B + i + 1 ∈ d.tags) := by
  obtain ⟨-, htags, hroom⟩ := blocks_tags h hkind
  have hlen := h.header.1
  obtain ⟨masks, hmasks, hlength, hbits⟩ := blockMasksFrom_eq rfl htags (by simpa using hroom)
  refine ⟨masks, ?_, hlength, fun B i hB => ?_⟩
  · rw [messageIndexBlockMasks, rejectIf_of_not (by rw [not_not]; exact hkind), ok_bind]
    simp only [indexOf_encoded, indexOf_directory, back_of_le (show 2 ≤ bs.length by omega),
      read_of_lt (show bs.length - 2 < bs.length by omega), ok_bind]
    exact hmasks
  · rw [show 32 * B + i + 1 = i + (32 * B + 1) by omega]
    exact hbits B i (Nat.zero_le B) hB

/-! ## Lookup -/

theorem mem_iff_messageIndexField (h : d.Sound bs) {tag : Nat} (htag : tag ≤ 255) :
    tag ∈ d.tags ↔ messageIndexField (indexOf bs d) tag ≠ .ok none := by
  rw [messageIndexField_eq h htag, Decoded.rank?]
  by_cases hmem : tag ∈ d.tags
  · rw [if_pos hmem]
    refine iff_of_true hmem fun hnone => ?_
    dsimp only at hnone
    unfold sliceAt at hnone
    split at hnone <;> cases hnone
  · rw [if_neg hmem]
    exact iff_of_false hmem fun hne => hne rfl

/-! ## Slices -/

theorem tiles_viewAt (h : d.Sound bs) (hok : d.BoundariesOk bs) {n r : Nat} (hn : r + n + 1 = d.tags.length) :
    Tiles (4 + d.fieldStart bs r) ((List.range' r (n + 1)).map (viewAt bs d)) d.boundaries := by
  have hl := h.layout
  obtain ⟨hle, -⟩ := hok r (by omega)
  have hview : 4 + d.fieldStart bs r + (viewAt bs d r).length = 4 + d.fieldEnd bs r := by
    show 4 + d.fieldStart bs r + (d.fieldEnd bs r - d.fieldStart bs r) = 4 + d.fieldEnd bs r
    omega
  induction n generalizing r with
  | zero =>
    refine ⟨rfl, ?_⟩
    have hend : d.fieldEnd bs r = d.payloadSize := if_pos hn
    show 4 + d.fieldStart bs r + (viewAt bs d r).length = d.boundaries
    rw [hview, hend]
    unfold Decoded.payloadSize
    omega
  | succ n ih =>
    have hnext : d.fieldEnd bs r = d.fieldStart bs (r + 1) := by
      rw [show d.fieldEnd bs r = d.boundary bs r from if_neg (by omega)]
      exact (if_neg (by omega)).symm
    refine ⟨rfl, ?_⟩
    rw [hview, hnext]
    have hle' := (hok (r + 1) (by omega)).1
    refine ih (by omega) hle' ?_
    show 4 + d.fieldStart bs (r + 1) + (d.fieldEnd bs (r + 1) - d.fieldStart bs (r + 1)) = 4 + d.fieldEnd bs (r + 1)
    omega

theorem messageIndex_tiles (h : d.Sound bs) (hok : d.BoundariesOk bs) :
    ∃ views : List View, views.length = d.tags.length ∧
      (∀ (k : Nat) (hk : k < views.length), messageIndexFieldAt (indexOf bs d) k = .ok views[k]) ∧
      Tiles wireSizeLen views d.boundaries := by
  refine ⟨(List.range d.tags.length).map (viewAt bs d), by simp, fun k hk => ?_, ?_⟩
  · rw [List.length_map, List.length_range] at hk
    rw [List.getElem_map, List.getElem_range, messageIndexFieldAt, messageFieldAtRank_eq h, if_pos hk, sliceAt,
      if_pos (hok k hk)]
  · cases hlength : d.tags.length with
    | zero =>
      have hnil := h.payload_of_nil (List.length_eq_zero_iff.mp hlength)
      have hl := h.layout
      unfold Decoded.payloadSize at hnil
      show 4 = d.boundaries
      omega
    | succ n =>
      rw [List.range_eq_range']
      exact tiles_viewAt h hok (by omega)

/-! ## Result -/

/-- The ways to go through an index the lazy reader produced agree. -/
theorem messageIndex_iteration (bs : List UInt8) (index : MessageIndex) (h : messageIndexBegin bs = .ok index) :
    ∃ (tags : List Nat) (it stop stop' : MessageFieldIterator),
      messageFieldIteratorInit index = .ok it ∧
      messageFieldIteratorTags index.fieldCount it = .ok (tags.map some, stop) ∧
      messageFieldIteratorNextTag stop = .ok (none, stop) ∧
      tags.length = index.fieldCount ∧ tags.Pairwise (· < ·) ∧ (∀ tag ∈ tags, 1 ≤ tag ∧ tag ≤ 255) ∧
      (∀ tag ≤ 255, tag ∈ tags ↔ messageIndexField index tag ≠ .ok none) ∧
      messageFieldIteratorFields index.fieldCount it =
        .ok (tags.zipIdx.map fun p => some (p.1, messageIndexFieldAt index p.2), stop') ∧
      (∀ (k : Nat) (hk : k < tags.length), messageIndexField index tags[k] = some <$> messageIndexFieldAt index k) ∧
      (index.directoryKind = .blocks → ∃ masks, messageIndexBlockMasks index = .ok masks ∧ masks.length = 8 ∧
        ∀ block bit, block < 8 →
          ((masks.getD block 0).testBit bit = true ↔ bit < 32 ∧ 32 * block + bit + 1 ∈ tags)) ∧
      ∀ index', messageIndexParse bs = .ok index' → index' = index ∧
        ∃ views : List View, views.length = tags.length ∧
          (∀ (k : Nat) (hk : k < views.length), messageIndexFieldAt index k = .ok views[k]) ∧
          Tiles wireSizeLen views index.boundaries := by
  rw [messageIndexBegin_eq] at h
  obtain ⟨d, hd, rfl⟩ := orRaise_map_eq_ok h
  have hsound := decodeDirectory_eq_some.mp hd
  obtain ⟨it, hinit, hiter, hrank⟩ := messageFieldIteratorInit_iterating hsound
  obtain ⟨stop, htags, hstop, hend⟩ := messageFieldIteratorTags_eq hsound hiter (by rw [hrank, Nat.zero_add])
  obtain ⟨stop', hfields⟩ := messageFieldIteratorFields_eq hsound hiter (by rw [hrank, Nat.zero_add])
  rw [hrank, List.drop_zero] at htags hfields
  refine ⟨d.tags, it, stop, stop', hinit, htags, messageFieldIteratorNextTag_end hstop hend, rfl, hsound.pairwise,
    hsound.range, fun _ => mem_iff_messageIndexField hsound, hfields, fun k hk => ?_, messageIndexBlockMasks_eq hsound, fun index' hparse => ?_⟩
  · rw [messageIndexField_eq hsound (hsound.range _ (List.getElem_mem hk)).2, Decoded.rank?_getElem hsound.pairwise hk,
      messageIndexFieldAt, messageFieldAtRank_eq hsound, if_pos hk]
  · rw [messageIndexParse_eq] at hparse
    obtain ⟨d', hd', rfl⟩ := orRaise_map_eq_ok hparse
    obtain ⟨hsound', hok⟩ := decode_eq_some.mp hd'
    obtain rfl := Option.some.inj (hd.symm.trans (decodeDirectory_eq_some.mpr hsound'))
    exact ⟨rfl, messageIndex_tiles hsound hok⟩

/-- A block directory with two tags. -/
theorem messageIndex_iteration_blocks : ∃ index tags it stop,
    messageFieldIteratorInit index = .ok it ∧ messageFieldIteratorTags 2 it = .ok (List.map some tags, stop) ∧
      tags.length = 2 := by
  let bs : List UInt8 := [15, 0, 0, 0, 0xAA, 0xBB, 1, 0, 1, 0, 0, 0, 1, 2, 0, 0, 0, 3, 0x1C]
  have hbegin : messageIndexBegin bs = .ok ⟨bs, 6, 7, 2, 1, .blocks⟩ := by decide
  obtain ⟨tags, it, stop, -, hinit, htags, -, hlength, -⟩ := messageIndex_iteration bs _ hbegin
  exact ⟨_, tags, it, stop, hinit, htags, hlength⟩

end Bebop.C
