import Bebop.TypeScript.MessageMetadata

/-!
# Bebop — nested messages in TypeScript

A tree of messages, written by properly nested calls of `beginMessage`,
`markMessageField` and `endMessage` on one writer. All open messages share the arrays of
the writer: a nested message works behind the fields of the outer one (`Opened`) and
leaves them as they were (`Marked`).
-/

namespace Bebop.TypeScript

open Checked Bytes Message MessageWriter

mutual
inductive MessagePayload where
  | done
  | bytes (data : List UInt8) (rest : MessagePayload)
  | message (fields : MessageFields) (rest : MessagePayload)

inductive MessageFields where
  | done
  | field (tag : Nat) (payload : MessagePayload) (rest : MessageFields)
end

/-! ## Calls -/

mutual
def MessagePayload.write : MessagePayload → MessageWriter → Rpc.Attempt MessageWriter
  | .done, writer => return writer
  | .bytes data rest, writer => do
    let writer ← writer.writeBytes data
    rest.write writer
  | .message fields rest, writer => do
    let (token, writer) ← writer.beginMessage
    let writer ← fields.write token writer
    let writer ← writer.endMessage token
    rest.write writer

/-- The calls for the fields of the message that was begun last. -/
def MessageFields.write : MessageFields → (token : Nat) → MessageWriter → Rpc.Attempt MessageWriter
  | .done, _, writer => return writer
  | .field tag payload rest, token, writer => do
    let writer ← writer.markMessageField token tag
    let writer ← payload.write writer
    rest.write token writer
end

def MessageFields.writeMessage (fields : MessageFields) (writer : MessageWriter) :
    Rpc.Attempt MessageWriter := do
  let (token, writer) ← writer.beginMessage
  let writer ← fields.write token writer
  writer.endMessage token

theorem MessagePayload.write_message (fields : MessageFields) (rest : MessagePayload)
    (writer : MessageWriter) :
    (MessagePayload.message fields rest).write writer =
      (fields.writeMessage writer >>= rest.write) := by
  rw [MessagePayload.write, MessageFields.writeMessage]
  simp only [bind_assoc]

/-! ## Encodings -/

abbrev Slices := List (Nat × List UInt8)

namespace Slices

def tags (slices : Slices) : List Nat := slices.map Prod.fst

def payload (slices : Slices) : List UInt8 := slices.flatMap Prod.snd

/-- Where each value starts, the first one at `start`. -/
def offsets : (slices : Slices) → (start : Nat) → List Nat
  | [], _ => []
  | (_, value) :: rest, start => start :: offsets rest (start + value.length)

def bodySize (slices : Slices) : Nat :=
  slices.payload.length + C.metadataSize slices.payload.length slices.tags

/-- The encoding with the directory and the boundaries of the C writer. -/
def encoding (slices : Slices) : List UInt8 :=
  encode (C.messageDirectoryLayout slices.tags).kind (C.widthCode slices.payload.length) slices.tags
    (slices.offsets 0) slices.payload

end Slices

mutual
def MessagePayload.encoding : MessagePayload → List UInt8
  | .done => []
  | .bytes data rest => data ++ rest.encoding
  | .message fields rest => fields.slices.encoding ++ rest.encoding

/-- The tags of a message with the bytes of their payloads. -/
def MessageFields.slices : MessageFields → Slices
  | .done => []
  | .field tag payload rest => (tag, payload.encoding) :: rest.slices
end

mutual
/-- Every nested message passes the checks of the writer. -/
def MessagePayload.Valid : MessagePayload → Prop
  | .done => True
  | .bytes _ rest => rest.Valid
  | .message fields rest => (fields.Valid 0 ∧ fields.slices.bodySize ≤ C.uint32Max) ∧ rest.Valid

/-- The tags ascend, and the bodies fit their prefixes. -/
def MessageFields.Valid : MessageFields → (previous : Nat) → Prop
  | .done, _ => True
  | .field tag payload rest, previous =>
    (previous < tag ∧ tag ≤ 255) ∧ (payload.Valid ∧ rest.Valid tag)
end

mutual
def MessagePayload.stores : MessagePayload → List Store
  | .done => []
  | .bytes data rest => [.bytes data.length] ++ rest.stores
  | .message fields rest =>
    (.bytes 4 :: (fields.payloadStores ++
      metadataStores fields.slices.tags (fields.slices.offsets 0) fields.slices.payload.length)) ++
      rest.stores

def MessageFields.payloadStores : MessageFields → List Store
  | .done => []
  | .field _ payload rest => payload.stores ++ rest.payloadStores
end

/-- The space for the length, the payloads and the metadata. -/
def MessageFields.stores (fields : MessageFields) : List Store :=
  .bytes 4 :: (fields.payloadStores ++
    metadataStores fields.slices.tags (fields.slices.offsets 0) fields.slices.payload.length)

/-! ## Slices -/

namespace Slices

theorem length_offsets (slices : Slices) (start : Nat) :
    (slices.offsets start).length = slices.tags.length := by
  induction slices generalizing start with
  | nil => rfl
  | cons slice rest ih => exact congrArg Nat.succ (ih _)

theorem mem_offsets {slices : Slices} {start o : Nat} (h : o ∈ slices.offsets start) :
    start ≤ o ∧ o ≤ start + slices.payload.length := by
  induction slices generalizing start with
  | nil => cases h
  | cons slice rest ih =>
    have hsize : (payload (slice :: rest)).length = slice.2.length + (payload rest).length := by
      rw [payload, List.flatMap_cons, List.length_append]
      rfl
    rw [hsize]
    rcases List.mem_cons.mp h with rfl | hrest
    · omega
    · have := ih hrest
      omega

theorem offsets_ascend (slices : Slices) (start : Nat) :
    (slices.offsets start).Pairwise (· ≤ ·) := by
  induction slices generalizing start with
  | nil => exact List.Pairwise.nil
  | cons slice rest ih =>
    refine List.pairwise_cons.mpr ⟨fun o ho => ?_, ih _⟩
    have := mem_offsets ho
    omega

theorem sliced {slices : Slices} (h : TagsOk slices.tags) :
    Sliced slices.tags (slices.offsets 0) slices.payload.length where
  tagsOk := h
  length := length_offsets slices 0
  first o ho := by
    cases slices with
    | nil => cases ho
    | cons slice rest => exact (Option.some.inj ho).symm
  ascend := offsets_ascend slices 0
  inside o ho := by
    have := mem_offsets ho
    omega
  empty hnil := by
    obtain rfl : slices = [] := List.map_eq_nil_iff.mp hnil
    rfl

end Slices

theorem MessageFields.Valid.tags {fields : MessageFields} {previous : Nat}
    (h : fields.Valid previous) : (previous :: fields.slices.tags).Pairwise (· < ·) ∧
      ∀ t ∈ fields.slices.tags, t ≤ 255 := by
  match fields with
  | .done => exact ⟨List.pairwise_singleton _ _, fun t ht => by cases ht⟩
  | .field tag payload rest =>
    obtain ⟨⟨hlt, hle⟩, -, hrest⟩ := h
    obtain ⟨hascend, hrange⟩ := MessageFields.Valid.tags hrest
    change (previous :: tag :: rest.slices.tags).Pairwise (· < ·) ∧
      ∀ t ∈ tag :: rest.slices.tags, t ≤ 255
    constructor
    · rw [← List.isChain_iff_pairwise, List.isChain_cons_cons, List.isChain_iff_pairwise]
      exact ⟨hlt, hascend⟩
    · intro t ht
      rcases List.mem_cons.mp ht with rfl | ht
      · exact hle
      · exact hrange t ht

theorem MessageFields.Valid.tagsOk {fields : MessageFields} (h : fields.Valid 0) :
    TagsOk fields.slices.tags := by
  obtain ⟨hascend, hrange⟩ := h.tags
  obtain ⟨hpos, hascend⟩ := List.pairwise_cons.mp hascend
  exact ⟨hascend, fun t ht => ⟨hpos t ht, hrange t ht⟩⟩

/-! ## Marks -/

theorem MessageWriter.Opened.marked {writer writer' : MessageWriter}
    {token tagStart payloadStart : Nat} {tags offsets tags' offsets' : List Nat}
    (h : Opened writer token tagStart payloadStart tags offsets)
    (hmarked : Marked writer writer' tags' offsets') :
    Opened writer' token tagStart payloadStart (tags ++ tags') (offsets ++ offsets') := by
  obtain ⟨olderTags, hlength, htags⟩ := h.tags
  obtain ⟨olderOffsets, hlength', hoffsets⟩ := h.offsets
  refine ⟨?_, ?_, ⟨olderTags, hlength, ?_⟩, ⟨olderOffsets, hlength', ?_⟩⟩
  · rw [hmarked.tagStarts]
    exact h.open_tags
  · rw [hmarked.payloadStarts]
    exact h.open_payload
  · rw [hmarked.tags, htags, List.append_assoc]
  · rw [hmarked.offsets, hoffsets, List.append_assoc]

theorem markMessageField_performs {writer : MessageWriter} (hgrowing : writer.fixed = false)
    {token tagStart payloadStart : Nat} {tags offsets : List Nat}
    (h : Opened writer token tagStart payloadStart tags offsets) (tag : Nat) :
    Performs writer (writer.markMessageField token tag)
      (tags.getLast?.getD 0 < tag ∧ tag ≤ 255) [] [] [tag] [writer.length - payloadStart] := by
  obtain ⟨older, hlength, htags⟩ := h.tags
  -- the tag before it in the array is the last one of this message
  have hprevious : (if writer.messageTags.length = tagStart then pure 0
      else item writer.messageTags (writer.messageTags.length - 1) : Rpc.Attempt Nat) =
        .ok (tags.getLast?.getD 0) := by
    rw [htags, List.length_append, hlength]
    by_cases hnil : tags = []
    · subst hnil
      exact if_pos (Nat.add_zero _)
    · have hpos := List.length_pos_iff.mpr hnil
      have hlast := item_last (show older ++ tags ≠ [] by simp [hnil])
      rw [List.getLast?_append_of_ne_nil _ hnil, List.length_append, hlength] at hlast
      rw [if_neg (by omega), hlast]
  rw [markMessageField, h.requireOpenMessage, ok_bind, h.tagStart, h.payloadStart]
  simp only [ok_bind, hprevious]
  by_cases hrange : tag < 1 ∨ tag > 255
  · rw [rejectIf_of hrange, error_bind]
    exact performs_raised (by omega)
  · rw [rejectIf_of_not hrange, ok_bind]
    by_cases hle : tag ≤ tags.getLast?.getD 0
    · rw [rejectIf_of hle, error_bind]
      exact performs_raised (by omega)
    · rw [rejectIf_of_not hle, ok_bind]
      constructor
      · intro writer' hout
        obtain rfl := Except.ok.inj hout
        exact ⟨by omega, ⟨hgrowing, rfl, [], rfl, (List.append_nil _).symm, fun _ => trivial,
          fun _ => rfl⟩, ⟨rfl, rfl, rfl, rfl⟩⟩
      · exact fun _ _ => ⟨_, rfl⟩

/-! ## The length of a message -/

theorem setUint32_toArray {writer : BebopWriter} {before slot rest : List UInt8}
    (h : writer.toArray = before ++ (slot ++ rest)) (hslot : slot.length = 4) (value : Nat) :
    (writer.setUint32 before.length value).toArray = before ++ (leBytes 4 value ++ rest) ∧
      (writer.setUint32 before.length value).buffer.length = writer.buffer.length ∧
      (writer.setUint32 before.length value).length = writer.length ∧
      (writer.setUint32 before.length value).fixed = writer.fixed := by
  obtain ⟨unused, hunused⟩ : ∃ unused, unused = writer.buffer.drop writer.length := ⟨_, rfl⟩
  have hbuffer : writer.buffer = before ++ (slot ++ (rest ++ unused)) := by
    have hsplit := List.take_append_drop writer.length writer.buffer
    rw [← BebopWriter.toArray, h, ← hunused] at hsplit
    rw [← hsplit, List.append_assoc, List.append_assoc]
  have hlength : writer.length = before.length + (4 + rest.length) := by
    have hsize := congrArg List.length h
    rwa [BebopWriter.toArray, List.length_take, Nat.min_eq_left writer.bounded, List.length_append,
      List.length_append, hslot] at hsize
  have hbytes : ((leBytes 4 value).map UInt8.toNat).length = 4 := by
    rw [List.length_map, length_leBytes]
  have hback : ((leBytes 4 value).map UInt8.toNat).map UInt8.ofNat = leBytes 4 value := by
    rw [List.map_map]
    exact (List.map_congr_left fun b _ => UInt8.ofNat_toNat).trans (List.map_id _)
  obtain ⟨hset, hsetLength, hfixed⟩ := writer.storeAll_eq before.length
    ((leBytes 4 value).map UInt8.toNat) (by
      rw [hbytes, hbuffer, List.length_append, List.length_append]
      omega)
  have hskip : (before ++ (slot ++ (rest ++ unused))).drop (before.length + 4) = rest ++ unused := by
    rw [← List.drop_drop, List.drop_left, ← hslot, List.drop_left]
  rw [hback, hbytes, hbuffer, List.take_left, hskip] at hset
  rw [← BebopWriter.setUint32] at hset hsetLength hfixed
  refine ⟨?_, ?_, hsetLength, hfixed⟩
  · rw [BebopWriter.toArray, hset, hsetLength, hlength, ← List.append_assoc, ← List.append_assoc,
      ← List.append_assoc]
    refine List.take_left' ?_
    simp only [List.length_append, length_leBytes]
    omega
  · rw [hset, hbuffer]
    simp only [List.length_append, length_leBytes, hslot]

/-! ## A message -/

/-- Each open message has its starts, and each mark its offset. -/
structure Paired (writer : MessageWriter) : Prop where
  fields : writer.messageOffsets.length = writer.messageTags.length
  starts : writer.messagePayloadStarts.length = writer.messageTagStarts.length

theorem Paired.marked {writer writer' : MessageWriter} {tags offsets : List Nat}
    (h : Paired writer) (hmarked : Marked writer writer' tags offsets)
    (hlength : offsets.length = tags.length) : Paired writer' := by
  constructor
  · rw [hmarked.offsets, hmarked.tags, List.length_append, List.length_append, h.fields, hlength]
  · rw [hmarked.payloadStarts, hmarked.tagStarts, h.starts]

/-- The writer after `beginMessage`. -/
structure Begun (writer begun : MessageWriter) (slot : List UInt8) : Prop where
  growing : begun.fixed = false
  cursor : begun.cursor = writer.cursor.advance 4
  space : slot.length = 4
  toArray : begun.toArray = writer.toArray ++ slot
  tags : begun.messageTags = writer.messageTags
  offsets : begun.messageOffsets = writer.messageOffsets
  tagStarts : begun.messageTagStarts = writer.messageTagStarts ++ [writer.messageTags.length]
  payloadStarts : begun.messagePayloadStarts = writer.messagePayloadStarts ++ [writer.length + 4]

theorem beginMessage_growing {writer : MessageWriter} (h : writer.fixed = false) :
    ∃ begun slot, writer.beginMessage = .ok (writer.messageTagStarts.length, begun) ∧
      Begun writer begun slot := by
  obtain ⟨reserved, hreserve, hreserved⟩ := reserve_growing h 4
  obtain ⟨slot, hslot, harray⟩ := hreserved.toArray
  have htags := hreserved.marked.tags
  have hoffsets := hreserved.marked.offsets
  rw [List.append_nil] at htags hoffsets
  refine ⟨{ reserved with
    messageTagStarts := reserved.messageTagStarts ++ [reserved.messageTags.length]
    messagePayloadStarts := reserved.messagePayloadStarts ++ [reserved.length] }, slot, ?_,
    hreserved.growing, hreserved.cursor h, hslot, harray, htags, hoffsets, ?_, ?_⟩
  · rw [beginMessage, hreserve]
    rfl
  · dsimp only
    rw [hreserved.marked.tagStarts, htags]
  · dsimp only
    rw [hreserved.marked.payloadStarts, hreserved.length]

theorem Begun.opened {writer begun : MessageWriter} {slot : List UInt8} (h : Begun writer begun slot)
    (hpaired : Paired writer) : Opened begun writer.messageTagStarts.length
      writer.messageTags.length (writer.length + 4) [] [] where
  open_tags := ⟨_, rfl, h.tagStarts⟩
  open_payload := ⟨_, hpaired.starts, h.payloadStarts⟩
  tags := ⟨_, rfl, by rw [h.tags, List.append_nil]⟩
  offsets := ⟨_, hpaired.fields, by rw [h.offsets, List.append_nil]⟩

theorem Begun.length {writer begun : MessageWriter} {slot : List UInt8}
    (h : Begun writer begun slot) : begun.length = writer.length + 4 := by
  rw [← length_toArray, h.toArray, List.length_append, length_toArray, h.space]

theorem Begun.paired {writer begun : MessageWriter} {slot : List UInt8}
    (h : Begun writer begun slot) (hpaired : Paired writer) : Paired begun where
  fields := by rw [h.offsets, h.tags, hpaired.fields]
  starts := by
    rw [h.payloadStarts, h.tagStarts, List.length_append, List.length_append, hpaired.starts]
    rfl

/-- The writer that `endMessage` returns, after the metadata. -/
def closed (written : MessageWriter) (tagStart payloadStart bodySize : Nat) : MessageWriter where
  toBebopWriter := written.setUint32 (payloadStart - 4) bodySize
  messageTags := written.messageTags.take tagStart
  messageOffsets := written.messageOffsets.take tagStart
  messageTagStarts := written.messageTagStarts.dropLast
  messagePayloadStarts := written.messagePayloadStarts.dropLast

theorem Slices.encoding_eq {slices : Slices} (h : TagsOk slices.tags)
    (hsize : slices.bodySize ≤ C.uint32Max) :
    slices.encoding = leBytes 4 slices.bodySize ++ (slices.payload ++
      metadataBytes slices.tags (slices.offsets 0) slices.payload.length) := by
  obtain ⟨-, hbody⟩ := C.encodable_of_sliced (Slices.sliced h) hsize
  rw [Slices.encoding, encode, hbody]
  rfl

theorem closed_stored {writer begun filled written : MessageWriter} {slot : List UInt8}
    {slices : Slices} {payloadStores : List Store} (hpaired : Paired writer)
    (hbegun : Begun writer begun slot)
    (hfilled : Stored begun filled payloadStores slices.payload)
    (hmarked : Marked begun filled slices.tags (slices.offsets 0))
    (hwritten : Stored filled written
      (metadataStores slices.tags (slices.offsets 0) slices.payload.length)
      (metadataBytes slices.tags (slices.offsets 0) slices.payload.length))
    (hkeeps : Marked filled written [] []) (htags : TagsOk slices.tags)
    (hsize : slices.bodySize ≤ C.uint32Max) :
    let done := closed written writer.messageTags.length (writer.length + 4) slices.bodySize
    Stored writer done (.bytes 4 :: (payloadStores ++
      metadataStores slices.tags (slices.offsets 0) slices.payload.length)) slices.encoding ∧
      Marked writer done [] [] := by
  obtain ⟨data, hlength, harray, hkept⟩ := hfilled.appended
  obtain ⟨data', hlength', harray', hkept'⟩ := hwritten.appended
  have hall : written.toArray = writer.toArray ++ (slot ++ (data ++ data')) := by
    rw [harray', harray, hbegun.toArray]
    simp only [List.append_assoc]
  obtain ⟨hset, hcapacity, hsetLength, hfixed⟩ := setUint32_toArray hall hbegun.space slices.bodySize
  rw [length_toArray] at hset hcapacity hsetLength hfixed
  have hcursor : written.cursor = writer.cursor.run (.bytes 4 :: (payloadStores ++
      metadataStores slices.tags (slices.offsets 0) slices.payload.length)) := by
    rw [hwritten.cursor, hfilled.cursor, hbegun.cursor, Cursor.run, Cursor.run_append]
    rfl
  refine ⟨⟨hfixed.trans hwritten.growing, ?_, leBytes 4 slices.bodySize ++ (data ++ data'), ?_, hset,
    ?_⟩, ?_⟩
  · rw [← hcursor, MessageWriter.cursor, MessageWriter.cursor, Cursor.mk.injEq]
    exact ⟨hcapacity, hsetLength⟩
  · rw [Slices.encoding_eq htags hsize]
    simp only [List.length_append, hlength, hlength']
  · -- the length is right in any case, and the parts are compared one by one
    rw [Slices.encoding_eq htags hsize, List.append_cancel_left_eq, Kept, kept_append]
    have hfirst : writer.cursor.advance (Store.bytes 4).size = begun.cursor := hbegun.cursor.symm
    rw [hfirst, ← hfilled.cursor, ← hkept, ← hkept']
    constructor
    · exact fun heq => ⟨trivial, List.append_inj heq hlength⟩
    · rintro ⟨-, rfl, rfl⟩
      rfl
  · have hall := hmarked.trans hkeeps
    simp only [List.append_nil] at hall
    refine ⟨?_, ?_, ?_, ?_⟩
    · change written.messageTags.take _ = _
      rw [hall.tags, hbegun.tags, List.take_left, List.append_nil]
    · change written.messageOffsets.take _ = _
      rw [hall.offsets, hbegun.offsets, ← hpaired.fields, List.take_left, List.append_nil]
    · change written.messageTagStarts.dropLast = _
      rw [hall.tagStarts, hbegun.tagStarts, List.dropLast_concat]
    · change written.messagePayloadStarts.dropLast = _
      rw [hall.payloadStarts, hbegun.payloadStarts, List.dropLast_concat]

theorem endMessage_closed {writer begun filled : MessageWriter} {slot : List UInt8}
    {slices : Slices} {payloadStores : List Store} (hpaired : Paired writer)
    (hbegun : Begun writer begun slot)
    (hfilled : Stored begun filled payloadStores slices.payload)
    (hmarked : Marked begun filled slices.tags (slices.offsets 0)) (htags : TagsOk slices.tags) :
    filled.endMessage writer.messageTagStarts.length = (do
      rejectIf (runtimeError "message body exceeds uint32 length") (slices.bodySize > C.uint32Max)
      let written ← filled.writeMetadata slices.tags (slices.offsets 0) slices.payload.length
      return closed written writer.messageTags.length (writer.length + 4) slices.bodySize) := by
  have hopened := (hbegun.opened hpaired).marked hmarked
  rw [List.nil_append, List.nil_append] at hopened
  have hsize : filled.length - (writer.length + 4) = slices.payload.length := by
    rw [hfilled.length, hbegun.length, Nat.add_sub_cancel_left]
  rw [endMessage_eq hopened (by rw [hsize]; exact Slices.sliced htags), hsize]
  rfl

theorem writeMessage_performs {fields : MessageFields} {writer : MessageWriter}
    (hgrowing : writer.fixed = false) (hpaired : Paired writer)
    (hfields : ∀ begun slot, Begun writer begun slot →
      Performs begun (fields.write writer.messageTagStarts.length begun) (fields.Valid 0)
        fields.payloadStores fields.slices.payload fields.slices.tags (fields.slices.offsets 0)) :
    Performs writer (fields.writeMessage writer)
      (fields.Valid 0 ∧ fields.slices.bodySize ≤ C.uint32Max) fields.stores fields.slices.encoding
      [] [] := by
  obtain ⟨begun, slot, hbegin, hbegun⟩ := beginMessage_growing hgrowing
  have hrun := hfields begun slot hbegun
  rw [MessageFields.writeMessage, hbegin, ok_bind]
  dsimp only
  constructor
  · intro done hdone
    obtain ⟨filled, hfill, hend⟩ := bind_ok hdone
    obtain ⟨hvalid, hfilled, hmarked⟩ := hrun.result filled hfill
    rw [endMessage_closed hpaired hbegun hfilled hmarked hvalid.tagsOk] at hend
    obtain ⟨_, hcheck, hend⟩ := bind_ok hend
    obtain ⟨written, hwrite, hreturn⟩ := bind_ok hend
    have hsize := Nat.not_lt.mp (rejectIf_ok hcheck)
    have hmetadata := writeMetadata_performs (Slices.sliced hvalid.tagsOk)
      (Nat.le_trans (Nat.le_add_right ..) hsize) hfilled.growing
    obtain ⟨-, hwritten, hkeeps⟩ := hmetadata.result written hwrite
    obtain rfl := Except.ok.inj hreturn
    exact ⟨⟨hvalid, hsize⟩, closed_stored hpaired hbegun hfilled hmarked hwritten hkeeps
      hvalid.tagsOk hsize⟩
  · rintro ⟨hvalid, hsize⟩ ⟨-, hkept⟩
    have hcursor : writer.cursor.advance (Store.bytes 4).size = begun.cursor := hbegun.cursor.symm
    rw [hcursor, kept_append] at hkept
    obtain ⟨filled, hfill⟩ := hrun.returns hvalid hkept.1
    obtain ⟨-, hfilled, hmarked⟩ := hrun.result filled hfill
    have hmetadata := writeMetadata_performs (Slices.sliced hvalid.tagsOk)
      (Nat.le_trans (Nat.le_add_right ..) hsize) hfilled.growing
    obtain ⟨written, hwrite⟩ := hmetadata.returns trivial (by
      rw [hfilled.cursor]
      exact hkept.2)
    refine ⟨closed written writer.messageTags.length (writer.length + 4) fields.slices.bodySize, ?_⟩
    rw [hfill, ok_bind, endMessage_closed hpaired hbegun hfilled hmarked hvalid.tagsOk,
      rejectIf_of_not (Nat.not_lt.mpr hsize), ok_bind, hwrite]
    rfl

/-! ## Trees -/

mutual
theorem MessagePayload.performs : (payload : MessagePayload) → {writer : MessageWriter} →
    writer.fixed = false → Paired writer →
    Performs writer (payload.write writer) payload.Valid payload.stores payload.encoding [] []
  | .done, writer, hgrowing, _ => performs_return hgrowing
  | .bytes data rest, writer, hgrowing, hpaired =>
    (Performs.bind (writeBytes_performs hgrowing data) fun writer' hstored hmarked =>
      rest.performs hstored.growing (hpaired.marked hmarked rfl)).congr (iff_of_eq (true_and _))
  | .message fields rest, writer, hgrowing, hpaired => by
    rw [MessagePayload.write_message]
    refine Performs.bind (writeMessage_performs hgrowing hpaired fun begun slot hbegun => ?_)
      fun writer' hstored hmarked => rest.performs hstored.growing (hpaired.marked hmarked rfl)
    have hrun := fields.performs hbegun.growing (hbegun.paired hpaired) (hbegun.opened hpaired) (by
      rw [hbegun.length])
    rw [hbegun.length, Nat.sub_self] at hrun
    exact hrun

theorem MessageFields.performs : (fields : MessageFields) → {writer : MessageWriter} →
    writer.fixed = false → Paired writer →
    {token tagStart payloadStart : Nat} → {tags offsets : List Nat} →
    Opened writer token tagStart payloadStart tags offsets → payloadStart ≤ writer.length →
    Performs writer (fields.write token writer) (fields.Valid (tags.getLast?.getD 0))
      fields.payloadStores fields.slices.payload fields.slices.tags
      (fields.slices.offsets (writer.length - payloadStart))
  | .done, writer, hgrowing, _, _, _, _, _, _, _, _ => performs_return hgrowing
  | .field tag payload rest, writer, hgrowing, hpaired, token, tagStart, payloadStart, tags, offsets,
      hopened, hstart => by
    have hmark := markMessageField_performs hgrowing hopened tag
    refine Performs.mark_bind hmark ?_
    intro marked hstored hmarked
    have hopened' := hopened.marked hmarked
    have hpaired' := hpaired.marked hmarked rfl
    have hlength : marked.length = writer.length := hstored.length
    refine Performs.payload_bind (payload.performs hstored.growing hpaired') ?_
    intro written hstored' hmarked'
    have hopened'' := hopened'.marked hmarked'
    have hlength' := hstored'.length
    rw [hlength] at hlength'
    have hrest := rest.performs hstored'.growing (hpaired'.marked hmarked' rfl) hopened'' (by omega)
    -- the tag of this field is the one before the rest, which starts behind the payload
    rw [List.append_nil, List.getLast?_concat, Option.getD_some, hlength',
      show writer.length + payload.encoding.length - payloadStart =
        writer.length - payloadStart + payload.encoding.length by omega] at hrest
    exact hrest
end

end Bebop.TypeScript
