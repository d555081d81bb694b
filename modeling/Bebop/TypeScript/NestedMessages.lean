import Bebop.TypeScript.MessageTree

/-!
# Bebop — nested messages, written and read

Every message of a tree that passes the checks of the writer has an encoding in which
`field` finds the bytes of each tag, and the C writer leaves the same bytes behind. So the
tree is written right exactly when none of its stores loses anything (`writeMessage_iff`):
a number behind a payload that fills the buffer is lost.
-/

namespace Bebop.TypeScript

open Checked Bytes Message MessageWriter

/-! ## The messages of a tree -/

mutual
def MessagePayload.messages : MessagePayload → List MessageFields
  | .done => []
  | .bytes _ rest => rest.messages
  | .message fields rest => fields :: (fields.nested ++ rest.messages)

def MessageFields.nested : MessageFields → List MessageFields
  | .done => []
  | .field _ payload rest => payload.messages ++ rest.nested
end

/-- The tags ascend, and the body is not too long. -/
def MessageFields.Accepted (fields : MessageFields) : Prop :=
  fields.Valid 0 ∧ fields.slices.bodySize ≤ C.uint32Max

mutual
theorem MessagePayload.Valid.messages : (payload : MessagePayload) → payload.Valid →
    ∀ message ∈ payload.messages, message.Accepted
  | .done, _ => fun message hmem => by cases hmem
  | .bytes _ rest, h => MessagePayload.Valid.messages rest h
  | .message fields rest, ⟨hfields, hrest⟩ => by
    intro message hmem
    rcases List.mem_cons.mp hmem with rfl | hmem
    · exact hfields
    · rcases List.mem_append.mp hmem with hmem | hmem
      · exact MessageFields.Valid.nested fields hfields.1 message hmem
      · exact MessagePayload.Valid.messages rest hrest message hmem

theorem MessageFields.Valid.nested : (fields : MessageFields) → {previous : Nat} →
    fields.Valid previous → ∀ message ∈ fields.nested, message.Accepted
  | .done, _, _ => fun message hmem => by cases hmem
  | .field _ payload rest, _, ⟨_, hpayload, hrest⟩ => by
    intro message hmem
    rcases List.mem_append.mp hmem with hmem | hmem
    · exact MessagePayload.Valid.messages payload hpayload message hmem
    · exact MessageFields.Valid.nested rest hrest message hmem
end

/-! ## Reading -/

namespace Slices

theorem offsets_append (a b : Slices) (start : Nat) :
    (a ++ b).offsets start = a.offsets start ++ b.offsets (start + a.payload.length) := by
  induction a generalizing start with
  | nil => rfl
  | cons slice rest ih =>
    have hsize : (payload (slice :: rest)).length = slice.2.length + (payload rest).length := by
      rw [payload, List.flatMap_cons, List.length_append]
      rfl
    rw [hsize, ← Nat.add_assoc]
    exact congrArg (start :: ·) (ih _)

theorem slice_between (before after : Slices) (tag : Nat) (value : List UInt8) :
    let slices := before ++ (tag, value) :: after
    slices.tags[before.length]? = some tag ∧
      (slices.offsets 0)[before.length]? = some before.payload.length ∧
      (slices.offsets 0)[before.length + 1]?.getD slices.payload.length =
        before.payload.length + value.length ∧
      (slices.payload.drop before.payload.length).take value.length = value ∧
      before.payload.length + value.length ≤ slices.payload.length := by
  have hoffsets : (offsets (before ++ (tag, value) :: after) 0) = before.offsets 0 ++
      (before.payload.length :: after.offsets (before.payload.length + value.length)) := by
    rw [offsets_append, Nat.zero_add]
    rfl
  have hpayload : payload (before ++ (tag, value) :: after) =
      before.payload ++ (value ++ after.payload) := List.flatMap_append
  have hlength : (before.offsets 0).length = before.length := by
    rw [length_offsets, tags, List.length_map]
  dsimp only
  rw [hoffsets, hpayload, List.drop_left, List.take_left]
  refine ⟨?_, ?_, ?_, rfl, ?_⟩
  · rw [tags, List.map_append, List.getElem?_append_right (by rw [List.length_map]),
      List.length_map, Nat.sub_self]
    rfl
  · rw [List.getElem?_append_right (by omega), hlength, Nat.sub_self]
    rfl
  · rw [List.getElem?_append_right (by omega), hlength, Nat.add_sub_cancel_left]
    cases after with
    | nil => simp [offsets, payload]
    | cons slice rest => rfl
  · simp only [List.length_append]
    omega

end Slices

/-- A lookup of a tag in its encoding finds its payload. -/
def MessageFields.Reads (fields : MessageFields) : Prop :=
  ∃ index, parseMessageIndex fields.slices.encoding = .ok index ∧
    ∀ tag value, (tag, value) ∈ fields.slices → ∃ start stop : Nat,
      TypeScript.field tag index fields.slices.encoding = .ok (some (start, stop)) ∧
      (fields.slices.encoding.drop start).take (stop - start) = value

/-- The C writer leaves the same bytes. -/
def MessageFields.SameAsC (fields : MessageFields) : Prop :=
  ∀ (alloc : Nat → Bool) (writer : C.Writer) (before slot : List UInt8),
    writer.bytes = before ++ (slot ++ fields.slices.payload) → slot.length = 4 →
    C.Room alloc (writer.bytes.length +
      C.metadataSize fields.slices.payload.length fields.slices.tags) →
    ∃ finished, C.writerEndIndexedMessage alloc writer before.length (before.length + 4)
        (fields.slices.tags.zip (fields.slices.offsets 0)) = .ok finished ∧
      finished.bytes = before ++ fields.slices.encoding

theorem MessageFields.reads {fields : MessageFields} (h : fields.Accepted) : fields.Reads := by
  obtain ⟨hvalid, hsize⟩ := h
  have hsliced := Slices.sliced hvalid.tagsOk
  obtain ⟨hencodable, -⟩ := C.encodable_of_sliced hsliced hsize
  have hdecode := decode_encode hencodable
  obtain ⟨hsound, hbound⟩ := decode_eq_some.mp hdecode
  refine ⟨_, by rw [parseMessageIndex_eq, Slices.encoding, hdecode]; rfl, ?_⟩
  intro tag value hmem
  obtain ⟨before, after, hsplit⟩ : ∃ before after : Slices,
      fields.slices = before ++ (tag, value) :: after := List.append_of_mem hmem
  obtain ⟨htag, hstart, hstop, hbytes, hinside⟩ := Slices.slice_between before after tag value
  rw [← hsplit] at htag hstart hstop hbytes hinside
  obtain ⟨hr, htag⟩ := List.getElem?_eq_some_iff.mp htag
  obtain ⟨hr', hstart⟩ := List.getElem?_eq_some_iff.mp hstart
  have hrank : (encoded (C.messageDirectoryLayout fields.slices.tags).kind
      (C.widthCode fields.slices.payload.length) fields.slices.tags (fields.slices.offsets 0)
      fields.slices.payload).rank? tag = some before.length := by
    rw [← htag]
    exact Decoded.rank?_getElem hvalid.tagsOk.ascend hr
  have hrange := hvalid.tagsOk.range tag (by rw [← htag]; exact List.getElem_mem hr)
  refine ⟨4 + before.payload.length, 4 + (before.payload.length + value.length), ?_, ?_⟩
  · rw [Slices.encoding, field_eq hsound hbound hrange, Decoded.lookup, hrank, Option.map_some,
      fieldStart_encode hencodable hr', fieldEnd_encode hencodable hr', hstart, hstop]
    rfl
  · have hend : 4 + (before.payload.length + value.length) - (4 + before.payload.length) =
        before.payload.length + value.length - before.payload.length := by omega
    rw [hend, Slices.encoding, slice_encode (Nat.le_add_right ..) hinside, Nat.add_sub_cancel_left]
    exact hbytes

theorem MessageFields.sameAsC {fields : MessageFields} (h : fields.Accepted) : fields.SameAsC :=
  fun _ _ _ _ hbytes hslot hroom =>
    C.writerEndIndexedMessage_eq hbytes hslot (Slices.sliced h.1.tagsOk) h.2 hroom

/-! ## Writing -/

/-- The calls for the message return and append its encoding, and every message
of the tree is read back from its encoding, which the C writer produces too. -/
def MessageFields.WrittenRight (fields : MessageFields) (writer : MessageWriter) : Prop :=
  ∃ done, fields.writeMessage writer = .ok done ∧
    done.toArray = writer.toArray ++ fields.slices.encoding ∧
    ∀ message ∈ fields :: fields.nested, message.Reads ∧ message.SameAsC

theorem MessageFields.performs_message (fields : MessageFields) {writer : MessageWriter}
    (hgrowing : writer.fixed = false) (hpaired : Paired writer) :
    Performs writer (fields.writeMessage writer) fields.Accepted fields.stores
      fields.slices.encoding [] [] := by
  refine writeMessage_performs hgrowing hpaired fun begun slot hbegun => ?_
  have hrun := fields.performs hbegun.growing (hbegun.paired hpaired) (hbegun.opened hpaired)
    (Nat.le_of_eq hbegun.length.symm)
  rw [hbegun.length, Nat.sub_self] at hrun
  exact hrun

/-- If the writer accepts a tree, it is written right exactly when no number behind a payload
comes where the buffer is full, unless it is a zero byte. If not, the calls do not return. -/
theorem writeMessage_iff {writer : MessageWriter} (hgrowing : writer.fixed = false)
    (hpaired : Paired writer) (fields : MessageFields) :
    (fields.Accepted → (fields.WrittenRight writer ↔ Kept fields.stores writer.cursor)) ∧
      (¬fields.Accepted → ∀ done, fields.writeMessage writer ≠ .ok done) := by
  have hperforms := fields.performs_message hgrowing hpaired
  refine ⟨fun haccepted => ⟨?_, fun hkept => ?_⟩, fun hnot done hdone => ?_⟩
  · rintro ⟨done, hdone, harray, -⟩
    obtain ⟨-, hstored, -⟩ := hperforms.result done hdone
    obtain ⟨data, -, hdata, hiff⟩ := hstored.appended
    exact hiff.mp (List.append_cancel_left (hdata.symm.trans harray))
  · obtain ⟨done, hdone⟩ := hperforms.returns haccepted hkept
    obtain ⟨-, hstored, -⟩ := hperforms.result done hdone
    obtain ⟨data, -, hdata, hiff⟩ := hstored.appended
    refine ⟨done, hdone, by rw [hdata, hiff.mpr hkept], fun message hmem => ?_⟩
    have hmessage : message.Accepted := by
      rcases List.mem_cons.mp hmem with rfl | hmem
      · exact haccepted
      · exact MessageFields.Valid.nested fields haccepted.1 message hmem
    exact ⟨message.reads hmessage, message.sameAsC hmessage⟩
  · exact hnot (hperforms.result done hdone).1

theorem paired_ofCapacity (storage : Nat) : Paired (ofCapacity storage) := ⟨rfl, rfl⟩

def nestedMessage : MessageFields :=
  .field 1 (.bytes [10, 20] .done)
    (.field 40 (.message (.field 2 (.bytes [30] .done) .done) .done) .done)

/-- There is room for both. -/
theorem writeMessage_nested : nestedMessage.WrittenRight (ofCapacity 32) := by
  have haccepted : nestedMessage.Accepted := by
    refine ⟨⟨by decide, trivial, by decide, ⟨⟨?_, by decide⟩, trivial⟩, trivial⟩, by decide⟩
    exact ⟨by decide, trivial, trivial⟩
  exact ((writeMessage_iff rfl (paired_ofCapacity 32) nestedMessage).1 haccepted).mpr
    (kept_of_room (by decide))

/-- Twelve bytes in a buffer of sixteen, full in front of the directory. -/
def fullMessage : MessageFields :=
  .field 1 (.bytes [1, 2, 3, 4, 5, 6, 7, 8, 9, 10, 11, 12] .done) .done

/-- The directory byte is lost, and what is written is not a message. -/
theorem writeMessage_full :
    fullMessage.Accepted ∧ ¬fullMessage.WrittenRight (ofCapacity 16) ∧
      ∃ done, fullMessage.writeMessage (ofCapacity 16) = .ok done ∧
        parseMessageIndex done.toArray = .error malformedMessage := by
  have hbytes : (fullMessage.writeMessage (ofCapacity 16)).map (fun done => done.toArray) =
      .ok [14, 0, 0, 0, 1, 2, 3, 4, 5, 6, 7, 8, 9, 10, 11, 12, 0, 16] := by decide +kernel
  have hencoding : fullMessage.slices.encoding =
      [14, 0, 0, 0, 1, 2, 3, 4, 5, 6, 7, 8, 9, 10, 11, 12, 1, 16] := by decide
  cases hrun : fullMessage.writeMessage (ofCapacity 16) with
  | error error =>
    rw [hrun] at hbytes
    cases hbytes
  | ok done =>
    rw [hrun] at hbytes
    have harray : done.toArray = _ := Except.ok.inj hbytes
    refine ⟨⟨⟨by decide, trivial, trivial⟩, by decide⟩, ?_, done, rfl, ?_⟩
    · rintro ⟨done', hdone', harray', -⟩
      obtain rfl := Except.ok.inj (hrun.symm.trans hdone')
      rw [harray, hencoding] at harray'
      exact absurd harray' (by decide)
    · rw [harray]
      decide +kernel

end Bebop.TypeScript
