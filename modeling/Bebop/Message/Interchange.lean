import Bebop.C.MessageSize
import Bebop.Rpc.Agreement
import Bebop.TypeScript.NestedMessages

/-!
# Bebop — messages between the runtimes

A message is a list of tags with their bytes (`Slices`). The C and the TypeScript writer
turn it into the same bytes, which each of the three readers takes apart again (`ReadAs`).
Other bytes are messages, too: what is read from them can be written again, with a
directory that is no longer, and is read the same.
-/

namespace Bebop.Message

open Checked Bytes Bits
open TypeScript (Slices)

/-- The readers accept the bytes, and each finds at a tag what is the value of it. -/
def ReadAs (bs : List UInt8) (values : Nat → Option (List UInt8)) : Prop :=
  ∃ c t s, C.messageIndexParse bs = .ok c ∧ TypeScript.parseMessageIndex bs = .ok t ∧
    Swift.parseMessageIndex bs = .ok s ∧ ∀ tag : Nat, 1 ≤ tag → tag ≤ 255 →
    ∃ range : Option (Nat × Nat),
      C.messageIndexField c tag = .ok (range.map fun range => ⟨range.1, range.2 - range.1⟩) ∧
      TypeScript.field tag t bs =
        .ok (range.map fun range : Nat × Nat => ((range.1 : Int), (range.2 : Int))) ∧
      Swift.field tag s bs =
        .ok (range.map fun range : Nat × Nat => ((range.1 : Int), (range.2 : Int))) ∧
      (range.map fun range => (bs.drop range.1).take (range.2 - range.1)) = values tag

/-- The bytes of a tag. -/
def Decoded.value (bs : List UInt8) (d : Decoded) (tag : Nat) : Option (List UInt8) :=
  (d.lookup bs tag).map fun range => (bs.drop range.1).take (range.2 - range.1)

variable {bs : List UInt8} {d : Decoded}

theorem readAs_of_decode (h : decode bs = some d) : ReadAs bs (d.value bs) := by
  obtain ⟨hsound, hbound⟩ := decode_eq_some.mp h
  refine ⟨C.indexOf bs d, TypeScript.indexOf d, Swift.indexOf bs d, ?_, ?_, ?_, ?_⟩
  · rw [C.messageIndexParse_eq, h]
    rfl
  · rw [TypeScript.parseMessageIndex_eq, h]
    rfl
  · rw [Swift.parseMessageIndex_eq, h]
    rfl
  · intro tag hlow hhigh
    exact ⟨d.lookup bs tag, C.messageIndexField_of_decode hsound hbound hhigh,
      TypeScript.field_eq hsound hbound ⟨hlow, hhigh⟩, Swift.field_eq hsound hbound ⟨hlow, hhigh⟩, rfl⟩

theorem ReadAs.congr {values values' : Nat → Option (List UInt8)} (h : ReadAs bs values)
    (heq : ∀ tag, 1 ≤ tag → tag ≤ 255 → values tag = values' tag) : ReadAs bs values' := by
  obtain ⟨c, t, s, hc, ht, hs, hfields⟩ := h
  refine ⟨c, t, s, hc, ht, hs, fun tag hlow hhigh => ?_⟩
  rw [← heq tag hlow hhigh]
  exact hfields tag hlow hhigh

/-! ## What the writers leave -/

theorem readAs_encoding {slices : Slices} (h : TagsOk slices.tags) (hsize : slices.bodySize ≤ C.uint32Max) :
    ReadAs slices.encoding fun tag => List.lookup tag slices := by
  obtain ⟨hencodable, -⟩ := C.encodable_of_sliced (Slices.sliced h) hsize
  refine (readAs_of_decode (decode_encode hencodable)).congr fun tag _ _ => ?_
  unfold Decoded.value Decoded.lookup
  cases hlookup : List.lookup tag slices with
  | none =>
    have hnot : tag ∉ slices.tags := by
      intro hmem
      obtain ⟨slice, hslice, rfl⟩ := List.mem_map.mp hmem
      exact absurd (List.lookup_eq_none_iff.mp hlookup slice hslice) (by simp)
    rw [Decoded.rank?, encoded_tags, if_neg hnot]
    rfl
  | some value =>
    obtain ⟨before, after, hsplit, -⟩ := List.lookup_eq_some_iff.mp hlookup
    obtain ⟨htag, hstart, hstop, hbytes, hinside⟩ := Slices.slice_between before after tag value
    rw [← hsplit] at htag hstart hstop hbytes hinside
    obtain ⟨hr, rfl⟩ := List.getElem?_eq_some_iff.mp htag
    obtain ⟨hr', hstart⟩ := List.getElem?_eq_some_iff.mp hstart
    have hrank : (encoded (C.messageDirectoryLayout slices.tags).kind
        (C.widthCode slices.payload.length) slices.tags (slices.offsets 0)
        slices.payload).rank? slices.tags[before.length] = some before.length :=
      Decoded.rank?_getElem h.ascend hr
    rw [hrank, Option.map_some, Option.map_some, fieldStart_encode hencodable hr',
      fieldEnd_encode hencodable hr', hstart, hstop, Nat.add_sub_add_left,
      slice_encode (Nat.le_add_right ..) hinside, Nat.add_sub_cancel_left, hbytes]

/-! ## What is read -/

/-- The fields of rank `r` and on, of which `tags` are the tags. -/
def Decoded.fieldsFrom (bs : List UInt8) (d : Decoded) : (tags : List Nat) → (r : Nat) → Slices
  | [], _ => []
  | tag :: tags, r =>
    (tag, (bs.drop (4 + d.fieldStart bs r)).take (d.fieldEnd bs r - d.fieldStart bs r)) ::
      d.fieldsFrom bs tags (r + 1)

theorem tags_fieldsFrom (tags : List Nat) (r : Nat) : Slices.tags (d.fieldsFrom bs tags r) = tags := by
  induction tags generalizing r with
  | nil => rfl
  | cons tag tags ih => exact congrArg (tag :: ·) (ih (r + 1))

theorem lookup_fieldsFrom {tags : List Nat} (hp : tags.Pairwise (· < ·)) (tag r : Nat) :
    List.lookup tag (d.fieldsFrom bs tags r) = if tag ∈ tags then
      some ((bs.drop (4 + d.fieldStart bs (r + rank tag tags))).take
        (d.fieldEnd bs (r + rank tag tags) - d.fieldStart bs (r + rank tag tags))) else none := by
  induction tags generalizing r with
  | nil => rfl
  | cons head tags ih =>
    obtain ⟨hhead, hp⟩ := List.pairwise_cons.mp hp
    rw [Decoded.fieldsFrom, List.lookup_cons, rank_cons, ih hp]
    by_cases heq : tag = head
    · subst heq
      rw [beq_self_eq_true, if_pos (List.mem_cons_self ..), if_neg (Nat.lt_irrefl _),
        rank_eq_zero fun a ha => Nat.le_of_lt (hhead a ha)]
      rfl
    · rw [beq_false_of_ne heq]
      by_cases hmem : tag ∈ tags
      · rw [if_pos hmem, if_pos (List.mem_cons_of_mem _ hmem), if_pos (hhead tag hmem), Nat.add_assoc]
      · rw [if_neg hmem, if_neg (List.not_mem_cons_of_ne_of_not_mem heq hmem)]

/-- The values of a message lie one behind the other and fill its payload. -/
theorem payload_fieldsFrom (hbound : d.BoundariesOk bs) (tags : List Nat) {r : Nat}
    (hr : r + (tags.length + 1) = d.tags.length) (tag : Nat) :
    Slices.payload (d.fieldsFrom bs (tag :: tags) r) =
      (bs.drop (4 + d.fieldStart bs r)).take (d.payloadSize - d.fieldStart bs r) := by
  obtain ⟨hle, hpay⟩ := hbound r (by omega)
  induction tags generalizing r tag with
  | nil =>
    have hend : d.fieldEnd bs r = d.payloadSize := if_pos hr
    rw [← hend]
    exact List.append_nil _
  | cons next tags ih =>
    have hend : d.fieldEnd bs r = d.fieldStart bs (r + 1) := by
      rw [List.length_cons] at hr
      exact (if_neg (by omega)).trans (if_neg (by omega)).symm
    obtain ⟨hle', hpay'⟩ := hbound (r + 1) (by rw [List.length_cons] at hr; omega)
    have hrest := ih (by rw [List.length_cons] at hr; omega) next hle' hpay'
    have hsplit : d.payloadSize - d.fieldStart bs r = (d.fieldEnd bs r - d.fieldStart bs r) +
        (d.payloadSize - d.fieldStart bs (r + 1)) := by omega
    rw [hsplit, List.take_add, List.drop_drop]
    have hnext : 4 + d.fieldStart bs r + (d.fieldEnd bs r - d.fieldStart bs r) =
        4 + d.fieldStart bs (r + 1) := by omega
    rw [hnext, ← hrest]
    rfl

/-- The fields of a message. -/
def Decoded.fields (bs : List UInt8) (d : Decoded) : Slices := d.fieldsFrom bs d.tags 0

theorem lookup_fields (h : d.Sound bs) : (fun tag => List.lookup tag (d.fields bs)) = d.value bs := by
  funext tag
  rw [Decoded.fields, lookup_fieldsFrom h.pairwise, Nat.zero_add, Decoded.value, Decoded.lookup,
    Decoded.rank?]
  split
  · rw [Option.map_some, Option.map_some, Nat.add_sub_add_left]
  · rfl

theorem payload_fields (h : d.Sound bs) (hbound : d.BoundariesOk bs) :
    (d.fields bs).payload = (bs.drop 4).take d.payloadSize := by
  cases htags : d.tags with
  | nil =>
    rw [Decoded.fields, htags, h.payload_of_nil htags]
    rfl
  | cons tag tags =>
    rw [Decoded.fields, htags, payload_fieldsFrom hbound tags (by rw [htags, List.length_cons]; omega)]
    rfl

/-! ## Interchange -/

/-- A message with ascending tags whose body fits its prefix has one form. The C writer
leaves it behind any bytes, and the TypeScript writer for any tree that spells the message
as long as it loses no number; and every reader gets the message back from it. -/
theorem messages_interchange (slices : Slices) (h : TagsOk slices.tags) (hsize : slices.bodySize ≤ C.uint32Max) :
    (ReadAs slices.encoding fun tag => List.lookup tag slices) ∧
    (∀ (alloc : Nat → Bool) (writer : C.Writer) (before slot : List UInt8),
      writer.bytes = before ++ (slot ++ slices.payload) → slot.length = 4 →
      C.Room alloc (writer.bytes.length + C.metadataSize slices.payload.length slices.tags) →
      ∃ finished, C.writerEndIndexedMessage alloc writer before.length (before.length + 4)
          (slices.tags.zip (slices.offsets 0)) = .ok finished ∧
        finished.bytes = before ++ slices.encoding) ∧
    ∀ (fields : TypeScript.MessageFields) (writer : TypeScript.MessageWriter),
      fields.slices = slices → fields.Valid 0 → writer.fixed = false → TypeScript.Paired writer →
      TypeScript.Kept fields.stores writer.cursor →
      ∃ done, fields.writeMessage writer = .ok done ∧
        done.toArray = writer.toArray ++ slices.encoding := by
  refine ⟨readAs_encoding h hsize, fun alloc writer before slot hbytes hslot hroom =>
    C.writerEndIndexedMessage_eq hbytes hslot (Slices.sliced h) hsize hroom, ?_⟩
  rintro fields writer rfl hvalid hgrowing hpaired hkept
  have hperforms := fields.performs_message hgrowing hpaired
  obtain ⟨done, hdone⟩ := hperforms.returns ⟨hvalid, hsize⟩ hkept
  obtain ⟨-, hstored, -⟩ := hperforms.result done hdone
  obtain ⟨data, -, hdata, hiff⟩ := hstored.appended
  exact ⟨done, hdone, by rw [hdata, hiff.mpr hkept]⟩

theorem messages_interchange_nested :
    ReadAs TypeScript.nestedMessage.slices.encoding
        (fun tag => List.lookup tag TypeScript.nestedMessage.slices) ∧
      ∃ done, TypeScript.nestedMessage.writeMessage (.ofCapacity 32) = .ok done ∧
        done.toArray = TypeScript.nestedMessage.slices.encoding := by
  obtain ⟨hread, -, hwrite⟩ := messages_interchange TypeScript.nestedMessage.slices
    ⟨by decide, by decide⟩ (by decide)
  exact ⟨hread, hwrite _ (.ofCapacity 32) rfl
    ⟨by decide, trivial, by decide, ⟨⟨⟨by decide, trivial, trivial⟩, by decide⟩, trivial⟩, trivial⟩ rfl
    (TypeScript.paired_ofCapacity 32) (TypeScript.kept_of_room (by decide))⟩

/-- Whatever bytes a reader accepts, they are a message: its values fill the payload, one
behind the other, and it can be written with a directory that is no longer and, if its body
fits, is read the same. -/
theorem messages_reencode (bs : List UInt8) (index : C.MessageIndex)
    (h : C.messageIndexParse bs = .ok index) : ∃ slices : Slices, TagsOk slices.tags ∧
      slices.payload = (bs.drop 4).take (index.boundaries - 4) ∧
      ReadAs bs (fun tag => List.lookup tag slices) ∧
      index.directory + (C.messageDirectoryLayout slices.tags).size < bs.length ∧
      (slices.bodySize ≤ C.uint32Max → ReadAs slices.encoding fun tag => List.lookup tag slices) := by
  rw [C.messageIndexParse_eq] at h
  obtain ⟨d, hd, rfl⟩ := orRaise_map_eq_ok h
  obtain ⟨hsound, hbound⟩ := decode_eq_some.mp hd
  have htags : (d.fields bs).tags = d.tags := tags_fieldsFrom _ _
  have hok : TagsOk (d.fields bs).tags := by
    rw [htags]
    exact ⟨hsound.pairwise, hsound.range⟩
  refine ⟨d.fields bs, hok, payload_fields hsound hbound, ?_, ?_, readAs_encoding hok⟩
  · rw [lookup_fields hsound]
    exact readAs_of_decode hd
  · have hlayout := hsound.layout
    have hle := C.size_layout_le_size hsound
    rw [htags, C.indexOf_directory]
    omega

/-- One tag in a mask, which the writer would list. -/
theorem messages_reencode_mask : ∃ slices : Slices,
    ReadAs [3, 0, 0, 0, 7, 4, 16] (fun tag => List.lookup tag slices) ∧ slices.payload = [7] := by
  obtain ⟨slices, -, hpayload, hread, -, -⟩ := messages_reencode [3, 0, 0, 0, 7, 4, 16] _ rfl
  exact ⟨slices, hread, hpayload⟩

end Bebop.Message
