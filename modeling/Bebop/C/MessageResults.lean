import Bebop.C.MessageEncode
import Bebop.C.MessageIterator

/-!
# Bebop — indexed messages in C

The results about the C writer and readers together: what is written is read back
(`indexedMessage_roundTrip`), and the lazy reader is the validating one with the slices
left to be checked (`messageIndex_lazy`).
-/

namespace Bebop.C

open Checked Bytes Bits Message

def View.bytes (encoded : List UInt8) (view : View) : List UInt8 :=
  (encoded.drop view.start).take view.length

/-! ## Round trip -/

theorem messageIndexField_encode_absent {kind : DirectoryKind} {code : Nat} {tags offsets : List Nat}
    {payload : List UInt8} (h : Encodable kind code tags offsets payload) {tag : Nat}
    (htag : tag ≤ 255) (hnot : tag ∉ tags) :
    messageIndexField (indexOf (encode kind code tags offsets payload)
      (encoded kind code tags offsets payload)) tag = .ok none := by
  rw [messageIndexField_eq (sound_encode h) htag, Decoded.rank?, encoded_tags, if_neg hnot]

theorem messageIndexField_encode_present {kind : DirectoryKind} {code : Nat}
    {tags offsets : List Nat} {payload : List UInt8}
    (h : Encodable kind code tags offsets payload) {r : Nat} (hr : r < tags.length)
    (hr' : r < offsets.length) :
    messageIndexField (indexOf (encode kind code tags offsets payload)
      (encoded kind code tags offsets payload)) tags[r] =
      .ok (some ⟨4 + offsets[r], offsets[r + 1]?.getD payload.length - offsets[r]⟩) := by
  have hrange := h.tagsOk.range _ (List.getElem_mem hr)
  have hrank : (encoded kind code tags offsets payload).rank? tags[r] = some r :=
    Decoded.rank?_getElem h.tagsOk.ascend hr
  have hok := (decode_eq_some.mp (decode_encode h)).2 r hr
  rw [messageIndexField_eq (sound_encode h) hrange.2, hrank]
  dsimp only
  rw [sliceAt, if_pos hok, viewAt, fieldStart_encode h hr', fieldEnd_encode h hr']
  rfl

theorem bytes_encode {kind : DirectoryKind} {code : Nat} {tags offsets : List Nat}
    {payload : List UInt8} {start stop : Nat} (hle : start ≤ stop) (hstop : stop ≤ payload.length) :
    View.bytes (encode kind code tags offsets payload) ⟨4 + start, stop - start⟩ =
      (payload.drop start).take (stop - start) :=
  slice_encode hle hstop

/-- Where the slice of rank `r` ends: the next offset, or the end. -/
def sliceEnd (offsets : List Nat) (payloadSize r : Nat) : Nat := offsets[r + 1]?.getD payloadSize

/-- What is written is read back: for a payload cut into one slice for each tag, whose
encoding fits the length prefix, what was written before is left alone, the reader accepts
the rest, and a lookup finds exactly the tags that were written, each with its own slice. -/
theorem indexedMessage_roundTrip (alloc : Nat → Bool) (writer : Writer) (payload : List UInt8)
    (tags offsets : List Nat) (hfields : Sliced tags offsets payload.length)
    (hbody : payload.length + metadataSize payload.length tags ≤ uint32Max)
    (hroom : Room alloc
      (writer.bytes.length + 4 + payload.length + metadataSize payload.length tags)) :
    ∃ position started, writerBeginLength alloc writer = .ok (position, started) ∧
      ∀ appended : Writer, appended.bytes = started.bytes ++ payload →
        ∃ finished index,
          writerEndIndexedMessage alloc appended position (position + 4) (tags.zip offsets) =
            .ok finished ∧
          finished.bytes.take position = writer.bytes ∧
          messageIndexParse (finished.bytes.drop position) = .ok index ∧
          index.fieldCount = tags.length ∧
          (∀ tag, 1 ≤ tag → tag ≤ 255 → tag ∉ tags → messageIndexField index tag = .ok none) ∧
          ∀ (r : Nat) (hr : r < tags.length) (hr' : r < offsets.length), ∃ view,
            messageIndexField index tags[r] = .ok (some view) ∧
            view.start = 4 + offsets[r] ∧
            view.length = sliceEnd offsets payload.length r - offsets[r] ∧
            view.bytes (finished.bytes.drop position) =
              (payload.drop offsets[r]).take (sliceEnd offsets payload.length r - offsets[r]) := by
  have hfits := hroom.fits
  obtain ⟨hencodable, -⟩ := encodable_of_sliced hfields hbody
  have hroom4 : Room alloc (writer.bytes.length + 4) := ⟨hroom.alloc, by omega⟩
  obtain ⟨started, hbegin, hstarted⟩ := writerBeginLength_eq hroom4
  refine ⟨writer.bytes.length, started, hbegin, fun appended happended => ?_⟩
  rw [hstarted, List.append_assoc] at happended
  have hlen := congrArg List.length happended
  rw [List.length_append, List.length_append, length_leBytes] at hlen
  obtain ⟨finished, hend, hbytes⟩ := writerEndIndexedMessage_eq happended (length_leBytes 4 0)
    hfields hbody ⟨hroom.alloc, by omega⟩
  have hparse := messageIndexParse_eq (finished.bytes.drop writer.bytes.length)
  have htake : finished.bytes.take writer.bytes.length = writer.bytes := by
    rw [hbytes, List.take_left]
  rw [hbytes, List.drop_left, decode_encode hencodable] at hparse
  refine ⟨finished, ?_⟩
  rw [htake, hbytes, List.drop_left]
  refine ⟨_, hend, rfl, hparse, rfl, ?_, ?_⟩
  · intro tag _ htag hnot
    exact messageIndexField_encode_absent hencodable htag hnot
  · intro r hr hr'
    refine ⟨_, messageIndexField_encode_present hencodable hr hr', rfl, rfl, ?_⟩
    refine bytes_encode ?_ ?_
    · have hok := (decode_eq_some.mp (decode_encode hencodable)).2 r hr
      rw [Decoded.FieldOk, fieldStart_encode hencodable hr', fieldEnd_encode hencodable hr'] at hok
      exact hok.1
    · have hok := (decode_eq_some.mp (decode_encode hencodable)).2 r hr
      rw [Decoded.FieldOk, fieldStart_encode hencodable hr', fieldEnd_encode hencodable hr',
        encoded_payloadSize] at hok
      exact hok.2

/-- A message with the tags 1 and 40, in a block directory. -/
theorem indexedMessage_roundTrip_blocks :
    ∃ position started, writerBeginLength (fun _ => true) ⟨[], 0, Nat.le_refl 0⟩ =
        .ok (position, started) ∧
      ∀ appended : Writer, appended.bytes = started.bytes ++ [10, 20, 30] →
        ∃ finished index,
          writerEndIndexedMessage (fun _ => true) appended position (position + 4)
            [(1, 0), (40, 2)] = .ok finished ∧
          messageIndexParse (finished.bytes.drop position) = .ok index ∧
          messageIndexField index 2 = .ok none ∧ ∃ view,
            messageIndexField index 40 = .ok (some view) ∧
            view.bytes (finished.bytes.drop position) = [30] := by
  obtain ⟨position, started, hbegin, hend⟩ := indexedMessage_roundTrip (fun _ => true)
    ⟨[], 0, Nat.le_refl 0⟩ [10, 20, 30] [1, 40] [0, 2]
    ⟨⟨by decide, by decide⟩, rfl, by rintro _ ⟨⟩; rfl, by decide, by decide, by decide⟩
    (by decide) ⟨fun _ => rfl, by decide⟩
  refine ⟨position, started, hbegin, fun appended happended => ?_⟩
  obtain ⟨finished, index, hfinished, -, hparse, -, habsent, hpresent⟩ := hend appended happended
  obtain ⟨view, hview, -, -, hbytes⟩ := hpresent 1 (by decide) (by decide)
  exact ⟨finished, index, hfinished, hparse, habsent 2 (by decide) (by decide) (by decide), view,
    hview, hbytes⟩

/-! ## Lazy and eager indexing -/

/-- The view lies between the length prefix and the boundaries. -/
def InPayload (index : MessageIndex) (view : View) : Prop :=
  wireSizeLen ≤ view.start ∧ view.start + view.length ≤ index.boundaries

/-- An accessor refuses the slice, or answers with a view inside the payload. -/
def Contained (index : MessageIndex) (out : Outcome View) : Prop :=
  out = .error malformed ∨ out = .error invalid ∨ ∃ view, out = .ok view ∧ InPayload index view

/-- The iterators a caller can hold: a fresh one, and what calls leave. -/
inductive IteratorState (index : MessageIndex) : MessageFieldIterator → Prop where
  | init {it} (h : messageFieldIteratorInit index = .ok it) : IteratorState index it
  | nextTag {it it' tag} (hit : IteratorState index it)
      (h : messageFieldIteratorNextTag it = .ok (tag, it')) : IteratorState index it'
  | next {it it' answer} (hit : IteratorState index it)
      (h : messageFieldIteratorNext it = .ok (answer, it')) : IteratorState index it'

section Lazy

variable {bs : List UInt8} {d : Decoded} (h : d.Sound bs)

include h

theorem sliceAt_contained (r : Nat) : Contained (indexOf bs d) (sliceAt bs d r) := by
  unfold sliceAt
  by_cases hok : d.FieldOk bs r
  · have hl := h.layout
    obtain ⟨hle, hpay⟩ := hok
    rw [if_pos ⟨hle, hpay⟩]
    refine Or.inr (Or.inr ⟨_, rfl, Nat.le_add_right 4 _, ?_⟩)
    change 4 + d.fieldStart bs r + (d.fieldEnd bs r - d.fieldStart bs r) ≤ d.boundaries
    unfold Decoded.payloadSize at hpay
    omega
  · rw [if_neg hok]
    exact Or.inl rfl

theorem messageFieldAtRank_contained (r : Nat) :
    Contained (indexOf bs d) (messageFieldAtRank (indexOf bs d) r) := by
  rw [messageFieldAtRank_eq h]
  split
  · exact sliceAt_contained h r
  · exact Or.inr (Or.inl rfl)

theorem messageFieldIteratorNextTag_iterating {it : MessageFieldIterator}
    (hit : Iterating bs d it) :
    ∃ tag it', messageFieldIteratorNextTag it = .ok (tag, it') ∧ Iterating bs d it' := by
  rcases Nat.eq_or_lt_of_le hit.rank with hend | hlt
  · refine ⟨none, it, ?_, hit⟩
    rw [messageFieldIteratorNextTag, if_pos (by rw [hit.index]; exact hend)]
    rfl
  · obtain ⟨it', hnext, hit', -⟩ := messageFieldIteratorNextTag_step h hit hlt
    exact ⟨_, it', hnext, hit'⟩

theorem messageFieldIteratorNext_iterating {it : MessageFieldIterator} (hit : Iterating bs d it) :
    ∃ answer it', messageFieldIteratorNext it = .ok (answer, it') ∧ Iterating bs d it' ∧
      ∀ tag out, answer = some (tag, out) → Contained (indexOf bs d) out := by
  obtain ⟨tag, it', hnext, hit'⟩ := messageFieldIteratorNextTag_iterating h hit
  refine ⟨tag.map fun tag => (tag, messageFieldAtRank it'.index ((it'.rank - 1) % 256)), it', ?_,
    hit', ?_⟩
  · rw [messageFieldIteratorNext, hnext]
    rfl
  · rintro t out hanswer
    cases tag with
    | none => cases hanswer
    | some tag =>
      obtain ⟨rfl, rfl⟩ := Prod.mk.inj (Option.some.inj hanswer)
      rw [hit'.index]
      exact messageFieldAtRank_contained h _

theorem IteratorState.iterating {it : MessageFieldIterator}
    (hit : IteratorState (indexOf bs d) it) : Iterating bs d it := by
  induction hit with
  | init hinit =>
    obtain ⟨it, hit, hiter, -⟩ := messageFieldIteratorInit_iterating h
    obtain rfl := Except.ok.inj (hit.symm.trans hinit)
    exact hiter
  | nextTag _ hnext ih =>
    obtain ⟨tag, it', hnext', hiter⟩ := messageFieldIteratorNextTag_iterating h ih
    obtain ⟨-, rfl⟩ := Prod.mk.inj (Except.ok.inj (hnext'.symm.trans hnext))
    exact hiter
  | next _ hnext ih =>
    obtain ⟨answer, it', hnext', hiter, -⟩ := messageFieldIteratorNext_iterating h ih
    obtain ⟨-, rfl⟩ := Prod.mk.inj (Except.ok.inj (hnext'.symm.trans hnext))
    exact hiter

end Lazy

/-- The lazy reader and the validating one. Neither faults on any bytes. What the lazy one
accepts, the validating one accepts, with the same index, once every slice can be read; and
each accessor and iterator refuses or answers with a view inside the payload. -/
theorem messageIndex_lazy (bs : List UInt8) :
    (messageIndexParse bs ≠ .error .fault ∧ messageIndexBegin bs ≠ .error .fault) ∧
    (∀ index, messageIndexParse bs = .ok index → messageIndexBegin bs = .ok index) ∧
    (∀ index, messageIndexBegin bs = .ok index →
      (∀ rank < index.fieldCount, ∃ view, messageIndexFieldAt index rank = .ok view) →
      messageIndexParse bs = .ok index) ∧
    ∀ index, messageIndexBegin bs = .ok index →
      (∀ rank, Contained index (messageIndexFieldAt index rank)) ∧
      (∀ tag ≤ 255, messageIndexField index tag = .ok none ∨
        ∃ out, messageIndexField index tag = some <$> out ∧ Contained index out) ∧
      (∃ it, messageFieldIteratorInit index = .ok it) ∧
      ∀ it, IteratorState index it →
        (∃ tag it', messageFieldIteratorNextTag it = .ok (tag, it')) ∧
        ∃ answer it', messageFieldIteratorNext it = .ok (answer, it') ∧
          ∀ tag out, answer = some (tag, out) → Contained index out := by
  rw [messageIndexParse_eq, messageIndexBegin_eq]
  refine ⟨⟨orRaise_total _, orRaise_total _⟩, ?_, ?_, ?_⟩
  · intro index hparse
    obtain ⟨d, hd, rfl⟩ := orRaise_map_eq_ok hparse
    rw [decodeDirectory_eq_some.mpr (decode_eq_some.mp hd).1]
    rfl
  · intro index hbegin hslices
    obtain ⟨d, hd, rfl⟩ := orRaise_map_eq_ok hbegin
    have hsound := decodeDirectory_eq_some.mp hd
    have hok : d.BoundariesOk bs := by
      intro r hr
      obtain ⟨view, hview⟩ := hslices r hr
      rw [messageIndexFieldAt, messageFieldAtRank_eq hsound, if_pos hr, sliceAt] at hview
      by_contra hbad
      rw [if_neg hbad] at hview
      cases hview
    rw [decode_eq_some.mpr ⟨hsound, hok⟩]
    rfl
  · intro index hbegin
    obtain ⟨d, hd, rfl⟩ := orRaise_map_eq_ok hbegin
    have hsound := decodeDirectory_eq_some.mp hd
    refine ⟨messageFieldAtRank_contained hsound, fun tag htag => ?_, ?_, fun it hit => ?_⟩
    · rw [messageIndexField_eq hsound htag]
      cases d.rank? tag with
      | none => exact Or.inl rfl
      | some r => exact Or.inr ⟨_, rfl, sliceAt_contained hsound r⟩
    · obtain ⟨it, hit, -⟩ := messageFieldIteratorInit_iterating hsound
      exact ⟨it, hit⟩
    · have hiter := IteratorState.iterating hsound hit
      obtain ⟨tag, it', hnext, -⟩ := messageFieldIteratorNextTag_iterating hsound hiter
      obtain ⟨answer, it'', hnext', -, hcont⟩ := messageFieldIteratorNext_iterating hsound hiter
      exact ⟨⟨tag, it', hnext⟩, answer, it'', hnext', hcont⟩

end Bebop.C
