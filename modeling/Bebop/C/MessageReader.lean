import Bebop.C.MessageDecode

/-!
# Bebop — message indexes read from a stream

`bebop_reader_read_message_index` and `bebop_reader_begin_message_index` of
`bebop_wire.c`, which take an index off a reader. A reader is the bytes between `start`
and `end` and the position `current`. Both functions go back when the length is refused,
and stay behind the length prefix when the index is (`readMessageIndex_atomic_iff`).
-/

namespace Bebop.C

open Checked Bytes Message

/-- `Bebop_Reader` -/
structure Reader where
  bytes : List UInt8
  current : Nat
  current_le : current ≤ bytes.length

namespace Reader

/-- `bebop_reader_remaining` -/
def remaining (reader : Reader) : Nat := reader.bytes.length - reader.current

def rest (reader : Reader) : List UInt8 := reader.bytes.drop reader.current

/-- `reader->current += count`, where there are so many bytes. -/
def advance (reader : Reader) (count : Nat) (h : count ≤ reader.remaining) : Reader :=
  ⟨reader.bytes, reader.current + count, by
    have hle := reader.current_le
    unfold remaining at h
    omega⟩

@[simp] theorem advance_bytes (reader : Reader) (count : Nat) (h : count ≤ reader.remaining) :
    (reader.advance count h).bytes = reader.bytes := rfl

@[simp] theorem advance_current (reader : Reader) (count : Nat) (h : count ≤ reader.remaining) :
    (reader.advance count h).current = reader.current + count := rfl

theorem length_rest (reader : Reader) : reader.rest.length = reader.remaining := List.length_drop

end Reader

/-- `bebop_reader_read_u32` -/
def readerReadU32 (reader : Reader) : Outcome Nat × Reader :=
  if h : 4 ≤ reader.remaining then (.ok (leAt reader.rest 0 4), reader.advance 4 h)
  else (.error malformed, reader)

/-- `bebop_reader_read_length`. It has moved on when it refuses a length. -/
def readerReadLength (reader : Reader) : Outcome Nat × Reader :=
  match readerReadU32 reader with
  | (.error e, reader) => (.error e, reader)
  | (.ok length, reader) =>
    if length > reader.remaining then (.error malformed, reader) else (.ok length, reader)

/-- What both functions have in common; `parse` reads the index. -/
def readIndex (parse : List UInt8 → Outcome MessageIndex) (reader : Reader) : Outcome MessageIndex × Reader :=
  match readerReadLength reader with
  | (.error e, _) => (.error e, reader)
  | (.ok bodyLength, behind) =>
    if bodyLength > behind.remaining then (.error malformed, reader)
    else
      let encoded := reader.rest.take (bodyLength + wireSizeLen)
      match parse encoded with
      -- only here is `current` set from `start`
      | .ok index =>
        if h : encoded.length ≤ reader.remaining then (.ok index, reader.advance encoded.length h)
        else (.error .fault, reader)
      | .error e => (.error e, behind)

/-- `bebop_reader_read_message_index`, with the arguments present. -/
def readMessageIndex (reader : Reader) : Outcome MessageIndex × Reader := readIndex messageIndexParse reader

/-- `bebop_reader_begin_message_index`, with the arguments present. -/
def beginMessageIndex (reader : Reader) : Outcome MessageIndex × Reader := readIndex messageIndexBegin reader

def Reader.bodyLength (reader : Reader) : Nat := leAt reader.rest 0 4

/-- There is a length prefix, and as many bytes behind it. -/
def Reader.Framed (reader : Reader) : Prop := 4 ≤ reader.remaining ∧ reader.bodyLength ≤ reader.remaining - 4

instance (reader : Reader) : Decidable reader.Framed := inferInstanceAs (Decidable (_ ∧ _))

def Reader.frame (reader : Reader) : List UInt8 := reader.rest.take (reader.bodyLength + wireSizeLen)

/-- A read that fails leaves the reader as it was; else it is behind the body. -/
def Atomic (read : Reader → Outcome MessageIndex × Reader) (reader : Reader) : Prop :=
  (read reader).2.bytes = reader.bytes ∧
    match (read reader).1 with
    | .ok _ => (read reader).2.current = reader.current + (4 + reader.bodyLength)
    | .error _ => (read reader).2.current = reader.current

instance (read : Reader → Outcome MessageIndex × Reader) (reader : Reader) : Decidable (Atomic read reader) := by
  unfold Atomic
  cases (read reader).1 <;> infer_instance

/-! ## The common text -/

section

variable {parse : List UInt8 → Outcome MessageIndex} {reader : Reader}

theorem readIndex_unframed (h : ¬reader.Framed) : readIndex parse reader = (.error malformed, reader) := by
  unfold readIndex readerReadLength readerReadU32
  by_cases hroom : 4 ≤ reader.remaining
  · rw [dif_pos hroom]
    have hbehind : (reader.advance 4 hroom).remaining = reader.remaining - 4 := Nat.sub_add_eq ..
    have hlong : leAt reader.rest 0 4 > (reader.advance 4 hroom).remaining := by
      rw [hbehind]
      exact Nat.not_le.mp fun hle => h ⟨hroom, hle⟩
    simp only [if_pos hlong]
  · rw [dif_neg hroom]

theorem length_frame (h : reader.Framed) : reader.frame.length = 4 + reader.bodyLength := by
  obtain ⟨hroom, hbody⟩ := h
  rw [Reader.frame, List.length_take, Reader.length_rest, wireSizeLen_eq]
  omega

theorem readIndex_framed (h : reader.Framed) : readIndex parse reader =
    match parse reader.frame with
    | .ok index => (.ok index, reader.advance (4 + reader.bodyLength) (by have := h.1; have := h.2; omega))
    | .error e => (.error e, reader.advance 4 h.1) := by
  have hlength := length_frame h
  obtain ⟨hroom, hbody⟩ := h
  unfold readIndex readerReadLength readerReadU32
  rw [dif_pos hroom]
  have hbehind : (reader.advance 4 hroom).remaining = reader.remaining - 4 := Nat.sub_add_eq ..
  have hshort : ¬leAt reader.rest 0 4 > (reader.advance 4 hroom).remaining := by
    rw [hbehind]
    exact Nat.not_lt.mpr hbody
  simp only [if_neg hshort]
  change (match parse reader.frame with
    | .ok index =>
      if h : reader.frame.length ≤ reader.remaining then (.ok index, reader.advance reader.frame.length h)
      else (.error .fault, reader)
    | .error e => (.error e, reader.advance 4 hroom) : Outcome MessageIndex × Reader) = _
  cases parse reader.frame with
  | error e => rfl
  | ok index =>
    have hfits : 4 + reader.bodyLength ≤ reader.remaining := by omega
    simp only [hlength, dif_pos hfits]

theorem atomic_readIndex_iff :
    Atomic (readIndex parse) reader ↔ ¬(reader.Framed ∧ ∃ e, parse reader.frame = .error e) := by
  unfold Atomic
  by_cases h : reader.Framed
  swap
  · rw [readIndex_unframed h]
    exact iff_of_true ⟨rfl, rfl⟩ fun hboth => h hboth.1
  rw [readIndex_framed h]
  cases hparse : parse reader.frame with
  | ok index =>
    refine iff_of_true ⟨rfl, rfl⟩ ?_
    rintro ⟨-, e, he⟩
    cases he
  | error e =>
    refine iff_of_false (fun ⟨_, hcurrent⟩ => ?_) fun hnot => hnot ⟨h, e, rfl⟩
    change reader.current + 4 = reader.current at hcurrent
    omega

end

theorem orRaise_error_iff {ε α : Type} {e : Stop ε} {x : Option α} : (∃ e', orRaise e x = .error e') ↔ x = none := by
  cases x with
  | none => exact iff_of_true ⟨e, rfl⟩ rfl
  | some a =>
    refine iff_of_false (fun ⟨_, h⟩ => ?_) nofun
    cases h

/-! ## Result -/

/-- No prefix, one that announces more than there is, or a frame that is an index. -/
theorem readMessageIndex_atomic_iff (reader : Reader) :
    (Atomic readMessageIndex reader ↔ (reader.Framed → (decode reader.frame).isSome)) ∧
      (Atomic beginMessageIndex reader ↔ (reader.Framed → (decodeDirectory reader.frame).isSome)) := by
  have hparse : (∃ e, messageIndexParse reader.frame = .error e) ↔ decode reader.frame = none := by
    rw [messageIndexParse_eq, orRaise_error_iff, Option.map_eq_none_iff]
  have hbegin : (∃ e, messageIndexBegin reader.frame = .error e) ↔ decodeDirectory reader.frame = none := by
    rw [messageIndexBegin_eq, orRaise_error_iff, Option.map_eq_none_iff]
  constructor
  · show Atomic (readIndex messageIndexParse) reader ↔ _
    rw [atomic_readIndex_iff, hparse, not_and, ← ne_eq, Option.ne_none_iff_isSome]
  · show Atomic (readIndex messageIndexBegin) reader ↔ _
    rw [atomic_readIndex_iff, hbegin, not_and, ← ne_eq, Option.ne_none_iff_isSome]

/-- A body of one byte, which is no control byte: both reads fail behind the prefix. -/
theorem readMessageIndex_stays_behind :
    ∃ reader : Reader, (readMessageIndex reader).1 = .error malformed ∧ (beginMessageIndex reader).1 = .error malformed ∧
      reader.current = 0 ∧ (readMessageIndex reader).2.current = 4 ∧ (beginMessageIndex reader).2.current = 4 ∧
      ¬Atomic readMessageIndex reader ∧ ¬Atomic beginMessageIndex reader := by
  refine ⟨⟨[1, 0, 0, 0, 0xFF], 0, by decide⟩, ?_⟩
  decide

end Bebop.C
