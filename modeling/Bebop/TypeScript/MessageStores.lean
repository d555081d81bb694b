import Bebop.TypeScript.MessageWriter
import Bebop.TypeScript.StringCodec

/-!
# Bebop — what the TypeScript writer stores

A part of a message reaches the buffer in one of two ways. Bytes are stored after the
space for them was reserved. A number is stored through the array or the view that was
there before, and lands only where that one had the room (`writeOffset_performs`);
otherwise a byte is lost, and a wider number is not written at all.
-/

namespace Bebop.TypeScript

open Checked Bytes

/-! ## Capacities -/

/-- A capacity that has been doubled until it holds `length` bytes. -/
def doubled (length : Nat) : (fuel capacity : Nat) → Nat
  | 0, capacity => capacity
  | fuel + 1, capacity =>
    if capacity < length then doubled length fuel (capacity * 2) else capacity

/-- The capacity of the buffer after `guaranteeBufferLength`. -/
def enlarged (capacity length : Nat) : Nat := doubled length (length + 1) capacity

theorem enlarged_of_le {capacity length : Nat} (h : length ≤ capacity) :
    enlarged capacity length = capacity := if_neg (Nat.not_lt.mpr h)

theorem nextLength_eq_doubled {length fuel capacity next : Nat}
    (h : BebopWriter.nextLength length fuel capacity = .ok next) :
    next = doubled length fuel capacity := by
  induction fuel generalizing capacity with
  | zero => cases h
  | succ fuel ih =>
    rw [BebopWriter.nextLength] at h
    rw [doubled]
    by_cases hlt : capacity < length
    · rw [if_pos hlt] at h ⊢
      exact ih h
    · rw [if_neg hlt] at h ⊢
      exact (Except.ok.inj h).symm

theorem le_enlarged {capacity : Nat} (hpos : 0 < capacity) (length : Nat) :
    length ≤ enlarged capacity length := by
  obtain ⟨next, hnext, hle⟩ := BebopWriter.nextLength_ok hpos (Nat.succ_pos length)
    (Nat.lt_add_left capacity (Nat.lt_succ_self length))
  rw [enlarged, ← nextLength_eq_doubled hnext]
  exact hle

/-- How large the buffer is and how much of it is written. -/
structure Cursor where
  capacity : Nat
  length : Nat
  deriving DecidableEq, Repr

inductive Store where
  /-- Bytes that are stored in the buffer that was reserved for them. -/
  | bytes (size : Nat)
  /-- A number that is stored in the buffer from before. -/
  | number (value width : Nat)
  deriving DecidableEq, Repr

def Store.size : Store → Nat
  | .bytes size => size
  | .number _ width => width

/-- It needs no longer buffer, or loses a zero byte that is there anyway. -/
def Store.Kept : Store → Cursor → Prop
  | .bytes _, _ => True
  | .number value width, cursor =>
    cursor.length + width ≤ cursor.capacity ∨ (width = 1 ∧ value = 0)

def Cursor.advance (cursor : Cursor) (size : Nat) : Cursor :=
  ⟨enlarged cursor.capacity (cursor.length + size), cursor.length + size⟩

def Cursor.run (cursor : Cursor) : List Store → Cursor
  | [] => cursor
  | store :: rest => (cursor.advance store.size).run rest

def Kept : List Store → Cursor → Prop
  | [], _ => True
  | store :: rest, cursor => store.Kept cursor ∧ Kept rest (cursor.advance store.size)

theorem Cursor.run_append (a b : List Store) (cursor : Cursor) :
    cursor.run (a ++ b) = (cursor.run a).run b := by
  induction a generalizing cursor with
  | nil => rfl
  | cons store rest ih => exact ih _

theorem kept_append {a b : List Store} {cursor : Cursor} :
    Kept (a ++ b) cursor ↔ Kept a cursor ∧ Kept b (cursor.run a) := by
  induction a generalizing cursor with
  | nil => exact ⟨fun h => ⟨trivial, h⟩, And.right⟩
  | cons store rest ih =>
    rw [List.cons_append, Kept, Kept, ih, and_assoc]
    rfl

def storesSize (stores : List Store) : Nat := (stores.map Store.size).sum

theorem kept_of_room {stores : List Store} {cursor : Cursor}
    (h : cursor.length + storesSize stores ≤ cursor.capacity) : Kept stores cursor := by
  induction stores generalizing cursor with
  | nil => trivial
  | cons store rest ih =>
    rw [storesSize, List.map_cons, List.sum_cons] at h
    have hroom : enlarged cursor.capacity (cursor.length + store.size) = cursor.capacity :=
      enlarged_of_le (by omega)
    refine ⟨?_, ih ?_⟩
    · cases store with
      | bytes size => trivial
      | number value width => exact .inl (by simp only [Store.size] at h; omega)
    · simp only [Cursor.advance, hroom, storesSize]
      omega

/-! ## The writer -/

namespace MessageWriter

def cursor (writer : MessageWriter) : Cursor := ⟨writer.buffer.length, writer.length⟩

/-- The same messages are open, with the same fields but for the last ones. -/
structure Marked (writer writer' : MessageWriter) (tags offsets : List Nat) : Prop where
  tags : writer'.messageTags = writer.messageTags ++ tags
  offsets : writer'.messageOffsets = writer.messageOffsets ++ offsets
  tagStarts : writer'.messageTagStarts = writer.messageTagStarts
  payloadStarts : writer'.messagePayloadStarts = writer.messagePayloadStarts

theorem Marked.refl (writer : MessageWriter) : Marked writer writer [] [] :=
  ⟨(List.append_nil _).symm, (List.append_nil _).symm, rfl, rfl⟩

theorem Marked.trans {w₁ w₂ w₃ : MessageWriter} {tags offsets tags' offsets' : List Nat}
    (h : Marked w₁ w₂ tags offsets) (h' : Marked w₂ w₃ tags' offsets') :
    Marked w₁ w₃ (tags ++ tags') (offsets ++ offsets') where
  tags := by rw [h'.tags, h.tags, List.append_assoc]
  offsets := by rw [h'.offsets, h.offsets, List.append_assoc]
  tagStarts := h'.tagStarts.trans h.tagStarts
  payloadStarts := h'.payloadStarts.trans h.payloadStarts

/-- The bytes the stores stand for are appended, exactly when nothing is lost. -/
structure Stored (writer writer' : MessageWriter) (stores : List Store) (bytes : List UInt8) :
    Prop where
  growing : writer'.fixed = false
  cursor : writer'.cursor = writer.cursor.run stores
  appended : ∃ data, data.length = bytes.length ∧ writer'.toArray = writer.toArray ++ data ∧
    (data = bytes ↔ Kept stores writer.cursor)

theorem length_toArray (writer : MessageWriter) : writer.toArray.length = writer.length := by
  rw [BebopWriter.toArray, List.length_take]
  exact Nat.min_eq_left writer.bounded

theorem Stored.length {writer writer' : MessageWriter} {stores : List Store} {bytes : List UInt8}
    (h : Stored writer writer' stores bytes) : writer'.length = writer.length + bytes.length := by
  obtain ⟨data, hsize, harray, -⟩ := h.appended
  have hlength := congrArg List.length harray
  rwa [List.length_append, length_toArray, length_toArray, hsize] at hlength

theorem Stored.refl {writer : MessageWriter} (h : writer.fixed = false) :
    Stored writer writer [] [] :=
  ⟨h, rfl, [], rfl, (List.append_nil _).symm, fun _ => trivial, fun _ => rfl⟩

theorem Stored.trans {w₁ w₂ w₃ : MessageWriter} {stores stores' : List Store}
    {bytes bytes' : List UInt8} (h : Stored w₁ w₂ stores bytes) (h' : Stored w₂ w₃ stores' bytes') :
    Stored w₁ w₃ (stores ++ stores') (bytes ++ bytes') := by
  obtain ⟨data, hsize, harray, hkept⟩ := h.appended
  obtain ⟨data', hsize', harray', hkept'⟩ := h'.appended
  refine ⟨h'.growing, ?_, data ++ data', ?_, ?_, ?_⟩
  · rw [h'.cursor, h.cursor, Cursor.run_append]
  · rw [List.length_append, List.length_append, hsize, hsize']
  · rw [harray', harray, List.append_assoc]
  · -- parts of the same lengths are equal one by one
    rw [kept_append, ← h.cursor, ← hkept, ← hkept']
    exact ⟨fun heq => List.append_inj heq hsize, fun ⟨hl, hr⟩ => by rw [hl, hr]⟩

/-- It returns within the limits, and if nothing is lost, with what it should append. -/
structure Performs (writer : MessageWriter) (out : Rpc.Attempt MessageWriter) (limits : Prop)
    (stores : List Store) (bytes : List UInt8) (tags offsets : List Nat) : Prop where
  result : ∀ writer', out = .ok writer' →
    limits ∧ Stored writer writer' stores bytes ∧ Marked writer writer' tags offsets
  returns : limits → Kept stores writer.cursor → ∃ writer', out = .ok writer'

theorem performs_return {writer : MessageWriter} (h : writer.fixed = false) :
    Performs writer (.ok writer) True [] [] [] [] where
  result writer' hout := by
    obtain rfl := Except.ok.inj hout
    exact ⟨trivial, .refl h, .refl writer⟩
  returns _ _ := ⟨writer, rfl⟩

theorem performs_raised {writer : MessageWriter} {error : Stop Rpc.Thrown} {limits : Prop}
    {stores : List Store} {bytes : List UInt8} {tags offsets : List Nat} (h : ¬limits) :
    Performs writer (.error error) limits stores bytes tags offsets where
  result writer' hout := by cases hout
  returns hlimits := absurd hlimits h

theorem Performs.bind {writer : MessageWriter} {out : Rpc.Attempt MessageWriter}
    {f : MessageWriter → Rpc.Attempt MessageWriter} {limits limits' : Prop}
    {stores stores' : List Store} {bytes bytes' : List UInt8}
    {tags offsets tags' offsets' : List Nat}
    (h : Performs writer out limits stores bytes tags offsets)
    (h' : ∀ writer', Stored writer writer' stores bytes → Marked writer writer' tags offsets →
      Performs writer' (f writer') limits' stores' bytes' tags' offsets') :
    Performs writer (out >>= f) (limits ∧ limits') (stores ++ stores') (bytes ++ bytes')
      (tags ++ tags') (offsets ++ offsets') where
  result writer'' hout := by
    obtain ⟨writer', hfirst, hrest⟩ := bind_ok hout
    obtain ⟨hlimits, hstored, hmarked⟩ := h.result writer' hfirst
    obtain ⟨hlimits', hstored', hmarked'⟩ := (h' writer' hstored hmarked).result writer'' hrest
    exact ⟨⟨hlimits, hlimits'⟩, hstored.trans hstored', hmarked.trans hmarked'⟩
  returns hlimits hkept := by
    rw [kept_append] at hkept
    obtain ⟨writer', hfirst⟩ := h.returns hlimits.1 hkept.1
    obtain ⟨-, hstored, hmarked⟩ := h.result writer' hfirst
    obtain ⟨writer'', hrest⟩ := (h' writer' hstored hmarked).returns hlimits.2 (by
      rw [hstored.cursor]
      exact hkept.2)
    exact ⟨writer'', by rw [hfirst, ok_bind, hrest]⟩

theorem Performs.mark_bind {writer : MessageWriter} {out : Rpc.Attempt MessageWriter}
    {f : MessageWriter → Rpc.Attempt MessageWriter} {limits limits' : Prop} {stores : List Store}
    {bytes : List UInt8} {tag offset : Nat} {tags offsets : List Nat}
    (h : Performs writer out limits [] [] [tag] [offset])
    (h' : ∀ writer', Stored writer writer' [] [] → Marked writer writer' [tag] [offset] →
      Performs writer' (f writer') limits' stores bytes tags offsets) :
    Performs writer (out >>= f) (limits ∧ limits') stores bytes (tag :: tags) (offset :: offsets) :=
  h.bind h'

theorem Performs.payload_bind {writer : MessageWriter} {out : Rpc.Attempt MessageWriter}
    {f : MessageWriter → Rpc.Attempt MessageWriter} {limits limits' : Prop}
    {stores stores' : List Store} {bytes bytes' : List UInt8} {tags offsets : List Nat}
    (h : Performs writer out limits stores bytes [] [])
    (h' : ∀ writer', Stored writer writer' stores bytes → Marked writer writer' [] [] →
      Performs writer' (f writer') limits' stores' bytes' tags offsets) :
    Performs writer (out >>= f) (limits ∧ limits') (stores ++ stores') (bytes ++ bytes') tags
      offsets :=
  h.bind h'

theorem Performs.congr {writer : MessageWriter} {out : Rpc.Attempt MessageWriter}
    {limits limits' : Prop} {stores : List Store} {bytes : List UInt8} {tags offsets : List Nat}
    (h : Performs writer out limits stores bytes tags offsets) (hiff : limits ↔ limits') :
    Performs writer out limits' stores bytes tags offsets where
  result writer' hout := by
    rw [← hiff]
    exact h.result writer' hout
  returns hlimits := h.returns (hiff.mpr hlimits)

/-! ## Reservations -/

theorem guaranteeBufferLength_growing {writer : BebopWriter} (h : writer.fixed = false)
    (length : Nat) : ∃ grown, writer.guaranteeBufferLength length = .ok grown ∧
      grown.buffer = writer.buffer ++
        List.replicate (enlarged writer.buffer.length length - writer.buffer.length) 0 ∧
      grown.length = writer.length ∧ grown.fixed = false := by
  unfold BebopWriter.guaranteeBufferLength
  by_cases hroom : length ≤ writer.buffer.length
  · refine ⟨writer, if_pos hroom, ?_, rfl, h⟩
    rw [enlarged_of_le hroom, Nat.sub_self, List.replicate_zero, List.append_nil]
  · obtain ⟨next, hnext, -⟩ := BebopWriter.nextLength_ok (writer.growable h) (Nat.succ_pos length)
      (Nat.lt_add_left writer.buffer.length (Nat.lt_succ_self length))
    refine ⟨writer.grow next, ?_, ?_, rfl, h⟩
    · rw [if_neg hroom, if_neg (by rw [h]; decide), hnext]
      rfl
    · rw [enlarged, ← nextLength_eq_doubled hnext]
      rfl

structure Reserved (writer reserved : MessageWriter) (byteCount : Nat) : Prop where
  buffer : reserved.buffer = writer.buffer ++ List.replicate
    (enlarged writer.buffer.length (writer.length + byteCount) - writer.buffer.length) 0
  length : reserved.length = writer.length + byteCount
  growing : reserved.fixed = false
  marked : Marked writer reserved [] []

theorem reserve_growing {writer : MessageWriter} (h : writer.fixed = false) (byteCount : Nat) :
    ∃ reserved, writer.reserve byteCount = .ok (writer.length, reserved) ∧
      Reserved writer reserved byteCount := by
  obtain ⟨grown, hgrown, hbuffer, -, hfixed⟩ :=
    guaranteeBufferLength_growing h (writer.length + byteCount)
  have hroom : writer.length + byteCount ≤ grown.buffer.length := by
    have hle := le_enlarged (writer.growable h) (writer.length + byteCount)
    rw [hbuffer, List.length_append, List.length_replicate]
    omega
  obtain ⟨set, hset, hsetBuffer, hsetLength, hsetFixed⟩ := BebopWriter.setLength_of_le hroom
  refine ⟨{ writer with toBebopWriter := set }, ?_, hsetBuffer.trans hbuffer, hsetLength,
    hsetFixed.trans hfixed, ⟨(List.append_nil _).symm, (List.append_nil _).symm, rfl, rfl⟩⟩
  rw [reserve, BebopWriter.reserve, hgrown, ok_bind, hset]
  rfl

theorem Reserved.capacity {writer reserved : MessageWriter} {byteCount : Nat}
    (h : Reserved writer reserved byteCount) (hgrowing : writer.fixed = false) :
    reserved.buffer.length = enlarged writer.buffer.length (writer.length + byteCount) := by
  have hle := le_enlarged (writer.growable hgrowing) (writer.length + byteCount)
  have hbounded := writer.bounded
  rw [h.buffer, List.length_append, List.length_replicate]
  by_cases hroom : writer.length + byteCount ≤ writer.buffer.length
  · rw [enlarged_of_le hroom]
    omega
  · omega

theorem Reserved.cursor {writer reserved : MessageWriter} {byteCount : Nat}
    (h : Reserved writer reserved byteCount) (hgrowing : writer.fixed = false) :
    reserved.cursor = writer.cursor.advance byteCount := by
  rw [MessageWriter.cursor, h.capacity hgrowing, h.length]
  rfl

theorem Reserved.toArray {writer reserved : MessageWriter} {byteCount : Nat}
    (h : Reserved writer reserved byteCount) :
    ∃ slot : List UInt8, slot.length = byteCount ∧ reserved.toArray = writer.toArray ++ slot := by
  have hbounded := writer.bounded
  refine ⟨(reserved.toArray).drop writer.length, ?_, ?_⟩
  · rw [List.length_drop, length_toArray, h.length, Nat.add_sub_cancel_left]
  · have hfront : reserved.toArray.take writer.length = writer.toArray := by
      rw [BebopWriter.toArray, BebopWriter.toArray, h.length, List.take_take,
        Nat.min_eq_left (Nat.le_add_right ..), h.buffer, List.take_append_of_le_length hbounded]
    rw [← hfront, List.take_append_drop]

theorem Reserved.storeAll {writer reserved : MessageWriter} {data : List UInt8}
    (h : Reserved writer reserved data.length) :
    let stored := reserved.storeAll writer.length (data.map UInt8.toNat)
    stored.toArray = writer.toArray ++ data ∧ stored.buffer.length = reserved.buffer.length ∧
      stored.length = reserved.length ∧ stored.fixed = reserved.fixed := by
  have hbounded := reserved.bounded
  have hwriter := writer.bounded
  rw [h.length] at hbounded
  have hback : (data.map UInt8.toNat).map UInt8.ofNat = data := by
    rw [List.map_map]
    exact (List.map_congr_left fun b _ => UInt8.ofNat_toNat).trans (List.map_id _)
  obtain ⟨hbuffer, hlength, hfixed⟩ := reserved.storeAll_eq writer.length (data.map UInt8.toNat)
    (by rw [List.length_map]; exact hbounded)
  rw [hback, List.length_map] at hbuffer
  have hfront : reserved.buffer.take writer.length = writer.toArray := by
    rw [h.buffer, List.take_append_of_le_length hwriter]
    rfl
  refine ⟨?_, ?_, hlength, hfixed⟩
  · rw [BebopWriter.toArray, hbuffer, hlength, h.length, hfront, ← List.append_assoc]
    refine List.take_left' ?_
    rw [List.length_append, length_toArray]
  · rw [hbuffer, List.length_append, List.length_append, List.length_take, List.length_drop]
    omega

/-! ## Bytes and numbers -/

theorem writeBytes_performs {writer : MessageWriter} (h : writer.fixed = false)
    (data : List UInt8) :
    Performs writer (writer.writeBytes data) True [.bytes data.length] data [] [] := by
  have hdone : ∃ writer', writer.writeBytes data = .ok writer' ∧
      Stored writer writer' [.bytes data.length] data ∧ Marked writer writer' [] [] := by
    unfold writeBytes
    by_cases hnil : data.length = 0
    · rw [if_pos hnil]
      refine ⟨writer, rfl, ⟨h, ?_, data, rfl, ?_, fun _ => ⟨trivial, trivial⟩, fun _ => rfl⟩, .refl _⟩
      · have hroom := enlarged_of_le writer.bounded
        simp only [Cursor.run, Cursor.advance, Store.size, MessageWriter.cursor, hnil, Nat.add_zero,
          hroom]
      · rw [List.length_eq_zero_iff.mp hnil, List.append_nil]
    · obtain ⟨reserved, hreserve, hreserved⟩ := reserve_growing h data.length
      obtain ⟨harray, hcapacity, hlength, hfixed⟩ := hreserved.storeAll
      rw [if_neg hnil, hreserve, ok_bind]
      refine ⟨_, rfl, ⟨hfixed.trans hreserved.growing, ?_, data, rfl, harray,
        fun _ => ⟨trivial, trivial⟩, fun _ => rfl⟩, ?_⟩
      · have hcursor := hreserved.cursor h
        rw [MessageWriter.cursor] at hcursor ⊢
        rw [hcapacity, hlength, hcursor]
        rfl
      · exact ⟨hreserved.marked.tags, hreserved.marked.offsets, hreserved.marked.tagStarts,
          hreserved.marked.payloadStarts⟩
  obtain ⟨done, hcall, hstored, hmarked⟩ := hdone
  constructor
  · intro writer' hout
    obtain rfl := Except.ok.inj (hcall.symm.trans hout)
    exact ⟨trivial, hstored, hmarked⟩
  · exact fun _ _ => ⟨done, hcall⟩

theorem Reserved.number {writer reserved : MessageWriter} {value width : Nat}
    (h : Reserved writer reserved width) (hgrowing : writer.fixed = false)
    (hroom : writer.length + width ≤ writer.buffer.length) {stored : MessageWriter}
    (hstored : stored = { reserved with
      toBebopWriter := reserved.storeAll writer.length ((leBytes width value).map UInt8.toNat) }) :
    Stored writer stored [.number value width] (leBytes width value) ∧ Marked writer stored [] [] := by
  have hwidth : Reserved writer reserved (leBytes width value).length := by
    rwa [length_leBytes]
  obtain ⟨harray, hcapacity, hlength, hfixed⟩ := hwidth.storeAll
  subst hstored
  refine ⟨⟨hfixed.trans h.growing, ?_, leBytes width value, rfl, harray,
    fun _ => ⟨.inl hroom, trivial⟩, fun _ => rfl⟩, ?_⟩
  · have hcursor := h.cursor hgrowing
    rw [MessageWriter.cursor] at hcursor ⊢
    rw [hcapacity, hlength, hcursor]
    rfl
  · exact ⟨h.marked.tags, h.marked.offsets, h.marked.tagStarts, h.marked.payloadStarts⟩

theorem Reserved.lostByte {writer reserved : MessageWriter} {value : Nat}
    (h : Reserved writer reserved 1) (hgrowing : writer.fixed = false) (hvalue : value < 256)
    (hfull : ¬writer.length < writer.buffer.length) :
    Stored writer reserved [.number value 1] (leBytes 1 value) := by
  have hbounded := writer.bounded
  have hend : writer.length = writer.buffer.length := by omega
  have hlarge := le_enlarged (writer.growable hgrowing) (writer.length + 1)
  refine ⟨h.growing, (h.cursor hgrowing).trans rfl, [0], rfl, ?_, ?_⟩
  · have hone : (List.replicate (enlarged writer.buffer.length (writer.length + 1) -
        writer.buffer.length) (0 : UInt8)).take 1 = [0] := by
      rw [List.take_replicate, Nat.min_eq_left (by omega)]
      rfl
    have hall : writer.toArray = writer.buffer := by
      rw [BebopWriter.toArray, hend, List.take_length]
    rw [hend] at hone
    rw [hall, BebopWriter.toArray, h.buffer, h.length, List.take_append, List.take_of_length_le (by omega),
      hend, Nat.add_sub_cancel_left, hone]
  · constructor
    · intro hzero
      -- the byte is its own value
      have hbyte : (0 : UInt8) = UInt8.ofNat value := (List.cons.inj hzero).1
      have hnat := congrArg UInt8.toNat hbyte
      rw [UInt8.toNat_ofNat', Nat.mod_eq_of_lt hvalue] at hnat
      exact ⟨.inr ⟨rfl, hnat.symm⟩, trivial⟩
    · rintro ⟨hroom | ⟨-, rfl⟩, -⟩
      · exact absurd hroom hfull
      · rfl

theorem requireInteger_natCast {value : Nat} (bound : Nat) (h : value ≤ bound) (type : String) :
    Rpc.requireInteger (value : Int) 0 (bound : Int) type = .ok () :=
  rejectIf_of_not (by omega)

theorem writeByte_performs {writer : MessageWriter} (h : writer.fixed = false) {value : Nat}
    (hvalue : value < 256) :
    Performs writer (writer.writeByte value) True [.number value 1] (leBytes 1 value) [] [] := by
  have hdone : ∃ writer', writer.writeByte value = .ok writer' ∧
      Stored writer writer' [.number value 1] (leBytes 1 value) ∧ Marked writer writer' [] [] := by
    obtain ⟨reserved, hreserve, hreserved⟩ := reserve_growing h 1
    have hrange : Rpc.requireInteger (value : Int) 0 0xff "byte" = .ok () :=
      requireInteger_natCast 255 (by omega) "byte"
    refine ⟨reserved.setElement writer.buffer.length writer.length value, ?_, ?_⟩
    · rw [writeByte, hrange, ok_bind, hreserve]
      rfl
    · by_cases hroom : writer.length < writer.buffer.length
      · refine hreserved.number h hroom ?_
        have hbyte : (leBytes 1 value).map UInt8.toNat = [value] := by
          simp only [leBytes, List.map_cons, List.map_nil, UInt8.toNat_ofNat',
            Nat.mod_eq_of_lt hvalue]
        rw [setElement, if_pos hroom, hbyte]
        rfl
      · rw [setElement, if_neg hroom]
        exact ⟨hreserved.lostByte h hvalue hroom, hreserved.marked⟩
  obtain ⟨done, hcall, hstored, hmarked⟩ := hdone
  constructor
  · intro writer' hout
    obtain rfl := Except.ok.inj (hcall.symm.trans hout)
    exact ⟨trivial, hstored, hmarked⟩
  · exact fun _ _ => ⟨done, hcall⟩

theorem setView_performs {writer reserved : MessageWriter} {value width : Nat}
    (h : writer.fixed = false) (hreserved : Reserved writer reserved width) (hwidth : width ≠ 1) :
    Performs writer (reserved.setView writer.buffer.length writer.length (leBytes width value)) True
      [.number value width] (leBytes width value) [] [] := by
  unfold setView
  rw [length_leBytes]
  by_cases hroom : writer.length + width ≤ writer.buffer.length
  · rw [rejectIf_of_not (by omega), ok_bind]
    constructor
    · intro writer' hout
      exact ⟨trivial, hreserved.number h hroom (Except.ok.inj hout).symm⟩
    · exact fun _ _ => ⟨_, rfl⟩
  · rw [rejectIf_of (by omega), error_bind]
    constructor
    · intro writer' hout
      cases hout
    · rintro - ⟨hfits | ⟨hone, -⟩, -⟩
      · exact absurd hfits hroom
      · exact absurd hone hwidth

theorem writeUint16_performs {writer : MessageWriter} (h : writer.fixed = false) {value : Nat}
    (hvalue : value < 256 ^ 2) :
    Performs writer (writer.writeUint16 value) True [.number value 2] (leBytes 2 value) [] [] := by
  obtain ⟨reserved, hreserve, hreserved⟩ := reserve_growing h 2
  have hrange : Rpc.requireInteger (value : Int) 0 0xffff "uint16" = .ok () :=
    requireInteger_natCast 65535 (by omega) "uint16"
  rw [writeUint16, hrange, ok_bind]
  dsimp only
  rw [hreserve]
  exact setView_performs h hreserved (by decide)

theorem writeUint32_performs {writer : MessageWriter} (h : writer.fixed = false) {value : Nat}
    (hvalue : value < 256 ^ 4) :
    Performs writer (writer.writeUint32 value) True [.number value 4] (leBytes 4 value) [] [] := by
  obtain ⟨reserved, hreserve, hreserved⟩ := reserve_growing h 4
  have hrange : Rpc.requireInteger (value : Int) 0 0xffffffff "uint32" = .ok () :=
    requireInteger_natCast 4294967295 (by omega) "uint32"
  rw [writeUint32, hrange, ok_bind]
  dsimp only
  rw [hreserve]
  exact setView_performs h hreserved (by decide)

theorem writeOffset_performs {writer : MessageWriter} (h : writer.fixed = false)
    {value width : Nat} (hwidth : width = 1 ∨ width = 2 ∨ width = 4) (hvalue : value < 256 ^ width) :
    Performs writer (writer.writeOffset value width) True [.number value width]
      (leBytes width value) [] [] := by
  rcases hwidth with rfl | rfl | rfl
  · exact writeByte_performs h hvalue
  · exact writeUint16_performs h hvalue
  · exact writeUint32_performs h hvalue

end MessageWriter

end Bebop.TypeScript
