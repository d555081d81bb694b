import Bebop.Lib.Checked
import Bebop.Rpc.Frame

/-!
# Bebop — the Swift frames

`Frame.decode` of `Frame.swift`, with the parts of the reader and of the
generated header it uses. A failed precondition or assertion and an index
outside an array trap, and a load outside a buffer is undefined: all of them
are faults.
-/

namespace Bebop.Swift.Rpc

open Bebop.Rpc (StatusCode)
open Bytes Checked

/-- What is thrown: a `BebopRpcError`, or one of two cases of
`BebopDecodingError`. -/
inductive Thrown where
  | rpcError (code : StatusCode) (detail : String)
  | unexpectedEndOfData
  | limitExceeded
  deriving DecidableEq, Repr

abbrev Attempt := Checked Thrown

def rpcError (code : StatusCode) (detail : String) : Stop Thrown := .raised (.rpcError code detail)

/-- `loadUnaligned`, little-endian -/
def loadUnaligned (bytes : List UInt8) (offset width : Nat) : Attempt Nat :=
  if offset + width ≤ bytes.length then .ok (leAt bytes offset width) else .error .fault

/-- `bytes[lower ..< upper]` -/
def slice (bytes : List UInt8) (lower upper : Nat) : Attempt (List UInt8) :=
  if lower ≤ upper ∧ upper ≤ bytes.length then .ok ((bytes.take upper).drop lower)
  else .error .fault

/-! ## `BebopReader` -/

/-- The limits are pushed at the front of `limitStack`. -/
structure BebopReader where
  data : List UInt8
  limit : Nat
  limitStack : List Nat
  offset : Nat
  maxDepth : Nat
  depth : Nat

namespace BebopReader

/-- `BebopDecodeLimits.default.maxDepth` -/
def defaultMaxDepth : Nat := 128

def new (data : List UInt8) : BebopReader := ⟨data, data.length, [], 0, defaultMaxDepth, 0⟩

/-- The loop of `popExpiredLimitIfNeeded`. -/
def popExpiredLimits (offset limit : Nat) : List Nat → Nat × List Nat
  | [] => (limit, [])
  | restored :: stack =>
    if offset = limit then popExpiredLimits offset restored stack else (limit, restored :: stack)

def ensureBytes (reader : BebopReader) (count : Nat) : Attempt Unit :=
  rejectIf (.raised .unexpectedEndOfData)
    (¬(reader.offset ≤ reader.limit ∧ count ≤ reader.limit - reader.offset))

def advance (reader : BebopReader) (count : Nat) : BebopReader :=
  let offset := reader.offset + count
  let popped := popExpiredLimits offset reader.limit reader.limitStack
  { reader with offset, limit := popped.1, limitStack := popped.2 }

def readByte (reader : BebopReader) : Attempt (Nat × BebopReader) := do
  reader.ensureBytes 1
  let value ← loadUnaligned reader.data reader.offset 1
  return (value, reader.advance 1)

def readUInt32 (reader : BebopReader) : Attempt (Nat × BebopReader) := do
  reader.ensureBytes 4
  let value ← loadUnaligned reader.data reader.offset 4
  return (value, reader.advance 4)

/-- The nested reader is a copy, one level deeper, and its position is copied
back. -/
def readNested {α : Type} (reader : BebopReader)
    (decode : BebopReader → Attempt (α × BebopReader)) : Attempt (α × BebopReader) := do
  rejectIf (.raised .limitExceeded) (¬reader.depth < reader.maxDepth)
  let (value, nested) ← decode { reader with depth := reader.depth + 1 }
  return (value, { nested with depth := reader.depth })

end BebopReader

/-! ## `FrameHeader` -/

/-- `FrameFlags`, an option set over a byte. -/
structure FrameFlags where
  rawValue : Nat
  deriving DecidableEq, Repr

namespace FrameFlags

def endStream : FrameFlags := ⟨1⟩
def error : FrameFlags := ⟨2⟩
def trailer : FrameFlags := ⟨8⟩
def cursor : FrameFlags := ⟨16⟩

def contains (flags member : FrameFlags) : Bool :=
  flags.rawValue &&& member.rawValue == member.rawValue

def decode (reader : BebopReader) : Attempt (FrameFlags × BebopReader) := do
  let (rawValue, reader) ← reader.readByte
  return (⟨rawValue⟩, reader)

end FrameFlags

structure FrameHeader where
  length : Nat
  flags : FrameFlags
  streamId : Nat
  deriving DecidableEq, Repr

def FrameHeader.decode (reader : BebopReader) : Attempt FrameHeader := do
  let (length, reader) ← reader.readUInt32
  let (flags, reader) ← reader.readNested FrameFlags.decode
  let (streamId, _) ← reader.readUInt32
  return ⟨length, flags, streamId⟩

/-! ## `Frame` -/

structure Frame where
  header : FrameHeader
  payload : List UInt8
  cursor : Option Nat
  deriving DecidableEq, Repr

namespace Frame

def headerSize : Nat := 9

/-- `init(header:payload:cursor:)` -/
def new (header : FrameHeader) (payload : List UInt8) (cursor : Option Nat) : Attempt Frame := do
  rejectIf .fault (header.flags.contains .cursor ≠ cursor.isSome)
  rejectIf .fault (header.length ≠ payload.length)
  return ⟨header, payload, cursor⟩

def validate (flags : FrameFlags) : Attempt Unit := do
  rejectIf (rpcError .invalidArgument "ERROR frame must end stream")
    (flags.contains .error ∧ ¬flags.contains .endStream)
  rejectIf (rpcError .invalidArgument "TRAILER frame must end stream")
    (flags.contains .trailer ∧ ¬flags.contains .endStream)
  rejectIf (rpcError .invalidArgument "ERROR and TRAILER cannot both be set")
    (flags.contains .error ∧ flags.contains .trailer)

def decode (bytes : List UInt8) : Attempt Frame := do
  rejectIf (rpcError .invalidArgument ("frame too short: " ++ toString bytes.length ++ " bytes"))
    (¬bytes.length ≥ headerSize)
  let header ← FrameHeader.decode (.new bytes)
  validate header.flags
  let payloadStart := headerSize
  let payloadEnd := payloadStart + header.length
  let totalNeeded := if header.flags.contains .cursor then payloadEnd + 8 else payloadEnd
  rejectIf (rpcError .invalidArgument ("frame length mismatch: need " ++ toString totalNeeded ++
    " bytes, got " ++ toString bytes.length)) (¬bytes.length = totalNeeded)
  let payload ← slice bytes payloadStart payloadEnd
  let cursor ←
    (if header.flags.contains .cursor then some <$> loadUnaligned bytes payloadEnd 8
      else return none)
  new header payload cursor

end Frame

end Bebop.Swift.Rpc

/-!
## The Swift frames and the format

`Frame.decode` accepts exactly the frames of the format, reserved bits or not, and it
never traps: where the format does not hold it throws.
-/

namespace Bebop.Swift.Rpc

open Bebop.Rpc (Flag FlagsOk WireFrame IsFrame frameAt cursorLength length_frameAt)
open Bytes Checked

/-! ## Flags -/

theorem contains_flag (flags : Nat) (flag : Flag) :
    FrameFlags.contains ⟨flags⟩ ⟨2 ^ flag.bit⟩ = flag.isSet flags := by
  have hpos : 2 ^ flag.bit ≠ 0 := Nat.pos_iff_ne_zero.mp (Nat.two_pow_pos _)
  change (flags &&& 2 ^ flag.bit == 2 ^ flag.bit) = flags.testBit flag.bit
  rw [Nat.and_two_pow]
  cases flags.testBit flag.bit with
  | false =>
    rw [Bool.toNat_false, Nat.zero_mul]
    exact beq_false_of_ne hpos.symm
  | true =>
    rw [Bool.toNat_true, Nat.one_mul]
    exact beq_self_eq_true _

theorem contains_endStream (flags : Nat) :
    FrameFlags.contains ⟨flags⟩ .endStream = Flag.endStream.isSet flags :=
  contains_flag flags .endStream

theorem contains_error (flags : Nat) :
    FrameFlags.contains ⟨flags⟩ .error = Flag.error.isSet flags :=
  contains_flag flags .error

theorem contains_trailer (flags : Nat) :
    FrameFlags.contains ⟨flags⟩ .trailer = Flag.trailer.isSet flags :=
  contains_flag flags .trailer

theorem contains_cursor (flags : Nat) :
    FrameFlags.contains ⟨flags⟩ .cursor = Flag.cursor.isSet flags :=
  contains_flag flags .cursor

theorem validate_eq_ok {flags : Nat} : Frame.validate ⟨flags⟩ = .ok () ↔ FlagsOk flags := by
  unfold Frame.validate
  simp only [contains_endStream, contains_error, contains_trailer]
  constructor
  · intro h
    obtain ⟨_, herr, h⟩ := bind_ok h
    obtain ⟨_, htrl, hboth⟩ := bind_ok h
    have herr := rejectIf_ok herr
    have htrl := rejectIf_ok htrl
    exact ⟨fun he => by_contra fun hend => herr ⟨he, hend⟩,
      fun ht => by_contra fun hend => htrl ⟨ht, hend⟩, rejectIf_ok hboth⟩
  · rintro ⟨herr, htrl, hboth⟩
    rw [rejectIf_of_not fun h => h.2 (herr h.1), ok_bind,
      rejectIf_of_not fun h => h.2 (htrl h.1), ok_bind, rejectIf_of_not hboth]

theorem validate_total (flags : FrameFlags) : Frame.validate flags ≠ .error .fault := by
  unfold Frame.validate rpcError
  simp only [rejectIf]
  split
  · simp
  split
  · simp
  split <;> simp

/-! ## Headers -/

theorem loadUnaligned_of_le {bs : List UInt8} {offset width : Nat} (h : offset + width ≤ bs.length) :
    loadUnaligned bs offset width = .ok (leAt bs offset width) :=
  if_pos h

theorem headerDecode_eq {bs : List UInt8} (h : 9 ≤ bs.length) :
    FrameHeader.decode (.new bs) = .ok ⟨leAt bs 0 4, ⟨byteAt bs 4⟩, leAt bs 5 4⟩ := by
  have hlength : ¬¬(0 ≤ bs.length ∧ 4 ≤ bs.length - 0) := by omega
  have hflags : ¬¬(4 ≤ bs.length ∧ 1 ≤ bs.length - 4) := by omega
  have hstream : ¬¬(5 ≤ bs.length ∧ 4 ≤ bs.length - 5) := by omega
  have hread (offset width : Nat) (hle : offset + width ≤ 9) :
      loadUnaligned bs offset width = .ok (leAt bs offset width) :=
    loadUnaligned_of_le (by omega)
  unfold FrameHeader.decode BebopReader.readNested FrameFlags.decode BebopReader.readUInt32
    BebopReader.readByte BebopReader.ensureBytes BebopReader.new
  dsimp only
  rw [rejectIf_of_not hlength, ok_bind, hread 0 4 (by omega)]
  simp only [ok_bind, pure_eq_ok, BebopReader.advance, BebopReader.popExpiredLimits, Nat.zero_add]
  rw [rejectIf_of_not (by decide), ok_bind, rejectIf_of_not hflags, ok_bind, hread 4 1 (by omega)]
  simp only [ok_bind]
  rw [rejectIf_of_not hstream, ok_bind, hread 5 4 (by omega), leAt_one (by omega)]
  rfl

/-! ## Decoding -/

/-- The numbers of a frame are those of its wire frame. -/
def Frame.toWire (f : Frame) : WireFrame :=
  ⟨f.header.flags.rawValue, f.header.streamId, f.payload, f.cursor⟩

def ofWire (f : WireFrame) : Frame := ⟨⟨f.payload.length, ⟨f.flags⟩, f.streamId⟩, f.payload, f.cursor⟩

@[simp] theorem toWire_ofWire (f : WireFrame) : (ofWire f).toWire = f := rfl

theorem totalNeeded_eq (flags payloadEnd : Nat) :
    (if FrameFlags.contains ⟨flags⟩ .cursor then payloadEnd + 8 else payloadEnd) =
      payloadEnd + cursorLength flags := by
  rw [contains_cursor, cursorLength]
  split <;> rfl

theorem decode_of_header {bs : List UInt8} (h : 9 ≤ bs.length) :
    Frame.decode bs = (do
      Frame.validate ⟨byteAt bs 4⟩
      rejectIf (rpcError .invalidArgument ("frame length mismatch: need " ++
        toString (9 + leAt bs 0 4 + cursorLength (byteAt bs 4)) ++ " bytes, got " ++
        toString bs.length)) (¬bs.length = 9 + leAt bs 0 4 + cursorLength (byteAt bs 4))
      let payload ← slice bs 9 (9 + leAt bs 0 4)
      let cursor ←
        (if Flag.cursor.isSet (byteAt bs 4) then some <$> loadUnaligned bs (9 + leAt bs 0 4) 8
          else return none)
      Frame.new ⟨leAt bs 0 4, ⟨byteAt bs 4⟩, leAt bs 5 4⟩ payload cursor) := by
  have hlong : ¬¬bs.length ≥ Frame.headerSize := not_not.mpr h
  unfold Frame.decode
  rw [rejectIf_of_not hlong, ok_bind, headerDecode_eq h, ok_bind]
  dsimp only
  rw [totalNeeded_eq, contains_cursor]
  rfl

theorem decode_of_isFrame {bs : List UInt8} (h : IsFrame bs) :
    Frame.decode bs = .ok (ofWire (frameAt bs)) := by
  obtain ⟨hlen, hflags, hsize⟩ := id h
  have hpayload : slice bs 9 (9 + leAt bs 0 4) = .ok (frameAt bs).payload := by
    have hroom : 9 ≤ 9 + leAt bs 0 4 ∧ 9 + leAt bs 0 4 ≤ bs.length := by omega
    rw [slice, if_pos hroom, List.drop_take, Nat.add_sub_cancel_left]
    rfl
  have hcursor : (if Flag.cursor.isSet (byteAt bs 4) then
      some <$> loadUnaligned bs (9 + leAt bs 0 4) 8 else pure none : Attempt (Option Nat)) =
      .ok (frameAt bs).cursor := by
    change _ = Except.ok (if Flag.cursor.isSet (byteAt bs 4) then _ else _)
    by_cases hset : Flag.cursor.isSet (byteAt bs 4)
    · have hroom : 9 + leAt bs 0 4 + 8 ≤ bs.length := by
        rw [cursorLength, if_pos hset] at hsize
        omega
      rw [if_pos hset, if_pos hset, loadUnaligned_of_le hroom]
      rfl
    · rw [if_neg hset, if_neg hset]
      rfl
  have hflag : ¬FrameFlags.contains ⟨byteAt bs 4⟩ .cursor ≠ (frameAt bs).cursor.isSome := by
    rw [contains_cursor, not_not]
    unfold frameAt
    cases Flag.cursor.isSet (byteAt bs 4) <;> rfl
  rw [decode_of_header hlen, validate_eq_ok.mpr hflags, ok_bind, rejectIf_of_not (not_not.mpr hsize),
    ok_bind, hpayload, ok_bind, hcursor, ok_bind, Frame.new, rejectIf_of_not hflag, ok_bind,
    rejectIf_of_not (not_not.mpr (length_frameAt h).symm), ok_bind, ← length_frameAt h]
  rfl

theorem decode_of_not_isFrame {bs : List UInt8} (h : ¬IsFrame bs) :
    ∃ e, Frame.decode bs = .error (.raised e) := by
  by_cases hlen : 9 ≤ bs.length
  · rw [decode_of_header hlen]
    by_cases hflags : FlagsOk (byteAt bs 4)
    · have hsize : ¬bs.length = 9 + leAt bs 0 4 + cursorLength (byteAt bs 4) :=
        fun hsize => h ⟨hlen, hflags, hsize⟩
      exact ⟨_, by rw [validate_eq_ok.mpr hflags, ok_bind, rejectIf_of hsize]; rfl⟩
    · have htotal := validate_total ⟨byteAt bs 4⟩
      have hreject := mt validate_eq_ok.mp hflags
      cases hcheck : Frame.validate ⟨byteAt bs 4⟩ with
      | ok _ => exact absurd hcheck hreject
      | error stop =>
        cases stop with
        | raised e => exact ⟨e, rfl⟩
        | fault => exact absurd hcheck htotal
  · unfold Frame.decode
    rw [rejectIf_of (show ¬bs.length ≥ Frame.headerSize from hlen)]
    exact ⟨_, rfl⟩

end Bebop.Swift.Rpc
