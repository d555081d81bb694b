import Bebop.Lib.Checked
import Bebop.Lib.DropQueue
import Bebop.Lib.JavaScript
import Bebop.Rpc.Frame

/-!
# Bebop — the TypeScript frames

The `Frame` class, its byte queue and the stream decoder of `rpc/frame.ts`, with the
readers and writers of `wire.ts` they use. Numbers that were checked to be natural are
natural numbers. An element or a buffer that does not exist is a fault, and so is a loop
that would not end.
-/

namespace Bebop.TypeScript.Rpc

open Bebop.Rpc (StatusCode)
open Bytes Checked JavaScript

/-- What is thrown: a `BebopRpcError`, a `BebopRuntimeError` or a `RangeError`. -/
inductive Thrown where
  | rpcError (code : StatusCode) (detail : String)
  | runtimeError (message : String)
  | rangeError (message : String)
  deriving DecidableEq, Repr

abbrev Attempt := Checked Thrown

def rpcError (code : StatusCode) (detail : String) : Stop Thrown := .raised (.rpcError code detail)

/-! ## `wire.ts` -/

/-- `requireInteger` and `requireBigInt` -/
def requireInteger (value minimum maximum : Int) (type : String) : Attempt Unit :=
  rejectIf (.raised (.runtimeError (type ++ " value is out of range: " ++ toString value)))
    (value < minimum ∨ value > maximum)

def writeByte (value : Int) : Attempt (List UInt8) := do
  requireInteger value 0 0xff "byte"
  return leBytes 1 value.toNat

def writeUint32 (value : Int) : Attempt (List UInt8) := do
  requireInteger value 0 0xffffffff "uint32"
  return leBytes 4 value.toNat

def writeUint64 (value : Int) : Attempt (List UInt8) := do
  requireInteger value 0 0xffffffffffffffff "uint64"
  return leBytes 8 value.toNat

/-- `BebopReader`: the buffer and the index of the next byte. -/
structure BebopReader where
  buffer : List UInt8
  index : Nat

/-- `BebopReader.require` -/
def BebopReader.require (reader : BebopReader) (byteCount : Nat) : Attempt Unit :=
  rejectIf (.raised (.runtimeError "unexpected end of Bebop data"))
    (reader.index + byteCount > reader.buffer.length)

def BebopReader.readByte (reader : BebopReader) : Attempt (Nat × BebopReader) := do
  reader.require 1
  return (← read reader.buffer reader.index, { reader with index := reader.index + 1 })

def BebopReader.readUint32 (reader : BebopReader) : Attempt (Nat × BebopReader) := do
  reader.require 4
  return (leAt reader.buffer reader.index 4, { reader with index := reader.index + 4 })

/-- `DataView.getBigUint64(offset, true)` -/
def getBigUint64 (bytes : List UInt8) (offset : Nat) : Attempt Nat :=
  if offset + 8 ≤ bytes.length then .ok (leAt bytes offset 8)
  else .error (.raised (.rangeError "Offset is outside the bounds of the DataView"))

/-! ## `Frame` -/

structure FrameHeader where
  length : Nat
  flags : Nat
  streamId : Nat
  deriving DecidableEq, Repr

def FrameHeader.readFrom (reader : BebopReader) : Attempt FrameHeader := do
  let (length, reader) ← reader.readUint32
  let (flags, reader) ← reader.readByte
  let (streamId, _) ← reader.readUint32
  return ⟨length, flags, streamId⟩

def FrameHeader.writeInto (header : FrameHeader) : Attempt (List UInt8) := do
  return (← writeUint32 header.length) ++ ((← writeByte header.flags) ++ (← writeUint32 header.streamId))

namespace FrameFlags

def endStream : Int := 1
def error : Int := 2
def compressed : Int := 4
def trailer : Int := 8
def cursor : Int := 16

end FrameFlags

def knownFrameFlags : Int :=
  lor (lor (lor (lor FrameFlags.endStream FrameFlags.error) FrameFlags.compressed)
    FrameFlags.trailer) FrameFlags.cursor

def cursorSize : Nat := 8

structure Frame where
  header : FrameHeader
  payload : List UInt8
  cursor : Option Nat
  deriving DecidableEq, Repr

namespace Frame

def headerSize : Nat := 9

def validateFlags (flags : Int) : Attempt Unit := do
  rejectIf (rpcError .invalidArgument ("invalid frame flags: " ++ toString flags))
    (flags < 0 ∨ flags > 0xff ∨ land flags (lnot knownFrameFlags) ≠ 0)
  let endStream := land flags FrameFlags.endStream ≠ 0
  let error := land flags FrameFlags.error ≠ 0
  let trailer := land flags FrameFlags.trailer ≠ 0
  rejectIf (rpcError .invalidArgument "ERROR frame must end the stream") (error ∧ ¬endStream)
  rejectIf (rpcError .invalidArgument "TRAILER frame must end the stream") (trailer ∧ ¬endStream)
  rejectIf (rpcError .invalidArgument "ERROR and TRAILER cannot both be set") (error ∧ trailer)

def validateStreamId (streamId : Int) : Attempt Unit :=
  rejectIf (rpcError .invalidArgument ("invalid frame stream ID: " ++ toString streamId))
    (streamId < 0 ∨ streamId > 0xffffffff)

def validateCursor (cursor : Option Int) : Attempt Unit :=
  match cursor with
  | none => .ok ()
  | some cursor =>
    rejectIf (rpcError .invalidArgument ("invalid frame cursor: " ++ toString cursor))
      (cursor < 0 ∨ cursor > 0xffffffffffffffff)

/-- `resolvedFlags` -/
def resolveFlags (flags : Int) (cursor : Option Int) : Int :=
  if cursor = none then flags else lor flags FrameFlags.cursor

/-- `new Frame(payload, flags, streamId, cursor)` -/
def new (payload : List UInt8) (flags streamId : Int) (cursor : Option Int) : Attempt Frame := do
  rejectIf (rpcError .resourceExhausted "frame payload exceeds uint32 length")
    (payload.length > 0xffffffff)
  let resolvedFlags := resolveFlags flags cursor
  validateFlags resolvedFlags
  validateStreamId streamId
  validateCursor cursor
  return ⟨⟨payload.length, resolvedFlags.toNat, streamId.toNat⟩, payload, cursor.map Int.toNat⟩

def encode (frame : Frame) : Attempt (List UInt8) := do
  let header ← frame.header.writeInto
  match frame.cursor with
  | none => return header ++ frame.payload
  | some cursor => return header ++ (frame.payload ++ (← writeUint64 cursor))

/-- `encodedFrameSize` -/
def encodedFrameSize (header : FrameHeader) : Nat :=
  headerSize + header.length + if land header.flags FrameFlags.cursor = 0 then 0 else cursorSize

def decode (bytes : List UInt8) : Attempt Frame := do
  rejectIf (rpcError .invalidArgument ("frame too short: " ++ toString bytes.length ++ " bytes"))
    (bytes.length < headerSize)
  let header ← FrameHeader.readFrom ⟨bytes, 0⟩
  validateFlags header.flags
  let expected := encodedFrameSize header
  rejectIf (rpcError .invalidArgument ("frame length mismatch: expected " ++ toString expected ++
    " bytes, received " ++ toString bytes.length)) (bytes.length ≠ expected)
  let payloadStart := headerSize
  let payloadEnd := payloadStart + header.length
  let payload := (bytes.take payloadEnd).drop payloadStart
  let cursor ←
    (if land header.flags FrameFlags.cursor = 0 then return none
      else some <$> getBigUint64 bytes payloadEnd)
  new payload header.flags header.streamId (cursor.map Int.ofNat)

end Frame

/-! ## `ByteQueue` -/

structure ByteQueue where
  chunks : DropQueue (List UInt8)
  offset : Nat
  byteLength : Nat

namespace ByteQueue

def empty : ByteQueue := ⟨.empty, 0, 0⟩

def push (queue : ByteQueue) (chunk : List UInt8) : ByteQueue :=
  if chunk.length = 0 then queue
  else ⟨queue.chunks.push chunk, queue.offset, queue.byteLength + chunk.length⟩

/-- `dropFirst` -/
def dropFirst (chunks : DropQueue (List UInt8)) (h : chunks.head < chunks.values.length) :
    DropQueue (List UInt8) :=
  (chunks.setFront []).advance 1024 (by
    change chunks.head < (chunks.values.set chunks.head []).length
    rwa [List.length_set])

/-- What both branches of `read` do once they took `count` bytes of the first
chunk. -/
def consume (queue : ByteQueue) (h : queue.chunks.head < queue.chunks.values.length) (count : Nat) :
    ByteQueue :=
  if queue.offset + count = (queue.chunks.front h).length then
    ⟨dropFirst queue.chunks h, 0, queue.byteLength - count⟩
  else ⟨queue.chunks, queue.offset + count, queue.byteLength - count⟩

/-- The loop of `read`. It takes a byte or more in every round but the last. -/
def readLoop (fuel : Nat) (queue : ByteQueue) (remaining : Nat) (value : List UInt8) :
    Attempt (List UInt8 × ByteQueue) :=
  if remaining = 0 then .ok (value, queue)
  else
    match fuel with
    | 0 => .error .fault
    | fuel + 1 =>
      if h : queue.chunks.head < queue.chunks.values.length then
        let chunk := queue.chunks.front h
        let count := min (chunk.length - queue.offset) remaining
        let piece := (chunk.take (queue.offset + count)).drop queue.offset
        readLoop fuel (queue.consume h count) (remaining - count) (value ++ piece)
      else .error .fault

def read (queue : ByteQueue) (length : Nat) : Attempt (List UInt8 × ByteQueue) := do
  rejectIf (.raised (.rangeError "ByteQueue read exceeds buffered data")) (length > queue.byteLength)
  if length = 0 then return ([], queue)
  else if h : queue.chunks.head < queue.chunks.values.length then
    let first := queue.chunks.front h
    let firstRemaining := first.length - queue.offset
    if length ≤ firstRemaining then
      return ((first.take (queue.offset + length)).drop queue.offset, queue.consume h length)
    else queue.readLoop length length []
  else .error .fault

end ByteQueue

/-! ## `FrameDecoder` -/

structure FrameDecoder where
  queue : ByteQueue
  pendingHeader : Option FrameHeader
  maxPayloadSize : Nat

namespace FrameDecoder

def new (maxPayloadSize : Nat) : FrameDecoder := ⟨.empty, none, maxPayloadSize⟩

def push (decoder : FrameDecoder) (chunk : List UInt8) : Attempt FrameDecoder :=
  .ok { decoder with queue := decoder.queue.push chunk }

/-- The first half of `read`: the pending header, or reading one. -/
def readHeader (decoder : FrameDecoder) : Attempt (Option FrameHeader × FrameDecoder) := do
  match decoder.pendingHeader with
  | some header => return (some header, decoder)
  | none =>
    if decoder.queue.byteLength < Frame.headerSize then return (none, decoder)
    else
      let (bytes, queue) ← decoder.queue.read Frame.headerSize
      let header ← FrameHeader.readFrom ⟨bytes, 0⟩
      Frame.validateFlags header.flags
      rejectIf (rpcError .resourceExhausted "frame payload too large")
        (header.length > decoder.maxPayloadSize)
      return (some header, { decoder with queue, pendingHeader := some header })

def read (decoder : FrameDecoder) : Attempt (Option Frame × FrameDecoder) := do
  let (pending, decoder) ← decoder.readHeader
  match pending with
  | none => return (none, decoder)
  | some header =>
    let cursorLength := if land header.flags FrameFlags.cursor = 0 then 0 else cursorSize
    if decoder.queue.byteLength < header.length + cursorLength then return (none, decoder)
    else
      let (payload, queue) ← decoder.queue.read header.length
      let (cursor, queue) ←
        (if cursorLength ≠ 0 then do
          let (bytes, queue) ← queue.read cursorSize
          return (some (← getBigUint64 bytes 0), queue)
        else return (none, queue))
      let frame ← Frame.new payload header.flags header.streamId (cursor.map Int.ofNat)
      return (some frame, { decoder with queue, pendingHeader := none })

def finish (decoder : FrameDecoder) : Attempt Unit :=
  rejectIf (rpcError .invalidArgument ("stream ended with an incomplete frame (" ++
    toString decoder.queue.byteLength ++ " buffered byte(s))"))
    (decoder.pendingHeader ≠ none ∨ decoder.queue.byteLength ≠ 0)

end FrameDecoder

end Bebop.TypeScript.Rpc
