import Bebop.TypeScript.Frame

/-!
# Bebop — strings in TypeScript

`BebopWriter.writeString`, `decodeUtf8` and `BebopReader.readString` of `wire.ts`. A
JavaScript string is the list of its UTF-16 code units. The reader hands long strings to
the platform's `TextDecoder`, which is `textDecode` here: the UTF-8 decoder of the Encoding
standard with the options the source passes. `reserve` does not check for a safe integer.
-/

namespace Bebop.TypeScript

open Bytes Checked

def runtimeError (message : String) : Stop Rpc.Thrown := .raised (.runtimeError message)

/-! ## `BebopWriter` -/

/-- What is written lies in the buffer, and a buffer that may grow is not empty. -/
structure BebopWriter where
  buffer : List UInt8
  fixed : Bool
  length : Nat
  bounded : length ≤ buffer.length
  growable : fixed = false → 0 < buffer.length

namespace BebopWriter

variable (writer : BebopWriter)

/-- `toArray` -/
def toArray : List UInt8 := writer.buffer.take writer.length

/-- The loop of `guaranteeBufferLength`. -/
def nextLength (length : Nat) : Nat → Nat → Rpc.Attempt Nat
  | 0, _ => .error .fault
  | fuel + 1, capacity =>
    if capacity < length then nextLength length fuel (capacity * 2) else .ok capacity

def grow (capacity : Nat) : BebopWriter where
  buffer := writer.buffer ++ List.replicate (capacity - writer.buffer.length) 0
  fixed := writer.fixed
  length := writer.length
  bounded := by
    rw [List.length_append]
    exact Nat.le_add_right_of_le writer.bounded
  growable h := by
    rw [List.length_append]
    exact Nat.lt_add_right _ (writer.growable h)

def guaranteeBufferLength (length : Nat) : Rpc.Attempt BebopWriter :=
  if length ≤ writer.buffer.length then .ok writer
  else if writer.fixed then
    .error (runtimeError
      s!"supplied buffer is too small: need {length} bytes, have {writer.buffer.length}")
  else (nextLength length (length + 1) writer.buffer.length).map writer.grow

/-- `this.length = length`, up to which there is a buffer. -/
def setLength (length : Nat) : Rpc.Attempt BebopWriter :=
  if h : length ≤ writer.buffer.length then
    .ok { writer with length, bounded := h }
  else .error .fault

/-- `reserve`: the index of the bytes, and the writer that has them. -/
def reserve (byteCount : Nat) : Rpc.Attempt (Nat × BebopWriter) := do
  let grown ← writer.guaranteeBufferLength (writer.length + byteCount)
  return (writer.length, ← grown.setLength (writer.length + byteCount))

/-- `this.buffer[index] = byte`, which stores the low eight bits. -/
def store (index byte : Nat) : BebopWriter where
  buffer := writer.buffer.set index (.ofNat byte)
  fixed := writer.fixed
  length := writer.length
  bounded := by
    rw [List.length_set]
    exact writer.bounded
  growable h := by
    rw [List.length_set]
    exact writer.growable h

/-- `this.buffer[writeIndex++] = byte` for one byte after the other. -/
def storeAll (writer : BebopWriter) : Nat → List Nat → BebopWriter
  | _, [] => writer
  | writeIndex, byte :: bytes => (writer.store writeIndex byte).storeAll (writeIndex + 1) bytes

def utf8Bytes (codePoint : Nat) : List Nat :=
  if codePoint < 0x80 then [codePoint]
  else if codePoint < 0x800 then
    [((codePoint >>> 6) &&& 0x1f) ||| 0xc0, (codePoint &&& 0x3f) ||| 0x80]
  else if codePoint < 0x10000 then
    [((codePoint >>> 12) &&& 0x0f) ||| 0xe0, ((codePoint >>> 6) &&& 0x3f) ||| 0x80,
      (codePoint &&& 0x3f) ||| 0x80]
  else
    [((codePoint >>> 18) &&& 0x07) ||| 0xf0, ((codePoint >>> 12) &&& 0x3f) ||| 0x80,
      ((codePoint >>> 6) &&& 0x3f) ||| 0x80, (codePoint &&& 0x3f) ||| 0x80]

/-- The code points that the loop of `writeString` reads. -/
def codePoints : List UInt16 → List Nat
  | [] => []
  | [a] =>
    if 0xd800 ≤ a.toNat ∧ a.toNat ≤ 0xdbff then [0xfffd]
    else if 0xdc00 ≤ a.toNat ∧ a.toNat ≤ 0xdfff then [0xfffd]
    else [a.toNat]
  | a :: b :: rest =>
    if 0xd800 ≤ a.toNat ∧ a.toNat ≤ 0xdbff then
      if 0xdc00 ≤ b.toNat ∧ b.toNat ≤ 0xdfff then
        (((a.toNat <<< 10 + b.toNat : Nat) : Int) + (0x10000 - 0xd800 * 2 ^ 10 - 0xdc00)).toNat ::
          codePoints rest
      else 0xfffd :: codePoints (b :: rest)
    else if 0xdc00 ≤ a.toNat ∧ a.toNat ≤ 0xdfff then 0xfffd :: codePoints (b :: rest)
    else a.toNat :: codePoints (b :: rest)

/-- The loop's writes; its guards only skip calls that do nothing. -/
def writeCodePoints : List Nat → BebopWriter → Nat → Rpc.Attempt (BebopWriter × Nat)
  | [], writer, writeIndex => .ok (writer, writeIndex)
  | codePoint :: rest, writer, writeIndex => do
    let bytes := utf8Bytes codePoint
    let grown ← writer.guaranteeBufferLength (writeIndex + bytes.length)
    writeCodePoints rest (grown.storeAll writeIndex bytes) (writeIndex + bytes.length)

/-- `this.view.setUint32(start, value, true)` -/
def setUint32 (start value : Nat) : BebopWriter :=
  writer.storeAll start ((leBytes 4 value).map UInt8.toNat)

def writeString (value : List UInt16) : Rpc.Attempt BebopWriter := do
  let (start, writer) ← writer.reserve 4
  let writeStart := start + 4
  let (writer, writeIndex) ← writeCodePoints (codePoints value) writer writeStart
  let writer ← writer.guaranteeBufferLength (writeIndex + 1)
  let byteLength := writeIndex - writeStart
  rejectIf (runtimeError "string exceeds uint32 length") (byteLength > 0xffffffff)
  ((writer.setUint32 start byteLength).store writeIndex 0).setLength (writeIndex + 1)

end BebopWriter

/-! ## `decodeUtf8` -/

def invalidUtf8 : Stop Rpc.Thrown := runtimeError "malformed UTF-8 string"

/-- `continuation(bytes, index++)`, where `rest` is what follows `index`. -/
def continuation (rest : List UInt8) : Rpc.Attempt (Nat × List UInt8) :=
  match rest with
  | [] => .error invalidUtf8
  | byte :: rest =>
    if byte.toNat &&& 0xc0 ≠ 0x80 then .error invalidUtf8 else .ok (byte.toNat, rest)

/-- The part of `decodeUtf8` behind the first byte of a code point. -/
def readCodePoint (a : Nat) (rest : List UInt8) : Rpc.Attempt (Nat × List UInt8) :=
  if a < 0x80 then .ok (a, rest)
  else if a ≥ 0xc2 ∧ a < 0xe0 then do
    let (b, rest) ← continuation rest
    return (((a &&& 0x1f) <<< 6) ||| (b &&& 0x3f), rest)
  else if a ≥ 0xe0 ∧ a < 0xf0 then do
    let (b, rest) ← continuation rest
    let (c, rest) ← continuation rest
    rejectIf invalidUtf8 ((a = 0xe0 ∧ b < 0xa0) ∨ (a = 0xed ∧ b ≥ 0xa0))
    return (((a &&& 0x0f) <<< 12) ||| ((b &&& 0x3f) <<< 6) ||| (c &&& 0x3f), rest)
  else if a ≥ 0xf0 ∧ a < 0xf5 then do
    let (b, rest) ← continuation rest
    let (c, rest) ← continuation rest
    let (d, rest) ← continuation rest
    rejectIf invalidUtf8 ((a = 0xf0 ∧ b < 0x90) ∨ (a = 0xf4 ∧ b ≥ 0x90))
    return (((a &&& 0x07) <<< 18) ||| ((b &&& 0x3f) <<< 12) ||| ((c &&& 0x3f) <<< 6) ||| (d &&& 0x3f), rest)
  else .error invalidUtf8

/-- `String.fromCharCode`, for one code unit or two. -/
def fromCodePoint (codePoint : Nat) : List UInt16 :=
  if codePoint < 0x10000 then [.ofNat codePoint]
  else
    [.ofNat (((codePoint - 0x10000) >>> 10) + 0xd800),
      .ofNat (((codePoint - 0x10000) &&& 0x03ff) + 0xdc00)]

/-- The loop of `decodeUtf8`, for as many rounds as bytes. -/
def decodeLoop : Nat → List UInt8 → Rpc.Attempt (List UInt16)
  | _, [] => .ok []
  | 0, _ :: _ => .error .fault
  | fuel + 1, a :: rest => do
    let (codePoint, rest) ← readCodePoint a.toNat rest
    return fromCodePoint codePoint ++ (← decodeLoop fuel rest)

/-! ## `TextDecoder` -/

/-- The UTF-8 decoder of the standard between two bytes. -/
structure Utf8Decoder where
  codePoint : Nat
  bytesSeen : Nat
  bytesNeeded : Nat
  lowerBoundary : Nat
  upperBoundary : Nat

def Utf8Decoder.start : Utf8Decoder := ⟨0, 0, 0, 0x80, 0xbf⟩

/-- The standard's handler: an error, or the next state. -/
def Utf8Decoder.handle (decoder : Utf8Decoder) (byte : Nat) : Option (Utf8Decoder × Option Nat) :=
  if decoder.bytesNeeded = 0 then
    if byte ≤ 0x7f then some (decoder, some byte)
    else if 0xc2 ≤ byte ∧ byte ≤ 0xdf then
      some ({ decoder with bytesNeeded := 1, codePoint := byte &&& 0x1f }, none)
    else if 0xe0 ≤ byte ∧ byte ≤ 0xef then
      some ({ decoder with
        lowerBoundary := if byte = 0xe0 then 0xa0 else decoder.lowerBoundary
        upperBoundary := if byte = 0xed then 0x9f else decoder.upperBoundary
        bytesNeeded := 2
        codePoint := byte &&& 0xf }, none)
    else if 0xf0 ≤ byte ∧ byte ≤ 0xf4 then
      some ({ decoder with
        lowerBoundary := if byte = 0xf0 then 0x90 else decoder.lowerBoundary
        upperBoundary := if byte = 0xf4 then 0x8f else decoder.upperBoundary
        bytesNeeded := 3
        codePoint := byte &&& 0x7 }, none)
    else none
  else if ¬(decoder.lowerBoundary ≤ byte ∧ byte ≤ decoder.upperBoundary) then none
  else
    let codePoint := (decoder.codePoint <<< 6) ||| (byte &&& 0x3f)
    if decoder.bytesSeen + 1 = decoder.bytesNeeded then some (.start, some codePoint)
    else some (⟨codePoint, decoder.bytesSeen + 1, decoder.bytesNeeded, 0x80, 0xbf⟩, none)

/-- The queue is processed with error mode `fatal`. -/
def Utf8Decoder.run (decoder : Utf8Decoder) : List UInt8 → Option (List Nat)
  | [] => if decoder.bytesNeeded = 0 then some [] else none
  | byte :: rest =>
    match decoder.handle byte.toNat with
    | none => none
    | some (decoder, none) => decoder.run rest
    | some (decoder, some codePoint) => (decoder.run rest).map (codePoint :: ·)

def dropBom : List Nat → List Nat
  | 0xfeff :: codePoints => codePoints
  | codePoints => codePoints

/-- `new TextDecoder("utf-8", { fatal: true }).decode(bytes)`, or no result where
it throws a `TypeError`. -/
def textDecode (bytes : List UInt8) : Option (List UInt16) :=
  (Utf8Decoder.start.run bytes).map fun codePoints => (dropBom codePoints).flatMap fromCodePoint

/-! ## Reading -/

def textDecoderThreshold : Nat := 300

def decodeUtf8 (bytes : List UInt8) : Rpc.Attempt (List UInt16) :=
  if bytes.length = 0 then .ok []
  else if bytes.length ≥ textDecoderThreshold then
    match textDecode bytes with
    | none => .error invalidUtf8
    | some value => .ok value
  else decodeLoop bytes.length bytes

/-- `BebopReader.readString` -/
def readString (reader : Rpc.BebopReader) : Rpc.Attempt (List UInt16 × Rpc.BebopReader) := do
  let (lengthBytes, reader) ← reader.readUint32
  reader.require (lengthBytes + 1)
  let start := reader.index
  let stop := start + lengthBytes
  rejectIf (runtimeError "string missing NUL terminator") (byteAt reader.buffer stop ≠ 0)
  let value ← decodeUtf8 ((reader.buffer.drop start).take lengthBytes)
  return (value, { reader with index := stop + 1 })

end Bebop.TypeScript
