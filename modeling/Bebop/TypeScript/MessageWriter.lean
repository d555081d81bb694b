import Bebop.TypeScript.MessageIndex
import Bebop.TypeScript.Strings

/-!
# Bebop — the TypeScript message writer

The numbers and the messages of `BebopWriter` in `wire.ts`, with the directory layout of
`message.ts`. In `this.buffer[this.reserve(1)] = value` the language evaluates
`this.buffer` before it calls `reserve`, and `this.view` before the arguments of a setter.
Here an expression holds the length of what it evaluated: an index below that length is one
of the buffer that is still there.
-/

namespace Bebop.TypeScript

open Checked JavaScript Bytes

/-- `BebopWriter`, with its open messages. -/
structure MessageWriter extends BebopWriter where
  messageTags : List Nat
  messageOffsets : List Nat
  messageTagStarts : List Nat
  messagePayloadStarts : List Nat

/-- `messageTags[index]!` and the like. -/
def item (items : List Nat) (index : Nat) : Rpc.Attempt Nat :=
  match items[index]? with
  | some value => .ok value
  | none => .error .fault

namespace MessageWriter

/-- `new BebopWriter(storage)`, for a capacity. -/
def ofCapacity (storage : Nat) : MessageWriter where
  buffer := List.replicate (max 16 storage) 0
  fixed := false
  length := 0
  bounded := Nat.zero_le _
  growable _ := by
    rw [List.length_replicate]
    omega
  messageTags := []
  messageOffsets := []
  messageTagStarts := []
  messagePayloadStarts := []

/-! ## Numbers and bytes -/

def reserve (writer : MessageWriter) (byteCount : Nat) : Rpc.Attempt (Nat × MessageWriter) := do
  let (index, reserved) ← writer.toBebopWriter.reserve byteCount
  return (index, { writer with toBebopWriter := reserved })

variable (writer : MessageWriter)

/-- `held[index] = value`, for an array of `held` elements. -/
def setElement (held index : Nat) (value : Int) : MessageWriter :=
  if index < held then { writer with toBebopWriter := writer.store index value.toNat }
  else writer

/-- A setter of a view of `held` bytes. -/
def setView (held index : Nat) (data : List UInt8) : Rpc.Attempt MessageWriter := do
  rejectIf (.raised (.rangeError "Offset is outside the bounds of the DataView"))
    (index + data.length > held)
  return { writer with toBebopWriter := writer.storeAll index (data.map UInt8.toNat) }

def writeByte (value : Int) : Rpc.Attempt MessageWriter := do
  Rpc.requireInteger value 0 0xff "byte"
  -- the array comes before its index
  let held := writer.buffer.length
  let (index, writer) ← writer.reserve 1
  return writer.setElement held index value

def writeUint16 (value : Int) : Rpc.Attempt MessageWriter := do
  Rpc.requireInteger value 0 0xffff "uint16"
  -- the view comes before its arguments
  let held := writer.buffer.length
  let (index, writer) ← writer.reserve 2
  writer.setView held index (leBytes 2 value.toNat)

def writeUint32 (value : Int) : Rpc.Attempt MessageWriter := do
  Rpc.requireInteger value 0 0xffffffff "uint32"
  let held := writer.buffer.length
  let (index, writer) ← writer.reserve 4
  writer.setView held index (leBytes 4 value.toNat)

def writeBytes (value : List UInt8) : Rpc.Attempt MessageWriter := do
  if value.length = 0 then return writer
  else
    let (index, writer) ← writer.reserve value.length
    return { writer with toBebopWriter := writer.storeAll index (value.map UInt8.toNat) }

end MessageWriter

/-! ## The directory -/

structure MessageDirectoryLayout where
  kind : Int
  size : Int
  blockMask : Int
  deriving DecidableEq, Repr

/-- The smallest mask that reaches the last tag, when the blocks take more. -/
def maskDirectory (maxTag : Int) (layout : MessageDirectoryLayout) : MessageDirectoryLayout :=
  if maxTag ≤ 8 ∧ layout.size ≥ 1 then { layout with kind := 4, size := 1 }
  else if maxTag ≤ 16 ∧ layout.size ≥ 2 then { layout with kind := 5, size := 2 }
  else if maxTag ≤ 32 ∧ layout.size ≥ 4 then { layout with kind := 6, size := 4 }
  else layout

/-- The list of up to three tags, when that takes less. -/
def tinyDirectory (fieldCount : Int) (layout : MessageDirectoryLayout) : MessageDirectoryLayout :=
  if fieldCount ≤ 3 ∧ fieldCount < layout.size then
    { layout with kind := fieldCount, size := fieldCount }
  else layout

def messageDirectoryLayout (fieldCount maxTag blockMask : Int) : MessageDirectoryLayout :=
  if fieldCount = 0 then ⟨0, 0, 0⟩
  else tinyDirectory fieldCount
    (maskDirectory maxTag ⟨7, 1 + 5 * popcount32 blockMask, blockMask⟩)

/-- The loop of `endMessage` over all tags: the blocks that hold one. -/
def tagBlockMask (tags : List Nat) : Int :=
  tags.foldl (fun blockMask (tag : Nat) => lor blockMask (shl 1 (shru ((tag : Int) - 1) 5))) 0

def tagMask (tags : List Nat) : Int :=
  tags.foldl (fun mask (tag : Nat) => lor mask (shl 1 ((tag : Int) - 1))) 0

/-- The inner loop of a block directory: all tags, of which one block counts. -/
def blockTagMask (block : Int) (tags : List Nat) : Int :=
  tags.foldl (fun mask (tag : Nat) =>
    if shru ((tag : Int) - 1) 5 = block then lor mask (shl 1 (land ((tag : Int) - 1) 31))
    else mask) 0

/-! ## Messages -/

namespace MessageWriter

def requireOpenMessage (writer : MessageWriter) (token : Nat) : Rpc.Attempt Unit :=
  rejectIf (runtimeError "message operations must be properly nested")
    (token + 1 ≠ writer.messageTagStarts.length)

def beginMessage (writer : MessageWriter) : Rpc.Attempt (Nat × MessageWriter) := do
  let token := writer.messageTagStarts.length
  let (_, writer) ← writer.reserve 4
  return (token, { writer with
    messageTagStarts := writer.messageTagStarts ++ [writer.messageTags.length]
    messagePayloadStarts := writer.messagePayloadStarts ++ [writer.length] })

def markMessageField (writer : MessageWriter) (token tag : Nat) : Rpc.Attempt MessageWriter := do
  writer.requireOpenMessage token
  rejectIf (runtimeError s!"message tag is out of range: {tag}") (tag < 1 ∨ tag > 255)
  let tagStart ← item writer.messageTagStarts token
  let previous ←
    (if writer.messageTags.length = tagStart then return 0
      else item writer.messageTags (writer.messageTags.length - 1))
  rejectIf (runtimeError "message fields must be written in ascending tag order") (tag ≤ previous)
  let payloadStart ← item writer.messagePayloadStarts token
  return { writer with
    messageTags := writer.messageTags ++ [tag]
    messageOffsets := writer.messageOffsets ++ [writer.length - payloadStart] }

def writeOffset (writer : MessageWriter) (value width : Int) : Rpc.Attempt MessageWriter :=
  match width with
  | 1 => writer.writeByte value
  | 2 => writer.writeUint16 value
  | 4 => writer.writeUint32 value
  | _ => throw (runtimeError s!"invalid message offset width: {width}")

def writeBoundaries (width : Int) : (offsets : List Nat) → MessageWriter → Rpc.Attempt MessageWriter
  | [], writer => return writer
  | offset :: rest, writer => do
    let writer ← writer.writeOffset offset width
    writeBoundaries width rest writer

def writeTags : (tags : List Nat) → MessageWriter → Rpc.Attempt MessageWriter
  | [], writer => return writer
  | tag :: rest, writer => do
    let writer ← writer.writeByte tag
    writeTags rest writer

/-- The loop over the blocks from `block`, of which `n` are left. -/
def writeBlocks (blockMask : Int) (tags : List Nat) :
    (n : Nat) → (block rank : Int) → MessageWriter → Rpc.Attempt MessageWriter
  | 0, _, _, writer => return writer
  | n + 1, block, rank, writer => do
    if land blockMask (shl 1 block) = 0 then
      writeBlocks blockMask tags n (block + 1) rank writer
    else
      let mask := blockTagMask block tags
      let writer ← writer.writeByte rank
      let writer ← writer.writeUint32 (shru mask 0)
      writeBlocks blockMask tags n (block + 1) (rank + popcount32 mask) writer

/-- The switch of `endMessage`. -/
def writeDirectory (writer : MessageWriter) (directory : MessageDirectoryLayout) (blockMask : Int)
    (tags : List Nat) : Rpc.Attempt MessageWriter :=
  match directory.kind with
  | 0 => return writer
  | 1 | 2 | 3 => writeTags tags writer
  | 4 | 5 | 6 => writer.writeOffset (shru (tagMask tags) 0) (shl 1 (directory.kind - 4))
  | 7 => do
    let writer ← writeBlocks blockMask tags 8 0 0 writer
    writer.writeByte blockMask
  | _ => throw (runtimeError "invalid message directory kind")

/-- The loops over the tags run from `tagStart`, over boundaries from the next. -/
def endMessage (writer : MessageWriter) (token : Nat) : Rpc.Attempt MessageWriter := do
  writer.requireOpenMessage token
  let tagStart ← item writer.messageTagStarts token
  let payloadStart ← item writer.messagePayloadStarts token
  let fieldCount := writer.messageTags.length - tagStart
  let payloadSize := writer.length - payloadStart
  let offsetWidth : Nat := if payloadSize ≤ 0xff then 1 else if payloadSize ≤ 0xffff then 2 else 4
  let maxTag ←
    (if fieldCount = 0 then return 0
      else item writer.messageTags (writer.messageTags.length - 1))
  let tags := writer.messageTags.drop tagStart
  let blockMask := tagBlockMask tags
  let directory := messageDirectoryLayout fieldCount maxTag blockMask
  let bodySize := payloadSize + (fieldCount - 1) * offsetWidth + directory.size.toNat + 1
  rejectIf (runtimeError "message body exceeds uint32 length") (bodySize > 0xffffffff)
  let offsets := (writer.messageOffsets.drop (tagStart + 1)).take (fieldCount - 1)
  let writer ← writeBoundaries offsetWidth offsets writer
  let writer ← writer.writeDirectory directory blockMask tags
  let widthCode : Int := if offsetWidth = 1 then 0 else if offsetWidth = 2 then 1 else 2
  let writer ← writer.writeByte (lor (shl directory.kind 2) widthCode)
  return {
    toBebopWriter := writer.setUint32 (payloadStart - 4) bodySize
    messageTags := writer.messageTags.take tagStart
    messageOffsets := writer.messageOffsets.take tagStart
    messageTagStarts := writer.messageTagStarts.dropLast
    messagePayloadStarts := writer.messagePayloadStarts.dropLast }

end MessageWriter

end Bebop.TypeScript
