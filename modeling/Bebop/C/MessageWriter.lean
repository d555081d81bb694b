import Bebop.C.MessageIndex

/-!
# Bebop — the C indexed-message writer

The parts of the writer of `bebop_wire.c` that an indexed message goes through. A writer
is the bytes written and the size of its buffer. `Writer.store` is a write through the
output pointer: past the end of the buffer it is a fault, so that the sizes computed
before a reservation have to be right. The arena is the predicate `alloc`, which says
whether an allocation of a size succeeds.
-/

namespace Bebop.C

open Checked Bytes Bits Message

/-! ## Buffer -/

/-- The doubling loop of `bebop_writer_reserve`. -/
def growSize (target size : Nat) (h : 0 < size) : Nat :=
  if size < target then
    if size > sizeMax / 2 then target else growSize target (size * 2) (by omega)
  else size
termination_by target - size

theorem le_growSize (target size : Nat) (h : 0 < size) : target ≤ growSize target size h := by
  fun_induction growSize target size h with
  | case1 => exact Nat.le_refl _
  | case2 size h hlt hmax ih => exact ih
  | case3 size h hge => exact Nat.not_lt.mp hge

/-- `Bebop_Writer`: the bytes before `current`, and `end - buffer`. -/
structure Writer where
  bytes : List UInt8
  capacity : Nat
  fits : bytes.length ≤ capacity

/-- `bebop_writer_length` -/
abbrev writerLength (writer : Writer) : Nat := writer.bytes.length

def Writer.store (writer : Writer) (data : List UInt8) : Outcome Writer :=
  if h : writer.bytes.length + data.length ≤ writer.capacity then
    .ok ⟨writer.bytes ++ data, writer.capacity, by rwa [List.length_append]⟩
  else .error .fault

/-- `bebop_writer_reserve` -/
def writerReserve (alloc : Nat → Bool) (writer : Writer) (additional : Nat) : Outcome Writer := do
  if additional ≤ writer.capacity - writer.bytes.length then return writer
  else
    rejectIf (.raised .overflow) (additional > sizeMax - writer.bytes.length)
    let targetSize := writer.bytes.length + additional
    let size := if writer.capacity > 0 then writer.capacity else 16
    let newSize := growSize targetSize size (by dsimp only [size]; split <;> omega)
    rejectIf (.raised .oom) (alloc newSize = false)
    return ⟨writer.bytes, newSize,
      Nat.le_trans (Nat.le_add_right _ additional) (le_growSize targetSize size _)⟩

/-- `bebop_writer_write_u32` and `bebop_writer_write_fixed_bytes`: reserve, then copy. -/
def writerWriteFixedBytes (alloc : Nat → Bool) (writer : Writer) (value : List UInt8) :
    Outcome Writer := do
  let writer ← writerReserve alloc writer value.length
  writer.store value

def writerWriteU32 (alloc : Nat → Bool) (writer : Writer) (value : Nat) : Outcome Writer :=
  writerWriteFixedBytes alloc writer (leBytes 4 value)

/-- `bebop_writer_begin_length`: the position of the prefix, and the writer past it. -/
def writerBeginLength (alloc : Nat → Bool) (writer : Writer) : Outcome (Nat × Writer) := do
  return (writerLength writer, ← writerWriteU32 alloc writer 0)

/-- `bebop_writer_end_length` -/
def writerEndLength (writer : Writer) (position length : Nat) : Outcome Writer :=
  if h : writerLength writer < 4 ∨ position > writerLength writer - 4 then throw malformed
  else return {
    bytes := writer.bytes.take position ++ leBytes 4 length ++ writer.bytes.drop (position + 4)
    capacity := writer.capacity
    fits := by
      have := writer.fits
      simp only [writerLength, not_or, Nat.not_lt] at h
      simp only [List.length_append, List.length_take, length_leBytes, List.length_drop]
      omega }

/-- `bebop_wire_store_le` -/
def wireStoreLe (writer : Writer) (value width : Nat) : Outcome Writer := do
  let writer ← writer.store [UInt8.ofNat value]
  if width > 1 then
    let writer ← writer.store [UInt8.ofNat (value >>> 8)]
    if width > 2 then
      let writer ← writer.store [UInt8.ofNat (value >>> 16)]
      writer.store [UInt8.ofNat (value >>> 24)]
    else return writer
  else return writer

/-! ## Directory -/

/-- The loop of `bebop_message_tags_valid` past the first tag. -/
def tagsAscend : (previous : Nat) → List Nat → Bool
  | _, [] => true
  | previous, tag :: rest => if tag ≤ previous then false else tagsAscend tag rest

/-- `bebop_message_tags_valid` -/
def messageTagsValid : List Nat → Bool
  | [] => true
  | tag :: rest => if tag = 0 then false else tagsAscend tag rest

/-- `bebop_message_directory_layout_t` -/
structure DirectoryLayout where
  kind : DirectoryKind
  size : Nat
  blockMask : Nat
  deriving DecidableEq, Repr

/-- `layout.kind = count`, for a count between one and three. -/
def tinyKind : Nat → DirectoryKind
  | 1 => .tiny1
  | 2 => .tiny2
  | _ => .tiny3

/-- The smallest mask that reaches the last tag, when the blocks take more. -/
def maskLayout (maxTag : Nat) (layout : DirectoryLayout) : DirectoryLayout :=
  if maxTag ≤ 8 ∧ 1 ≤ layout.size then { layout with kind := .mask8, size := 1 }
  else if maxTag ≤ 16 ∧ 2 ≤ layout.size then { layout with kind := .mask16, size := 2 }
  else if maxTag ≤ 32 ∧ 4 ≤ layout.size then { layout with kind := .mask32, size := 4 }
  else layout

/-- The list of up to three tags, when that takes less. -/
def tinyLayout (count : Nat) (layout : DirectoryLayout) : DirectoryLayout :=
  if count ≤ 3 ∧ count < layout.size then { layout with kind := tinyKind count, size := count }
  else layout

/-- `bebop_message_directory_layout` -/
def messageDirectoryLayout (tags : List Nat) : DirectoryLayout :=
  match tags.getLast? with
  | none => ⟨.empty, 0, 0⟩
  | some maxTag =>
    let blockMask := tags.foldl (fun mask tag => mask ||| (1 <<< ((tag - 1) >>> 5))) 0
    let layout := ⟨.blocks, 1 + 5 * wirePopcount32 blockMask, blockMask⟩
    tinyLayout tags.length (maskLayout maxTag layout)

/-- `UINT32_C(1) << (tag - first)`: undefined below the first tag and from 32 bits on. -/
def tagBit (first tag : Nat) : Outcome Nat :=
  if first ≤ tag ∧ tag - first < 32 then .ok (1 <<< (tag - first)) else .error .fault

def tagMask : (tags : List Nat) → (mask : Nat) → Outcome Nat
  | [], mask => return mask
  | tag :: rest, mask => do tagMask rest (mask ||| (← tagBit 1 tag))

/-- The inner loop of a block directory: the mask of the tags below the limit. -/
def takeBlock (first limit : Nat) : (tags : List Nat) → (mask : Nat) → Outcome (Nat × List Nat)
  | [], mask => return (mask, [])
  | tag :: rest, mask => do
    if tag < limit then takeBlock first limit rest (mask ||| (← tagBit first tag))
    else return (mask, tag :: rest)

/-- The loop over the blocks from `block`, of which `n` are left. -/
def writeBlocks (blockMask : Nat) :
    (n block rank : Nat) → (tags : List Nat) → Writer → Outcome Writer
  | 0, _, _, _, output => return output
  | n + 1, block, rank, tags, output => do
    if blockMask &&& (1 <<< block) = 0 then
      writeBlocks blockMask n (block + 1) rank tags output
    else
      let firstTag := block * 32 + 1
      let blockLimit := firstTag + 32
      let (mask, tags) ← takeBlock firstTag blockLimit tags 0
      let output ← output.store [UInt8.ofNat rank]
      let output ← wireStoreLe output mask 4
      writeBlocks blockMask n (block + 1) ((rank + wirePopcount32 mask) % 256) tags output

/-- The switch of `bebop_writer_end_indexed_message`. -/
def writeDirectory (directory : DirectoryLayout) (tags : List Nat) (output : Writer) :
    Outcome Writer :=
  match directory.kind with
  | .empty => return output
  | .tiny1 | .tiny2 | .tiny3 => output.store (tags.map UInt8.ofNat)
  | .mask8 | .mask16 | .mask32 => do
    let mask ← tagMask tags 0
    wireStoreLe output mask directory.size
  | .blocks => do
    let output ← writeBlocks directory.blockMask 8 0 0 tags output
    output.store [UInt8.ofNat directory.blockMask]

/-! ## The end of a message -/

/-- `UINT32_MAX` -/
def uint32Max : Nat := 2 ^ 32 - 1

/-- `payload_size <= UINT8_MAX ? 1 : payload_size <= UINT16_MAX ? 2 : 4` -/
def boundaryWidth (payloadSize : Nat) : Nat :=
  if payloadSize ≤ 255 then 1 else if payloadSize ≤ 65535 then 2 else 4

/-- `metadata_size`: what follows the payload. -/
def metadataSize (payloadSize : Nat) (sortedTags : List Nat) : Nat :=
  let boundaryCount := if sortedTags.length = 0 then 0 else sortedTags.length - 1
  1 + (messageDirectoryLayout sortedTags).size + boundaryCount * boundaryWidth payloadSize

/-- The check of the offsets, each against the payload and the one before. -/
def offsetsValid (payloadSize : Nat) : (previous : Option Nat) → List Nat → Bool
  | _, [] => true
  | previous, offset :: rest =>
    if offset > payloadSize ∨ previous.any (offset < ·) then false
    else offsetsValid payloadSize (some offset) rest

def writeBoundaries (width : Nat) : (offsets : List Nat) → Writer → Outcome Writer
  | [], output => return output
  | offset :: rest, output => do
    let output ← wireStoreLe output offset width
    writeBoundaries width rest output

/-- `bebop_writer_end_indexed_message`. The two arrays are one list of pairs. -/
def writerEndIndexedMessage (alloc : Nat → Bool) (writer : Writer)
    (lengthPosition payloadStart : Nat) (fields : List (Nat × Nat)) : Outcome Writer := do
  let sortedTags := fields.map Prod.fst
  let payloadOffsets := fields.map Prod.snd
  rejectIf invalid (messageTagsValid sortedTags = false)
  let written := writerLength writer
  rejectIf invalid (lengthPosition > sizeMax - wireSizeLen ∨
    lengthPosition + wireSizeLen ≠ payloadStart ∨ payloadStart > written)
  let payloadSize := written - payloadStart
  rejectIf (.raised .overflow) (payloadSize > uint32Max)
  rejectIf invalid (fields.length = 0 ∧ payloadSize ≠ 0)
  rejectIf invalid (payloadOffsets.head?.any (· ≠ 0) = true)
  rejectIf invalid (offsetsValid payloadSize none payloadOffsets = false)
  let width := boundaryWidth payloadSize
  let widthCode := if width = 1 then 0 else if width = 2 then 1 else 2
  let directory := messageDirectoryLayout sortedTags
  let metadataSize := metadataSize payloadSize sortedTags
  rejectIf (.raised .overflow) (payloadSize > uint32Max - metadataSize)
  let writer ← writerReserve alloc writer metadataSize
  let output ← writeBoundaries width (payloadOffsets.drop 1) writer
  let output ← writeDirectory directory sortedTags output
  let output ← output.store [UInt8.ofNat (directory.kind.code <<< 2 ||| widthCode)]
  writerEndLength output lengthPosition ((payloadSize + metadataSize) % 2 ^ 32)

end Bebop.C
