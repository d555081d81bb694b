import Bebop.Lib.Checked
import Bebop.Message.Format

/-!
# Bebop — the C message index

The indexed-message reader of `bebop_wire.c`. A pointer into the encoded view is its offset
from `encoded.data`; a read outside the view, a pointer stepped back before it, and a count
of the trailing zeros of zero are faults. The header test is the same text in both readers
and is one definition here; the two block scans test in a different order and are two.
-/

namespace Bebop.C

open Checked Bits Message

/-- `Bebop_Result` -/
inductive Result where
  | ok | malformed | overflow | oom | null | invalid
  deriving DecidableEq, Repr

abbrev Outcome := Checked Result

/-- `return BEBOP_RESULT_MALFORMED` -/
def malformed : Stop Result := .raised .malformed

/-- `return BEBOP_RESULT_INVALID` -/
def invalid : Stop Result := .raised .invalid

/-- `BEBOP_WIRE_SIZE_LEN` -/
abbrev wireSizeLen : Nat := 4

theorem wireSizeLen_eq : wireSizeLen = 4 := rfl

/-- `bebop_wire_popcount32` -/
abbrev wirePopcount32 (value : Nat) : Nat := popcount 32 value

/-- The index of the lowest set bit. The builtin is undefined at zero. -/
def wireCtz32 (value : Nat) : Outcome Nat :=
  match bits 32 value with
  | bit :: _ => .ok bit
  | [] => .error .fault

def wireLoadLe (data : List UInt8) (at_ width : Nat) : Outcome Nat := do
  let value ← read data at_
  if width > 1 then
    let value := value ||| ((← read data (at_ + 1)) <<< 8)
    if width > 2 then
      let value := value ||| ((← read data (at_ + 2)) <<< 16)
      return value ||| ((← read data (at_ + 3)) <<< 24)
    else return value
  else return value

/-- `Bebop_MessageIndex` -/
structure MessageIndex where
  encoded : List UInt8
  boundaries : Nat
  directory : Nat
  fieldCount : Nat
  offsetWidth : Nat
  directoryKind : DirectoryKind
  deriving DecidableEq, Repr

/-! ## Header and directory -/

/-- The body length, the boundary width and the directory kind. -/
structure Header where
  bodyLength : Nat
  width : Nat
  kind : DirectoryKind

variable (encoded : List UInt8)

def messageHeader : Outcome Header := do
  rejectIf malformed (encoded.length < wireSizeLen + 1)
  let bodyLength ← wireLoadLe encoded 0 4
  rejectIf malformed (bodyLength ≠ encoded.length - wireSizeLen ∨ bodyLength = 0)
  let control ← read encoded (← back encoded.length 1)
  let widthCode := control &&& 3
  let kind := (control >>> 2) &&& 7
  rejectIf malformed (control &&& 0xe0 ≠ 0 ∨ widthCode = 3)
  let width := 1 <<< widthCode
  match DirectoryKind.ofCode kind with
  | some kind => return ⟨bodyLength, width, kind⟩
  | none => throw malformed

/-- The loop over the blocks from `block`: the field count, or `MALFORMED`. -/
def parseBlocks (encoded : List UInt8) (blockMask : Nat) : (n block entry rank : Nat) → Outcome Nat
  | 0, _, _, rank => return rank
  | n + 1, block, entry, rank => do
    if blockMask &&& (1 <<< block) = 0 then
      parseBlocks encoded blockMask n (block + 1) entry rank
    else
      rejectIf malformed ((← read encoded entry) ≠ rank)
      let mask ← wireLoadLe encoded (entry + 1) 4
      rejectIf malformed (mask = 0 ∨ (block = 7 ∧ mask &&& 0x80000000 ≠ 0))
      parseBlocks encoded blockMask n (block + 1) (entry + 5) (rank + wirePopcount32 mask)

/-- The loop of `bebop_message_index_begin`, which loads the mask first. -/
def beginBlocks (encoded : List UInt8) (blockMask : Nat) : (n block entry rank : Nat) → Outcome Nat
  | 0, _, _, rank => return rank
  | n + 1, block, entry, rank => do
    if blockMask &&& (1 <<< block) = 0 then
      beginBlocks encoded blockMask n (block + 1) entry rank
    else
      let mask ← wireLoadLe encoded (entry + 1) 4
      rejectIf malformed
        ((← read encoded entry) ≠ rank ∨ mask = 0 ∨ (block = 7 ∧ mask &&& 0x80000000 ≠ 0))
      beginBlocks encoded blockMask n (block + 1) (entry + 5) (rank + wirePopcount32 mask)

/-- The loop over the `n` tags of a tiny directory from index `i`. -/
def tinyAscends (encoded : List UInt8) (directory : Nat) : (n i : Nat) → Outcome Unit
  | 0, _ => return ()
  | n + 1, i => do
    let tag ← read encoded (directory + i)
    let before ← read encoded (← back (directory + i) 1)
    rejectIf malformed (tag ≤ before)
    tinyAscends encoded directory n (i + 1)

def tinyValid (directory fieldCount : Nat) : Outcome Unit := do
  rejectIf malformed ((← read encoded directory) = 0)
  tinyAscends encoded directory (fieldCount - 1) 1

/-- `kind >= BEBOP_MESSAGE_DIRECTORY_TINY1 && kind <= BEBOP_MESSAGE_DIRECTORY_TINY3` -/
def isTiny (kind : DirectoryKind) : Prop := 1 ≤ kind.code ∧ kind.code ≤ 3

/-- `kind >= BEBOP_MESSAGE_DIRECTORY_MASK8 && kind <= BEBOP_MESSAGE_DIRECTORY_MASK32` -/
def isMask (kind : DirectoryKind) : Prop := 4 ≤ kind.code ∧ kind.code ≤ 6

instance (kind : DirectoryKind) : Decidable (isTiny kind) := inferInstanceAs (Decidable (_ ∧ _))
instance (kind : DirectoryKind) : Decidable (isMask kind) := inferInstanceAs (Decidable (_ ∧ _))

structure Directory where
  offset : Nat
  size : Nat
  fieldCount : Nat

/-- The directory part of `bebop_message_index_parse`. -/
def parseDirectory (header : Header) : Outcome Directory := do
  let kind := header.kind
  let (size, fieldCount) ← match kind with
    | .empty => pure (0, 0)
    | .tiny1 | .tiny2 | .tiny3 => pure (kind.code, kind.code)
    | .mask8 => pure (1, 0)
    | .mask16 => pure (2, 0)
    | .mask32 => pure (4, 0)
    | .blocks => do
      rejectIf malformed (header.bodyLength < 2)
      pure (1 + 5 * wirePopcount32 (← read encoded (← back encoded.length 2)), 0)
  rejectIf malformed (size + 1 > header.bodyLength)
  let directory ← back encoded.length (1 + size)
  let fieldCount ←
    if isMask kind then do
      pure (wirePopcount32 (← wireLoadLe encoded directory size))
    else if kind = .blocks then do
      let blockMask ← read encoded (← back (directory + size) 1)
      rejectIf malformed (blockMask = 0)
      parseBlocks encoded blockMask 8 0 directory 0
    else pure fieldCount
  rejectIf malformed (fieldCount = 0 ∧ kind ≠ .empty)
  rejectIf malformed (fieldCount ≠ 0 ∧ kind = .empty)
  if isTiny kind then tinyValid encoded directory fieldCount else pure ()
  return ⟨directory, size, fieldCount⟩

/-- The directory part of `bebop_message_index_begin`. -/
def beginDirectory (header : Header) : Outcome Directory := do
  let kind := header.kind
  let (size, fieldCount) ← match kind with
    | .empty => pure (0, 0)
    | .tiny1 | .tiny2 | .tiny3 => pure (kind.code, kind.code)
    | .mask8 => pure (1, 0)
    | .mask16 => pure (2, 0)
    | .mask32 => pure (4, 0)
    | .blocks => do
      rejectIf malformed (header.bodyLength < 2)
      let top ← read encoded (← back encoded.length 2)
      rejectIf malformed (top = 0)
      pure (1 + 5 * wirePopcount32 top, 0)
  rejectIf malformed (size + 1 > header.bodyLength)
  let directory ← back encoded.length (1 + size)
  let fieldCount ←
    if isMask kind then do
      pure (wirePopcount32 (← wireLoadLe encoded directory size))
    else if kind = .blocks then do
      let blockMask ← read encoded (← back (directory + size) 1)
      beginBlocks encoded blockMask 8 0 directory 0
    else pure fieldCount
  rejectIf malformed (fieldCount = 0 ∧ kind ≠ .empty)
  if isTiny kind then tinyValid encoded directory fieldCount else pure ()
  return ⟨directory, size, fieldCount⟩

/-! ## The two readers -/

/-- `SIZE_MAX` -/
def sizeMax : Nat := 2 ^ 64 - 1

/-- The loop over the boundaries from `i`, of which `n` are left. -/
def boundariesAscend (encoded : List UInt8) (boundaries width payloadSize : Nat) :
    (n i previous : Nat) → Outcome Unit
  | 0, _, _ => return ()
  | n + 1, i, previous => do
    let boundary ← wireLoadLe encoded (boundaries + i * width) width
    rejectIf malformed (boundary < previous ∨ boundary > payloadSize)
    boundariesAscend encoded boundaries width payloadSize n (i + 1) boundary

/-- `bebop_message_index_parse` -/
def messageIndexParse : Outcome MessageIndex := do
  let header ← messageHeader encoded
  let directory ← parseDirectory encoded header
  let boundaryCount := if directory.fieldCount = 0 then 0 else directory.fieldCount - 1
  rejectIf malformed (boundaryCount > (sizeMax - directory.size - 1) / header.width)
  let boundarySize := boundaryCount * header.width
  rejectIf malformed (boundarySize + directory.size + 1 > header.bodyLength)
  let boundaries ← back directory.offset boundarySize
  let payloadSize ← back boundaries wireSizeLen
  boundariesAscend encoded boundaries header.width payloadSize boundaryCount 0 0
  rejectIf malformed (directory.fieldCount = 0 ∧ payloadSize ≠ 0)
  return ⟨encoded, boundaries, directory.offset, directory.fieldCount, header.width, header.kind⟩

/-- `bebop_message_index_begin` -/
def messageIndexBegin : Outcome MessageIndex := do
  let header ← messageHeader encoded
  let directory ← beginDirectory encoded header
  let boundarySize :=
    if directory.fieldCount = 0 then 0 else (directory.fieldCount - 1) * header.width
  if directory.fieldCount = 0 then
    rejectIf malformed (header.bodyLength ≠ 1)
  else
    rejectIf malformed (boundarySize + directory.size + 1 > header.bodyLength)
  let boundaries ← back directory.offset boundarySize
  return ⟨encoded, boundaries, directory.offset, directory.fieldCount, header.width, header.kind⟩

/-! ## Accessors -/

/-- `Bebop_View`: a range of the encoded bytes. -/
structure View where
  start : Nat
  length : Nat
  deriving DecidableEq, Repr

/-- `bebop_message_field_at_rank` -/
def messageFieldAtRank (index : MessageIndex) (rank : Nat) : Outcome View := do
  rejectIf invalid (rank ≥ index.fieldCount)
  let body := wireSizeLen
  let width := index.offsetWidth
  let start ←
    (if rank = 0 then pure 0
      else wireLoadLe index.encoded (index.boundaries + (rank - 1) * width) width)
  let payloadSize ← back index.boundaries body
  let stop ←
    (if rank + 1 = index.fieldCount then pure (payloadSize % 2 ^ 32)
      else wireLoadLe index.encoded (index.boundaries + rank * width) width)
  rejectIf malformed (stop < start ∨ stop > payloadSize)
  return ⟨body + start, stop - start⟩

/-- `bebop_message_index_field_at` -/
def messageIndexFieldAt (index : MessageIndex) (rank : Nat) : Outcome View :=
  messageFieldAtRank index rank

/-- The search through a tiny directory from `rank`, `n` tags being left. -/
def tinyRank (index : MessageIndex) (tag : Nat) : (n rank : Nat) → Outcome (Option Nat)
  | 0, _ => return none
  | n + 1, rank => do
    let candidate ← read index.encoded (index.directory + rank)
    if candidate = tag then return some rank
    else if candidate > tag then return none
    else tinyRank index tag n (rank + 1)

/-- The rank of a tag that is present: the switch of `bebop_message_index_field`. -/
def messageFieldRank (index : MessageIndex) (tag : Nat) : Outcome (Option Nat) :=
  match index.directoryKind with
  | .tiny1 | .tiny2 | .tiny3 => tinyRank index tag index.fieldCount 0
  | .mask8 | .mask16 | .mask32 => do
    let maskWidth := 1 <<< (index.directoryKind.code - DirectoryKind.mask8.code)
    if tag > maskWidth * 8 then return none
    else
      let mask ← wireLoadLe index.encoded index.directory maskWidth
      let bit := 1 <<< (tag - 1)
      if mask &&& bit = 0 then return none
      else return some (wirePopcount32 (mask &&& (bit - 1)))
  | .blocks => do
    let block := (tag - 1) >>> 5
    let blockBit := 1 <<< block
    let topMask ← read index.encoded (← back index.encoded.length 2)
    if topMask &&& blockBit = 0 then return none
    else
      let entry := index.directory + 5 * wirePopcount32 (topMask &&& (blockBit - 1))
      let mask ← wireLoadLe index.encoded (entry + 1) 4
      let bit := 1 <<< ((tag - 1) &&& 31)
      if mask &&& bit = 0 then return none
      else return some ((← read index.encoded entry) + wirePopcount32 (mask &&& (bit - 1)))
  | .empty => throw malformed

/-- `bebop_message_index_field`; `none` is `*present = false`. -/
def messageIndexField (index : MessageIndex) (tag : Nat) : Outcome (Option View) := do
  if tag = 0 ∨ index.fieldCount = 0 then return none
  else
    match ← messageFieldRank index tag with
    | none => return none
    | some rank => return some (← messageFieldAtRank index (rank % 256))

/-- `Bebop_MessageFieldIterator` -/
structure MessageFieldIterator where
  index : MessageIndex
  blockEntry : Nat
  pendingTags : Nat
  rank : Nat
  block : Nat
  tagBase : Nat
  deriving DecidableEq, Repr

/-- `bebop_message_field_iterator_init` -/
def messageFieldIteratorInit (index : MessageIndex) : Outcome MessageFieldIterator := do
  let pendingTags ←
    (if isMask index.directoryKind then
      wireLoadLe index.encoded index.directory
        (1 <<< (index.directoryKind.code - DirectoryKind.mask8.code))
    else pure 0)
  return ⟨index, index.directory, pendingTags, 0, 0, 0⟩

/-- The inner loop of the block case: the next block whose bit is set. -/
def nextBlock (topMask : Nat) : (n block : Nat) → Nat
  | 0, block => block
  | n + 1, block =>
    if topMask &&& (1 <<< block) = 0 then nextBlock topMask n (block + 1) else block

/-- The outer loop of the block case, which moves on while no tag is pending.
Each round consumes a block, so nine rounds are enough; a tenth is a fault. -/
def loadBlock : (n : Nat) → MessageFieldIterator → Outcome MessageFieldIterator
  | 0, _ => throw .fault
  | n + 1, it => do
    if it.pendingTags ≠ 0 then return it
    else
      let topMask ← read it.index.encoded (← back it.index.encoded.length 2)
      let block := nextBlock topMask (8 - it.block) it.block
      rejectIf malformed (block = 8)
      let pendingTags ← wireLoadLe it.index.encoded (it.blockEntry + 1) 4
      loadBlock n
        { it with
          tagBase := block * 32 % 256
          pendingTags := pendingTags
          blockEntry := it.blockEntry + 5
          block := block + 1 }

/-- `bebop_message_field_iterator_next_tag`; `none` is `*present = false`. -/
def messageFieldIteratorNextTag (it : MessageFieldIterator) :
    Outcome (Option Nat × MessageFieldIterator) := do
  let index := it.index
  if it.rank = index.fieldCount then return (none, it)
  else if isTiny index.directoryKind then
    let tag ← read index.encoded (index.directory + it.rank)
    return (some tag, { it with rank := (it.rank + 1) % 256 })
  else if isMask index.directoryKind then
    let bit ← wireCtz32 it.pendingTags
    return (some ((bit + 1) % 256),
      { it with pendingTags := it.pendingTags &&& (it.pendingTags - 1), rank := (it.rank + 1) % 256 })
  else if index.directoryKind = .blocks then
    let it ← loadBlock 9 it
    let bit ← wireCtz32 it.pendingTags
    return (some ((it.tagBase + bit + 1) % 256),
      { it with pendingTags := it.pendingTags &&& (it.pendingTags - 1), rank := (it.rank + 1) % 256 })
  else throw malformed

/-- `bebop_message_field_iterator_next`. The iterator moves on even when the
slice it moves past is refused, so the answer for the slice is kept apart. -/
def messageFieldIteratorNext (it : MessageFieldIterator) :
    Outcome (Option (Nat × Outcome View) × MessageFieldIterator) := do
  let (tag, it) ← messageFieldIteratorNextTag it
  return (tag.map fun tag => (tag, messageFieldAtRank it.index ((it.rank - 1) % 256)), it)

end Bebop.C
