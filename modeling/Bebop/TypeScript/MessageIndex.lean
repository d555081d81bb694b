import Bebop.Lib.Checked
import Bebop.Lib.JavaScript

/-!
# Bebop — the TypeScript message index

`parseMessageIndex` and the lookups of `message.ts`. Every number of the source is an
`Int`, and the 32-bit operators are those of the language. Reading an element that does not
exist yields `undefined` there; here it is a fault.
-/

namespace Bebop.TypeScript

open Checked JavaScript

/-- The one error of `malformedMessage`. -/
inductive Thrown where
  | malformedMessage
  deriving DecidableEq, Repr

abbrev Attempt := Checked Thrown

/-- `throw new BebopRuntimeError("malformed indexed message")` -/
def malformedMessage : Stop Thrown := .raised .malformedMessage

/-- `bytes[offset]!` -/
def element (bytes : List UInt8) (offset : Int) : Attempt Int := do
  return (← readAt bytes offset : Nat)

def loadLittleEndian (bytes : List UInt8) (offset width : Int) : Attempt Int := do
  if width = 1 then element bytes offset
  else if width = 2 then
    return lor (← element bytes offset) (shl (← element bytes (offset + 1)) 8)
  else if width = 4 then
    return shru (lor (lor (lor (← element bytes offset)
      (shl (← element bytes (offset + 1)) 8))
      (shl (← element bytes (offset + 2)) 16))
      (shl (← element bytes (offset + 3)) 24)) 0
  else throw malformedMessage

def popcount32 (value : Int) : Int :=
  let value := shru value 0
  let value := value - land (shru value 1) 0x55555555
  let value := land value 0x33333333 + land (shru value 2) 0x33333333
  shru (land (value + shru value 4) 0x0f0f0f0f * 0x01010101) 24

structure ParsedMessageIndex where
  payloadEnd : Int
  boundariesOffset : Int
  directoryOffset : Int
  fieldCount : Int
  offsetWidth : Int
  directoryKind : Int
  deriving DecidableEq, Repr

/-! ## `parseMessageIndex` -/

variable (encoded : List UInt8)

/-- The first checks: the body length, the boundary width and the directory
kind. -/
def parseHeader : Attempt (Int × Int × Int) := do
  rejectIf malformedMessage ((encoded.length : Int) < 5)
  let bodyLength ← loadLittleEndian encoded 0 4
  rejectIf malformedMessage (bodyLength ≠ (encoded.length : Int) - 4 ∨ bodyLength = 0)
  let control ← element encoded ((encoded.length : Int) - 1)
  let widthCode := land control 3
  let directoryKind := land (shru control 2) 7
  rejectIf malformedMessage (land control 0xe0 ≠ 0 ∨ widthCode = 3)
  return (bodyLength, shl 1 widthCode, directoryKind)

/-- The first switch: the size of the directory, and the field count of the
tiny kinds. -/
def directoryShape (bodyLength directoryKind : Int) : Attempt (Int × Int) := do
  match directoryKind with
  | 0 => return (0, 0)
  | 1 | 2 | 3 => return (directoryKind, directoryKind)
  | 4 => return (1, 0)
  | 5 => return (2, 0)
  | 6 => return (4, 0)
  | 7 =>
    rejectIf malformedMessage (bodyLength < 2)
    let blockMask ← element encoded ((encoded.length : Int) - 2)
    return (1 + 5 * popcount32 blockMask, 0)
  | _ => throw malformedMessage

/-- The loop over the blocks from `block`, of which `n` are left. -/
def parseBlocks (encoded : List UInt8) (blockMask : Int) :
    (n : Nat) → (block entry rank : Int) → Attempt Int
  | 0, _, _, rank => return rank
  | n + 1, block, entry, rank => do
    if land blockMask (shl 1 block) = 0 then
      parseBlocks encoded blockMask n (block + 1) entry rank
    else
      rejectIf malformedMessage ((← element encoded entry) ≠ rank)
      let mask ← loadLittleEndian encoded (entry + 1) 4
      rejectIf malformedMessage (mask = 0 ∨ (block = 7 ∧ land mask 0x80000000 ≠ 0))
      parseBlocks encoded blockMask n (block + 1) (entry + 5) (rank + popcount32 mask)

/-- The second switch: the field count of the other kinds. -/
def directoryFields
    (directoryKind directoryOffset directorySize fieldCount : Int) : Attempt Int := do
  match directoryKind with
  | 4 | 5 | 6 => return popcount32 (← loadLittleEndian encoded directoryOffset directorySize)
  | 7 =>
    let blockMask ← element encoded (directoryOffset + directorySize - 1)
    rejectIf malformedMessage (blockMask = 0)
    parseBlocks encoded blockMask 8 0 directoryOffset 0
  | _ => return fieldCount

/-- The loop over the tags of a tiny directory from `index`, `n` being left. -/
def tinyAscends (encoded : List UInt8) (directoryOffset : Int) :
    (n : Nat) → (index : Int) → Attempt Unit
  | 0, _ => return ()
  | n + 1, index => do
    let tag ← element encoded (directoryOffset + index)
    let before ← element encoded (directoryOffset + index - 1)
    rejectIf malformedMessage (tag ≤ before)
    tinyAscends encoded directoryOffset n (index + 1)

def tinyValid (directoryOffset fieldCount : Int) : Attempt Unit := do
  rejectIf malformedMessage ((← element encoded directoryOffset) = 0)
  tinyAscends encoded directoryOffset (fieldCount - 1).toNat 1

/-- The directory: where it starts, its size, and the field count. -/
def parseDirectory (bodyLength directoryKind : Int) : Attempt (Int × Int × Int) := do
  let (directorySize, fieldCount) ← directoryShape encoded bodyLength directoryKind
  rejectIf malformedMessage (directorySize + 1 > bodyLength)
  let directoryOffset := (encoded.length : Int) - 1 - directorySize
  let fieldCount ← directoryFields encoded directoryKind directoryOffset directorySize fieldCount
  rejectIf malformedMessage (¬(fieldCount = 0 ↔ directoryKind = 0))
  (if 1 ≤ directoryKind ∧ directoryKind ≤ 3 then tinyValid encoded directoryOffset fieldCount
    else return ())
  return (directoryOffset, directorySize, fieldCount)

/-- The loop over the boundaries from `rank`, of which `n` are left. -/
def boundariesAscend (encoded : List UInt8) (boundariesOffset offsetWidth payloadEnd : Int) :
    (n : Nat) → (rank previous : Int) → Attempt Unit
  | 0, _, _ => return ()
  | n + 1, rank, previous => do
    let boundary ← loadLittleEndian encoded (boundariesOffset + rank * offsetWidth) offsetWidth
    rejectIf malformedMessage (boundary < previous ∨ boundary > payloadEnd - 4)
    boundariesAscend encoded boundariesOffset offsetWidth payloadEnd n (rank + 1) boundary

def parseMessageIndex : Attempt ParsedMessageIndex := do
  let (bodyLength, offsetWidth, directoryKind) ← parseHeader encoded
  let (directoryOffset, directorySize, fieldCount) ←
    parseDirectory encoded bodyLength directoryKind
  let boundaryCount := max 0 (fieldCount - 1)
  let boundarySize := boundaryCount * offsetWidth
  rejectIf malformedMessage (boundarySize + directorySize + 1 > bodyLength)
  let boundariesOffset := directoryOffset - boundarySize
  let payloadEnd := boundariesOffset
  boundariesAscend encoded boundariesOffset offsetWidth payloadEnd boundaryCount.toNat 0 0
  rejectIf malformedMessage (fieldCount = 0 ∧ payloadEnd ≠ 4)
  return ⟨payloadEnd, boundariesOffset, directoryOffset, fieldCount, offsetWidth, directoryKind⟩

/-! ## Lookups -/

/-- The search of a tiny directory from `rank`, `n` tags being left. -/
def tinyRank (tag : Int) (index : ParsedMessageIndex) (encoded : List UInt8) :
    (n : Nat) → (rank : Int) → Attempt (Option Int)
  | 0, _ => return none
  | n + 1, rank => do
    let candidate ← element encoded (index.directoryOffset + rank)
    if candidate = tag then return some rank
    else if candidate > tag then return none
    else tinyRank tag index encoded n (rank + 1)

def fieldRank (tag : Int) (index : ParsedMessageIndex) (encoded : List UInt8) :
    Attempt (Option Int) := do
  if tag < 1 ∨ tag > 255 ∨ index.fieldCount = 0 then return none
  else
    match index.directoryKind with
    | 1 | 2 | 3 => tinyRank tag index encoded index.fieldCount.toNat 0
    | 4 | 5 | 6 =>
      let maskWidth := shl 1 (index.directoryKind - 4)
      if tag > maskWidth * 8 then return none
      else
        let mask ← loadLittleEndian encoded index.directoryOffset maskWidth
        let bit := shru (shl 1 (tag - 1)) 0
        if land mask bit = 0 then return none
        else return some (popcount32 (land mask (bit - 1)))
    | 7 =>
      let block := shru (tag - 1) 5
      let blockBit := shl 1 block
      let topMask ← element encoded ((encoded.length : Int) - 2)
      if land topMask blockBit = 0 then return none
      else
        let preceding := popcount32 (land topMask (blockBit - 1))
        let entry := index.directoryOffset + 5 * preceding
        let mask ← loadLittleEndian encoded (entry + 1) 4
        let bit := shru (shl 1 (land (tag - 1) 31)) 0
        if land mask bit = 0 then return none
        else return some ((← element encoded entry) + popcount32 (land mask (bit - 1)))
    | _ => return none

def fieldRange (rank : Int) (index : ParsedMessageIndex) (encoded : List UInt8) :
    Attempt (Int × Int) := do
  let start ←
    (if rank = 0 then return 0
      else loadLittleEndian encoded
        (index.boundariesOffset + (rank - 1) * index.offsetWidth) index.offsetWidth)
  let stop ←
    (if rank + 1 = index.fieldCount then return index.payloadEnd - 4
      else loadLittleEndian encoded
        (index.boundariesOffset + rank * index.offsetWidth) index.offsetWidth)
  return (4 + start, 4 + stop)

/-- `BebopMessageView.field`: the bounds of the subarray, or `undefined`. -/
def field (tag : Int) (index : ParsedMessageIndex) (encoded : List UInt8) :
    Attempt (Option (Int × Int)) := do
  match ← fieldRank tag index encoded with
  | none => return none
  | some rank =>
    let (start, stop) ← fieldRange rank index encoded
    return some (subarray encoded.length start stop)

end Bebop.TypeScript
