import Bebop.Lib.Checked
import Bebop.Message.Format

/-!
# Bebop — the Swift message index

`parseMessageIndex` and the lookups of `BebopMessage.swift`. `Int` values are `Int`, and
unsigned words are natural numbers. A read outside the buffer, an unsigned subtraction
below zero and a range whose end precedes its start are faults.
-/

namespace Bebop.Swift

open Checked Bits Message

/-- The case of `BebopDecodingError` that is thrown here. -/
inductive DecodingError where
  | malformedMessage
  deriving DecidableEq, Repr

abbrev Attempt := Checked DecodingError

/-- `throw BebopDecodingError.malformedMessage` -/
def malformedMessage : Stop DecodingError := .raised .malformedMessage

def minus (a b : Nat) : Attempt Nat := if b ≤ a then .ok (a - b) else .error .fault

/-- The number of elements of `lower..<upper`. -/
def rangeCount (lower upper : Int) : Attempt Nat :=
  if lower ≤ upper then .ok (upper - lower).toNat else .error .fault

/-- `n` bytes of the buffer as a little-endian word. -/
def loadUnaligned (bytes : List UInt8) (offset : Int) : (n : Nat) → Attempt Nat
  | 0 => return 0
  | n + 1 => do
    let byte ← readAt bytes offset
    return byte + 256 * (← loadUnaligned bytes (offset + 1) n)

variable (bytes : List UInt8)

def loadLittleEndian (offset width : Int) : Attempt Nat :=
  if width = 1 then readAt bytes offset
  else if width = 2 then loadUnaligned bytes offset 2
  else loadUnaligned bytes offset 4

structure ParsedMessageIndex where
  encodedCount : Int
  payloadEnd : Int
  boundariesOffset : Int
  directoryOffset : Int
  fieldCount : Int
  offsetWidth : Int
  directoryKind : Nat
  deriving DecidableEq, Repr

/-! ## `parseMessageIndex` -/

/-- The first checks: the body length, the boundary width and the directory
kind. -/
def parseHeader : Attempt (Int × Int × DirectoryKind) := do
  rejectIf malformedMessage (¬(bytes.length : Int) ≥ 5)
  let bodyLength : Nat ← loadLittleEndian bytes 0 4
  rejectIf malformedMessage (¬((bodyLength : Int) = bytes.length - 4 ∧ (bodyLength : Int) > 0))
  let control ← readAt bytes ((bytes.length : Int) - 1)
  let widthCode := control &&& 3
  let kindValue := (control >>> 2) &&& 7
  rejectIf malformedMessage (¬(control &&& 0xe0 = 0 ∧ widthCode ≠ 3))
  match DirectoryKind.ofCode kindValue with
  | some kind => return (bodyLength, (1 <<< widthCode : Nat), kind)
  | none => throw malformedMessage

/-- The first switch: the size of the directory, and the field count of the
tiny kinds. -/
def directoryShape (bodyLength : Int) (kind : DirectoryKind) : Attempt (Int × Int) := do
  match kind with
  | .empty => return (0, 0)
  | .tiny1 | .tiny2 | .tiny3 => return (kind.code, kind.code)
  | .mask8 => return (1, 0)
  | .mask16 => return (2, 0)
  | .mask32 => return (4, 0)
  | .blocks =>
    rejectIf malformedMessage (¬bodyLength ≥ 2)
    let top ← readAt bytes ((bytes.length : Int) - 2)
    return (1 + 5 * (popcount 8 top : Nat), 0)

/-- The loop over the blocks from `block`, of which `n` are left. -/
def parseBlocks (bytes : List UInt8) (blockMask : Nat) :
    (n block : Nat) → (entry rank : Int) → Attempt Int
  | 0, _, _, rank => return rank
  | n + 1, block, entry, rank => do
    if blockMask &&& (1 <<< block) ≠ 0 then
      let stored : Nat ← readAt bytes entry
      rejectIf malformedMessage (¬(stored : Int) = rank)
      let mask ← loadLittleEndian bytes (entry + 1) 4
      rejectIf malformedMessage (¬(mask ≠ 0 ∧ (block ≠ 7 ∨ mask &&& 0x80000000 = 0)))
      parseBlocks bytes blockMask n (block + 1) (entry + 5) (rank + (popcount 32 mask : Nat))
    else parseBlocks bytes blockMask n (block + 1) entry rank

/-- The second switch: the field count of the other kinds. -/
def directoryFields (kind : DirectoryKind)
    (directoryOffset directorySize fieldCount : Int) : Attempt Int := do
  match kind with
  | .mask8 | .mask16 | .mask32 =>
    let mask ← loadLittleEndian bytes directoryOffset directorySize
    return (popcount 32 mask : Nat)
  | .blocks =>
    let blockMask ← readAt bytes (directoryOffset + directorySize - 1)
    rejectIf malformedMessage (¬blockMask ≠ 0)
    parseBlocks bytes blockMask 8 0 directoryOffset 0
  | _ => return fieldCount

/-- The loop over the tags of a tiny directory from `index`, `n` being left. -/
def tinyAscends (bytes : List UInt8) (directoryOffset : Int) : (n : Nat) → (index : Int) → Attempt Unit
  | 0, _ => return ()
  | n + 1, index => do
    let tag ← readAt bytes (directoryOffset + index)
    let before ← readAt bytes (directoryOffset + index - 1)
    rejectIf malformedMessage (tag ≤ before)
    tinyAscends bytes directoryOffset n (index + 1)

def tinyValid (directoryOffset fieldCount : Int) : Attempt Unit := do
  rejectIf malformedMessage (¬(← readAt bytes directoryOffset) ≠ 0)
  tinyAscends bytes directoryOffset (← rangeCount 1 fieldCount) 1

/-- The directory: where it starts, its size, and the field count. -/
def parseDirectory (bodyLength : Int) (kind : DirectoryKind) : Attempt (Int × Int × Int) := do
  let (directorySize, fieldCount) ← directoryShape bytes bodyLength kind
  rejectIf malformedMessage (¬directorySize + 1 ≤ bodyLength)
  let directoryOffset := (bytes.length : Int) - 1 - directorySize
  let fieldCount ← directoryFields bytes kind directoryOffset directorySize fieldCount
  rejectIf malformedMessage (¬(fieldCount = 0 ↔ kind = .empty))
  (if kind = .tiny1 ∨ kind = .tiny2 ∨ kind = .tiny3 then tinyValid bytes directoryOffset fieldCount
    else return ())
  return (directoryOffset, directorySize, fieldCount)

/-- The loop over the boundaries from `rank`, of which `n` are left. -/
def boundariesAscend (bytes : List UInt8) (boundariesOffset width payloadEnd : Int) :
    (n : Nat) → (rank : Int) → (previous : Nat) → Attempt Unit
  | 0, _, _ => return ()
  | n + 1, rank, previous => do
    let boundary ← loadLittleEndian bytes (boundariesOffset + rank * width) width
    rejectIf malformedMessage (¬(boundary ≥ previous ∧ (boundary : Int) ≤ payloadEnd - 4))
    boundariesAscend bytes boundariesOffset width payloadEnd n (rank + 1) boundary

def parseMessageIndex : Attempt ParsedMessageIndex := do
  let (bodyLength, width, kind) ← parseHeader bytes
  let (directoryOffset, directorySize, fieldCount) ← parseDirectory bytes bodyLength kind
  let boundaryCount := max 0 (fieldCount - 1)
  let boundarySize := boundaryCount * width
  rejectIf malformedMessage (¬boundarySize + directorySize + 1 ≤ bodyLength)
  let boundariesOffset := directoryOffset - boundarySize
  let payloadEnd := boundariesOffset
  boundariesAscend bytes boundariesOffset width payloadEnd (← rangeCount 0 boundaryCount) 0 0
  rejectIf malformedMessage (¬(fieldCount ≠ 0 ∨ payloadEnd = 4))
  return ⟨bytes.length, payloadEnd, boundariesOffset, directoryOffset, fieldCount, width, kind.code⟩

/-! ## Lookups -/

/-- The search of a tiny directory from `rank`, `n` tags being left. -/
def tinyRank (tag : Nat) (index : ParsedMessageIndex) (bytes : List UInt8) :
    (n : Nat) → (rank : Int) → Attempt (Option Int)
  | 0, _ => return none
  | n + 1, rank => do
    let candidate ← readAt bytes (index.directoryOffset + rank)
    if candidate = tag then return some rank
    else if candidate > tag then return none
    else tinyRank tag index bytes n (rank + 1)

/-- `tag` is a `UInt8`. -/
def messageFieldRank (tag : Nat) (index : ParsedMessageIndex) (bytes : List UInt8) :
    Attempt (Option Int) := do
  if ¬(tag ≠ 0 ∧ index.fieldCount ≠ 0) then return none
  else
    match DirectoryKind.ofCode index.directoryKind with
    | none | some .empty => return none
    | some .tiny1 | some .tiny2 | some .tiny3 =>
      tinyRank tag index bytes (← rangeCount 0 index.fieldCount) 0
    | some .mask8 | some .mask16 | some .mask32 =>
      let maskWidth := 1 <<< (index.directoryKind - 4)
      if ¬tag ≤ maskWidth * 8 then return none
      else
        let mask ← loadLittleEndian bytes index.directoryOffset (maskWidth : Nat)
        let bit := (1 <<< (← minus tag 1)) % 2 ^ 32
        if ¬mask &&& bit ≠ 0 then return none
        else return some (popcount 32 (mask &&& (← minus bit 1)) : Nat)
    | some .blocks =>
      let block := (← minus tag 1) >>> 5
      let blockBit := (1 <<< block) % 2 ^ 8
      let topMask ← readAt bytes (index.encodedCount - 2)
      if ¬topMask &&& blockBit ≠ 0 then return none
      else
        let preceding := popcount 8 (topMask &&& (← minus blockBit 1))
        let entry := index.directoryOffset + 5 * (preceding : Nat)
        let mask ← loadLittleEndian bytes (entry + 1) 4
        let bit := (1 <<< ((← minus tag 1) &&& 31)) % 2 ^ 32
        if ¬mask &&& bit ≠ 0 then return none
        else
          let stored : Nat ← readAt bytes entry
          return some (stored + (popcount 32 (mask &&& (← minus bit 1)) : Nat))

/-- The bounds of a `Range<Int>`, which traps when they are inverted. -/
def messageFieldRange (rank : Int) (index : ParsedMessageIndex) (bytes : List UInt8) :
    Attempt (Int × Int) := do
  let start : Nat ←
    (if rank = 0 then return 0
      else loadLittleEndian bytes
        (index.boundariesOffset + (rank - 1) * index.offsetWidth) index.offsetWidth)
  let stop : Int ←
    (if rank + 1 = index.fieldCount then return index.payloadEnd - 4
      else do
        let boundary : Nat ← loadLittleEndian bytes
          (index.boundariesOffset + rank * index.offsetWidth) index.offsetWidth
        return boundary)
  let _ ← rangeCount (4 + start) (4 + stop)
  return (4 + start, 4 + stop)

/-- `BebopView.slice`, whose precondition traps. -/
def slice (range : Int × Int) : Attempt (Int × Int) :=
  if range.1 ≥ 0 ∧ range.2 ≤ (bytes.length : Int) then .ok range else .error .fault

/-- `BebopMessageView.field`: the bounds of the slice, or `nil`. -/
def field (tag : Nat) (index : ParsedMessageIndex) (bytes : List UInt8) :
    Attempt (Option (Int × Int)) := do
  match ← messageFieldRank tag index bytes with
  | none => return none
  | some rank => return some (← slice bytes (← messageFieldRange rank index bytes))

end Bebop.Swift
