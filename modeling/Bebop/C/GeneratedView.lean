import Bebop.C.GeneratedDecode

/-!
# Bebop — the view readers that the C generator emits

What `gen_view_read` of `generator.c` emits: programs that pass over an encoding and keep
where it is. They request no memory and have no limit of depth; `calls` bounds how deep
their calls may go here, and where it is too small they end in a fault.
-/

namespace Bebop.C

open Bytes Checked Message Compiler

/-- The size of a type in `TYPE_MAP`. -/
def typeMapSize : Scalar → Nat
  | .bool | .byte | .int8 => 1
  | .int16 | .uint16 => 2
  | .int32 | .uint32 => 4
  | .int64 | .uint64 => 8
  | .int128 | .uint128 => 16
  | .float16 => 2
  | .float32 => 4
  | .float64 => 8
  | .bfloat16 => 2
  | .string => 0
  | .uuid => 16
  -- a timestamp is read as one of sixteen bytes
  | .timestamp => 12
  | .duration => 12

/-- A check that there are so many bytes, and a skip. -/
def viewSkipBytes (size : Nat) : Read Unit := do
  rejectIf malformed ((← get).remaining < size)
  modify (Reader.skip size)

section

variable (descriptors : List DescDef) (viewDefined : Nat → Read View)

def viewSkipItems (element : DescType) (skip : Read Unit) (count : Nat) : Read Unit := do
  -- `is_byte_sequence`
  if element = .scalar .byte then viewSkipBytes count
  else
    let _ ← times skip count

/-- `gen_view_skip_type`; `viewDefined` are the view readers of the definitions. -/
def viewSkipType : DescType → Read Unit
  | .scalar kind => do
    if typeMapSize kind ≠ 0 then viewSkipBytes (typeMapSize kind)
    else
      let _ ← readerReadString
  | .defined ref =>
    match enumBaseType descriptors ref with
    | some baseType => viewSkipBytes (typeMapSize baseType)
    | none => do
      let _ ← viewDefined ref
  | .array element => do
    let count ← Read.ofCall readerReadU32
    viewSkipItems element (viewSkipType element) count
  | .fixedArray element size => viewSkipItems element (viewSkipType element) size
  | .map key value => do
    let count ← Read.ofCall readerReadU32
    let _ ← times (do
      viewSkipType key
      viewSkipType value) count

def viewFields : List DescType → Read Unit
  | [] => return
  | type :: types => do
    viewSkipType descriptors viewDefined type
    viewFields types

/-- The fields of a message that are present, each alone in its slice. -/
def viewMessageFields (index : MessageIndex) : List MessageField → Read Unit
  | [] => return
  | field :: fields => do
    match ← messageIndexField index field.tag with
    | some slice =>
      let bytes := (index.encoded.drop slice.start).take slice.length
      let ((), behind) ← viewSkipType descriptors viewDefined field.type ⟨bytes, 0, Nat.zero_le _⟩
      rejectIf malformed (behind.remaining ≠ 0)
      viewMessageFields index fields
    | none => viewMessageFields index fields

/-- The switch over the discriminators: a known branch has the whole body. -/
def viewBranch (branches : List UnionBranch) (discriminator : Nat) : Read Unit :=
  match branchOf branches discriminator with
  | some branch => do
    let _ ← viewDefined branch.ref
    rejectIf malformed ((← get).remaining ≠ 0)
  | none => do
    modify (Reader.skip (← get).remaining)

/-- The union case of `gen_view_read`. -/
def viewUnion (branches : List UnionBranch) : Read View := do
  let start := (← get).current
  let bodyLength ← Read.ofCall readerReadLength
  rejectIf malformed (bodyLength < 1)
  let outerEnd ← readerPushLimit bodyLength
  let discriminator ← readerReadByte
  viewBranch viewDefined branches discriminator
  modify (Reader.popLimit outerEnd)
  return ⟨start, bodyLength + wireSizeLen⟩

/-- `gen_view_read` -/
def viewBody (ref : Nat) : Read View :=
  match descriptors[ref]? with
  | some (.message fields) => do
    let start := (← get).current
    let index ← Read.ofCall readMessageIndex
    viewMessageFields descriptors viewDefined index fields
    return ⟨start, (← get).current - start⟩
  | some (.union branches) => viewUnion viewDefined branches
  | some (.struct fields) => do
    let start := (← get).current
    viewFields descriptors viewDefined fields
    return ⟨start, (← get).current - start⟩
  -- there is no such function
  | _ => throw .fault

end

/-- The `view_read` of a definition. -/
def viewReader (descriptors : List DescDef) : (calls : Nat) → (ref : Nat) → Read View
  | 0, _ => throw .fault
  | calls + 1, ref => viewBody descriptors (viewReader descriptors calls) ref

/-- The view reader of a definition returns `OK` and leaves the reader behind the view. -/
def ViewAccepts (descriptors : List DescDef) (ref : Nat) (reader behind : Reader) : Prop :=
  ∃ calls view, viewReader descriptors calls ref reader = .ok (view, behind)

end Bebop.C
