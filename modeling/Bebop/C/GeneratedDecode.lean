import Bebop.C.MessageReader
import Bebop.C.MessageIteration
import Bebop.Compiler.Schema
import Bebop.Lib.Fallible

/-!
# Bebop — the decoders that the C generator emits

What `gen_decode_struct`, `gen_decode_message` and `gen_decode_union` of `generator.c`
emit, over the readers of `bebop_wire.c`. A decoder is a program on a reader and the memory
requests made so far; its error is the result that the C code returns. `alloc n` says
whether the request number `n` gets its memory, and `room` how often
`bebop_context_enter_decode` still succeeds.
-/

namespace Bebop.C

open Bytes Checked Message Compiler

/-! ## Reads -/

abbrev Read := StateT Reader Outcome

/-- A function that returns its result; where it fails the caller returns. -/
def Read.ofCall {α : Type} (call : Reader → Outcome α × Reader) : Read α := fun reader =>
  match call reader with
  | (.ok a, behind) => .ok (a, behind)
  | (.error e, _) => .error e

theorem Read.ofCall_of_ok {α : Type} {call : Reader → Outcome α × Reader} {reader behind : Reader} {a : α}
    (h : call reader = (.ok a, behind)) : Read.ofCall call reader = .ok (a, behind) := by
  unfold Read.ofCall
  rw [h]

/-- The bounds check and the `memcpy` that the reads of fixed sizes have in common. -/
def readBytes (count : Nat) : Read (List UInt8) := fun reader =>
  if h : count ≤ reader.remaining then .ok (reader.rest.take count, reader.advance count h) else .error malformed

/-- `bebop_reader_read_byte` -/
def readerReadByte : Read Nat := do
  return byteAt (← readBytes 1) 0

/-- `bebop_reader_read_string` -/
def readerReadString : Read (List UInt8) := do
  let length ← Read.ofCall readerReadU32
  let reader ← get
  rejectIf malformed (length ≥ reader.remaining)
  rejectIf malformed (byteAt reader.rest length ≠ 0)
  return (← readBytes (length + 1)).take length

/-- `bebop_reader_push_limit`; the result is the old end. -/
def readerPushLimit (length : Nat) : Read (List UInt8) := fun reader =>
  if h : length ≤ reader.remaining then
    .ok (reader.bytes, ⟨reader.bytes.take (reader.current + length), reader.current, by
      have hle := reader.current_le
      unfold Reader.remaining at h
      rw [List.length_take]
      omega⟩)
  else .error malformed

namespace Reader

/-- `bebop_reader_pop_limit`, with a limit that was pushed: the end does not move back. -/
def popLimit (oldEnd : List UInt8) (reader : Reader) : Reader :=
  if h : reader.bytes.length ≤ oldEnd.length then ⟨oldEnd, reader.current, reader.current_le.trans h⟩ else reader

/-- `bebop_reader_seek` -/
def seek (position : Nat) (reader : Reader) : Reader :=
  if h : position ≤ reader.bytes.length then ⟨reader.bytes, position, h⟩ else reader

/-- `bebop_reader_skip` -/
def skip (amount : Nat) (reader : Reader) : Reader :=
  if h : amount ≤ reader.remaining then reader.advance amount h else reader

end Reader

/-- The `BEBOP_WIRE_SIZE_*` of a type, and what its read takes. -/
def wireSizeMacro : Scalar → Nat
  | .bool | .byte | .int8 => 1
  | .int16 | .uint16 => 2
  | .int32 | .uint32 => 4
  | .int64 | .uint64 => 8
  | .int128 | .uint128 => 16
  | .float16 => 2
  | .float32 => 4
  | .float64 => 8
  | .bfloat16 => 2
  | .string => 0
  | .uuid => 16
  | .timestamp => 16
  | .duration => 12

/-- The `wire_get` of a type that is not a string. A `bool` is stored as zero or one. -/
def readScalar (kind : Scalar) : Read (List UInt8) := do
  let bytes ← readBytes (wireSizeMacro kind)
  if kind = .bool then return [if byteAt bytes 0 ≠ 0 then 1 else 0] else return bytes

/-- The function of `bulk_get_fixed`, for elements of so many bytes. -/
def readFixedArray (size count : Nat) : Read (List UInt8) := do
  if count = 0 then return []
  else
    rejectIf malformed (count > (← get).remaining / size)
    readBytes (count * size)

def times {σ ε α : Type} (round : StateT σ (Except ε) α) : Nat → StateT σ (Except ε) (List α)
  | 0 => return []
  | n + 1 => do
    let first ← round
    return first :: (← times round n)

/-! ## Descriptors and values -/

/-- `bebop_descriptor_type_t`; a definition is its number among the definitions. -/
inductive DescType
  | scalar (kind : Scalar)
  | array (element : DescType)
  | fixedArray (element : DescType) (size : Nat)
  | map (key value : DescType)
  | defined (ref : Nat)
  deriving DecidableEq, Repr

structure MessageField where
  tag : Nat
  type : DescType
  deriving DecidableEq, Repr

structure UnionBranch where
  discriminator : Nat
  ref : Nat
  deriving DecidableEq, Repr

/-- `bebop_descriptor_def_t`, of the kinds that have codecs. -/
inductive DescDef
  | enum (baseType : Scalar)
  | struct (fields : List DescType)
  | message (fields : List MessageField)
  | union (branches : List UnionBranch)
  deriving DecidableEq, Repr

inductive Value
  | scalar (bytes : List UInt8)
  | string (bytes : List UInt8)
  -- scalars one after the other, as they are on the wire
  | bulk (bytes : List UInt8)
  | array (items : List Value)
  | map (entries : List (Value × Value))
  | struct (fields : List Value)
  -- the fields that are set, with their tags
  | message (fields : List (Nat × Value))
  | union (discriminator : Nat) (branch : Option Value)

def Value.sameKey : Value → Value → Bool
  | .scalar bytes, .scalar bytes' => bytes = bytes'
  | .string bytes, .string bytes' => bytes = bytes'
  | _, _ => false

/-- What `bebop_map_set` does to the entries, if it has the memory. -/
def mapSet (key value : Value) : List (Value × Value) → List (Value × Value)
  | [] => [(key, value)]
  | entry :: entries =>
    if entry.1.sameKey key then (entry.1, value) :: entries else entry :: mapSet key value entries

/-! ## Decoders of types -/

structure Decoding where
  reader : Reader
  requests : Nat

abbrev Decode := StateT Decoding Outcome

def Decode.onReader {α : Type} (read : Read α) : Decode α := fun s =>
  match read s.reader with
  | .ok (a, reader) => .ok (a, ⟨reader, s.requests⟩)
  | .error e => .error e

def Decode.within {α : Type} (inner : Reader) (decode : Decode α) : Decode α := fun s =>
  match decode ⟨inner, s.requests⟩ with
  | .ok (a, s') => .ok (a, ⟨s.reader, s'.requests⟩)
  | .error e => .error e

open Decode

/-- `return BEBOP_RESULT_OOM` -/
def oom : Stop Result := .raised .oom

section

variable (alloc : Nat → Bool)

def allocate : Decode Bool := fun s => .ok (alloc s.requests, ⟨s.reader, s.requests + 1⟩)

/-- The entries of a map. The result of `bebop_map_set` is not looked at. -/
def decodeEntries (decodeKey decodeValue : Decode Value) :
    (n : Nat) → List (Value × Value) → Decode (List (Value × Value))
  | 0, entries => return entries
  | n + 1, entries => do
    let hasKey ← allocate alloc
    let hasValue ← allocate alloc
    rejectIf oom (¬(hasKey ∧ hasValue))
    let key ← decodeKey
    let value ← decodeValue
    let isSet ← allocate alloc
    decodeEntries decodeKey decodeValue n (if isSet then mapSet key value entries else entries)

variable (descriptors : List DescDef) (decodeDefined : Nat → Decode Value)

def enumBaseType (ref : Nat) : Option Scalar :=
  match descriptors[ref]? with
  | some (.enum baseType) => some baseType
  | _ => none

/-- The bytes of a scalar whose arrays are not copied. -/
def zeroCopySize : DescType → Option Nat
  | .scalar .string => none
  | .scalar kind => some (wireSizeMacro kind)
  | _ => none

/-- `gen_decode_type_ex`; `decodeDefined` are the decoders of the definitions. -/
def decodeType : DescType → Decode Value
  | .scalar .string => do
    return .string (← onReader readerReadString)
  | .scalar kind => do
    return .scalar (← onReader (readScalar kind))
  | .defined ref =>
    match enumBaseType descriptors ref with
    | some baseType => do
      return .scalar (← onReader (readScalar baseType))
    | none => decodeDefined ref
  | .array element => do
    let length ← onReader (Read.ofCall readerReadU32)
    match zeroCopySize element with
    | some size =>
      rejectIf malformed (length > (← get).reader.remaining / size)
      let bytes := (← get).reader.rest.take (length * size)
      onReader (modify (Reader.skip (length * size)))
      return .bulk bytes
    | none =>
      rejectIf malformed (length > (← get).reader.remaining)
      let hasData ← allocate alloc
      rejectIf oom (¬hasData ∧ length > 0)
      return .array (← times (decodeType element) length)
  | .fixedArray element size =>
    match zeroCopySize element with
    | some elementSize => do
      return .bulk (← onReader (readFixedArray elementSize size))
    | none => do
      return .array (← times (decodeType element) size)
  | .map key value => do
    let length ← onReader (Read.ofCall readerReadU32)
    rejectIf malformed (length > (← get).reader.remaining)
    return .map (← decodeEntries alloc (decodeType key) (decodeType value) length [])

/-! ## Decoders of definitions -/

def decodeFields : List DescType → Decode (List Value)
  | [] => return []
  | type :: types => do
    let first ← decodeType alloc descriptors decodeDefined type
    return first :: (← decodeFields types)

/-- `type_is_message_or_union` -/
def isMessageOrUnion : DescType → Bool
  | .defined ref =>
    match descriptors[ref]? with
    | some (.message _) => true
    | some (.union _) => true
    | _ => false
  | _ => false

/-- `gen_decode_message_field_value` -/
def decodeFieldValue (field : MessageField) : Decode (Nat × Value) := do
  if isMessageOrUnion descriptors field.type then
    let hasValue ← allocate alloc
    rejectIf oom (¬hasValue)
    return (field.tag, ← decodeType alloc descriptors decodeDefined field.type)
  else return (field.tag, ← decodeType alloc descriptors decodeDefined field.type)

/-- The fields that a directory of known tags has, in the order of the tags. -/
def decodePresent (present : Nat → Bool) : List MessageField → Decode (List (Nat × Value))
  | [] => return []
  | field :: fields => do
    if present field.tag then
      let first ← decodeFieldValue alloc descriptors decodeDefined field
      return first :: (← decodePresent present fields)
    else decodePresent present fields

/-- The loop with the iterator. A message has at most 255 fields, so `n` does not run out. -/
def decodeTagged (index : MessageIndex) (fields : List MessageField) :
    (n : Nat) → MessageFieldIterator → Decode (List (Nat × Value))
  | 0, _ => throw .fault
  | n + 1, it => do
    let (tag, it) ← messageFieldIteratorNextTag it
    match tag with
    | none => return []
    | some tag =>
      match fields.find? fun field => field.tag = tag with
      | some field =>
        let first ← decodeFieldValue alloc descriptors decodeDefined field
        return first :: (← decodeTagged index fields n it)
      | none =>
        let unknown ← messageIndexFieldAt index ((it.rank - 1) % 256)
        rejectIf malformed (unknown.start ≠ wireSizeLen + (← get).reader.current)
        -- `rd->current` goes behind it; the slice is in the payload
        let _ ← onReader (readBytes unknown.length)
        decodeTagged index fields n it

/-- `presence`, of a mask directory. -/
def presenceMask (index : MessageIndex) : Outcome Nat := do
  let presence ← read index.encoded index.directory
  if index.directoryKind.code ≥ DirectoryKind.mask16.code then
    let presence := presence ||| ((← read index.encoded (index.directory + 1)) <<< 8)
    if index.directoryKind = .mask32 then
      return presence ||| ((← read index.encoded (index.directory + 2)) <<< 16) |||
        ((← read index.encoded (index.directory + 3)) <<< 24)
    else return presence
  else return presence

/-- `known_mask`, and `known_blocks`: the bits of the fields' tags in a block of 32. -/
def knownBlock (fields : List MessageField) (block : Nat) : Nat :=
  fields.foldl
    (fun mask field =>
      if (field.tag - 1) >>> 5 = block then mask ||| (1 <<< ((field.tag - 1) &&& 31)) else mask)
    0

def unknownBits (mask known : Nat) : Nat := mask &&& (0xFFFFFFFF ^^^ known)

/-- The fields in the payload, all of which is theirs. -/
def decodePayload (index : MessageIndex) (decode : Decode (List (Nat × Value))) : Decode Value := do
  let fields ← within ⟨(index.encoded.take index.boundaries).drop wireSizeLen, 0, Nat.zero_le _⟩ (do
    let fields ← decode
    rejectIf malformed ((← get).reader.remaining ≠ 0)
    return fields)
  return .message fields

def decodeIterated (index : MessageIndex) (fields : List MessageField) : Decode Value :=
  decodePayload index do
    decodeTagged alloc descriptors decodeDefined index fields 257 (← messageFieldIteratorInit index)

/-- The body that `gen_decode_message` emits. -/
def decodeMessage (fields : List MessageField) : Decode Value := do
  let index ← onReader (Read.ofCall beginMessageIndex)
  let sorted := fields.insertionSort fun field field' => field.tag ≤ field'.tag
  if index.directoryKind = .empty then return .message []
  else if isMask index.directoryKind then
    let presence ← presenceMask index
    if unknownBits presence (knownBlock sorted 0) ≠ 0 then
      -- `bebop_message_index_validate`
      let _ ← messageIndexParse index.encoded
      decodeIterated alloc descriptors decodeDefined index sorted
    else
      decodePayload index (decodePresent alloc descriptors decodeDefined
        (fun tag => tag ≤ 32 ∧ presence &&& (1 <<< (tag - 1)) ≠ 0) sorted)
  else if index.directoryKind = .blocks then
    let masks ← messageIndexBlockMasks index
    let unknown := (List.range 8).foldl
      (fun unknown block => unknown ||| unknownBits (masks.getD block 0) (knownBlock sorted block)) 0
    if unknown = 0 then
      decodePayload index (decodePresent alloc descriptors decodeDefined
        (fun tag => masks.getD ((tag - 1) >>> 5) 0 &&& (1 <<< ((tag - 1) &&& 31)) ≠ 0) sorted)
    else decodeIterated alloc descriptors decodeDefined index sorted
  else decodeIterated alloc descriptors decodeDefined index sorted

def branchOf (branches : List UnionBranch) (discriminator : Nat) : Option UnionBranch :=
  branches.find? fun branch => branch.discriminator = discriminator

/-- The body that `gen_decode_union` emits. -/
def decodeUnion (branches : List UnionBranch) : Decode Value := do
  let unionLength ← onReader (Read.ofCall readerReadLength)
  let outerEnd ← onReader (readerPushLimit unionLength)
  let stop := (← get).reader.current + unionLength
  let discriminator ← onReader readerReadByte
  match branchOf branches discriminator with
  | some branch =>
    let value ← decodeDefined branch.ref
    onReader (modify (Reader.popLimit outerEnd))
    return .union discriminator (some value)
  | none =>
    -- an unknown branch: its bytes are passed over
    onReader (modify (Reader.seek stop))
    onReader (modify (Reader.popLimit outerEnd))
    return .union 0 none

/-- The `decode_body` of a definition. -/
def decodeBody (ref : Nat) : Decode Value :=
  match descriptors[ref]? with
  | some (.struct fields) => do
    return .struct (← decodeFields alloc descriptors decodeDefined fields)
  | some (.message fields) => decodeMessage alloc descriptors decodeDefined fields
  | some (.union branches) => decodeUnion decodeDefined branches
  -- there is no such function
  | _ => throw .fault

end

/-- `decode_reader`, from `emit_decode_wrapper`: a level of depth and the body. -/
def decodeReader (alloc : Nat → Bool) (descriptors : List DescDef) : (room : Nat) → (ref : Nat) → Decode Value
  | 0, _ => throw malformed
  | room + 1, ref => decodeBody alloc descriptors (decodeReader alloc descriptors room) ref

end Bebop.C
