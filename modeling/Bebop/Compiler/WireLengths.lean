import Bebop.Compiler.Schema
import Bebop.Message.Encode

/-!
# Bebop — how many bytes values take

The lengths of encodings, after `WIRE.md`: `ParseResult.Takes` has every length that a
value of a type, or of a definition, can have. A type that ends in numbers and enums,
through fixed arrays and structs only, has just one (`ParseResult.Fixed`,
`Fixed.unique`).
-/

namespace Bebop.Compiler

/-- The wire size of a primitive type; a string has none. -/
def Scalar.wireSize : Scalar → Option Nat
  | .bool => some 1
  | .byte => some 1
  | .int8 => some 1
  | .int16 => some 2
  | .uint16 => some 2
  | .int32 => some 4
  | .uint32 => some 4
  | .int64 => some 8
  | .uint64 => some 8
  | .int128 => some 16
  | .uint128 => some 16
  | .float16 => some 2
  | .float32 => some 4
  | .float64 => some 8
  | .bfloat16 => some 2
  | .string => none
  | .uuid => some 16
  | .timestamp => some 16
  | .duration => some 12

/-- What is encoded: a value of a type, so many values of one type in sequence, the values
of some fields in sequence, or a value of a definition. -/
inductive Wire
  | type (type : Ty)
  | items (element : Ty) (count : Nat)
  | fields (fields : List Field)
  | definition (ref : DefRef)

namespace ParseResult

variable (result : ParseResult)

inductive Takes : Wire → Nat → Prop
  | scalar {kind : Scalar} {n : Nat} (span : Span) (hsize : kind.wireSize = some n) :
    Takes (.type (.scalar span kind)) n
  | string (span : Span) (length : Nat) : Takes (.type (.scalar span .string)) (4 + (length + 1))
  | array {element : Ty} {count n : Nat} (span : Span) (hitems : Takes (.items element count) n) :
    Takes (.type (.array span element)) (4 + n)
  | fixedArray {element : Ty} {size n : Nat} (span : Span) (hitems : Takes (.items element size) n) :
    Takes (.type (.fixedArray span element size)) n
  | map {key value : Ty} {count n m : Nat} (span : Span) (hkeys : Takes (.items key count) n)
    (hvalues : Takes (.items value count) m) : Takes (.type (.map span key value)) (4 + (n + m))
  | defined {ref : DefRef} {n : Nat} (span : Span) (name : Text) (hdefinition : Takes (.definition ref) n) :
    Takes (.type (.defined span name (some ref))) n
  | noItems (element : Ty) : Takes (.items element 0) 0
  | moreItems {element : Ty} {count n m : Nat} (hfirst : Takes (.type element) n)
    (hrest : Takes (.items element count) m) : Takes (.items element (count + 1)) (n + m)
  | noFields : Takes (.fields []) 0
  | moreFields {field : Field} {fields : List Field} {n m : Nat} (hfirst : Takes (.type field.type) n)
    (hrest : Takes (.fields fields) m) : Takes (.fields (field :: fields)) (n + m)
  | enum {ref : DefRef} {d : Def} {baseType : Scalar} {members : List EnumMember} {n : Nat}
    (hdef : result.def? ref = some d) (hbody : d.body = .enum baseType members) (hsize : baseType.wireSize = some n) :
    Takes (.definition ref) n
  | struct {ref : DefRef} {d : Def} {isMutable : Bool} {fields : List Field} {n : Nat} (hdef : result.def? ref = some d)
    (hbody : d.body = .struct isMutable fields) (hfields : Takes (.fields fields) n) : Takes (.definition ref) n
  -- the fields that are present, with any directory and any offsets that fit
  | message {ref : DefRef} {d : Def} {fields present : List Field} {kind : Message.DirectoryKind} {widthCode : Nat}
    {offsets : List Nat} {payload : List UInt8} (hdef : result.def? ref = some d) (hbody : d.body = .message fields)
    (hpresent : present ⊆ fields) (hfields : Takes (.fields present) payload.length)
    (hencodes : Message.Encodable kind widthCode (present.map Field.index) offsets payload) :
    Takes (.definition ref) (Message.encode kind widthCode (present.map Field.index) offsets payload).length
  | inlineBranch {ref : DefRef} {d : Def} {branches : List Branch} {branch : Branch} {k n : Nat}
    (hdef : result.def? ref = some d) (hbody : d.body = .union branches) (hbranch : branch ∈ branches)
    (hinline : branch.inlineDef = some k) (hvalue : Takes (.definition ⟨ref.schema, ref.path ++ [k]⟩) n) :
    Takes (.definition ref) (4 + (1 + n))
  | branch {ref : DefRef} {d : Def} {branches : List Branch} {branch : Branch} {type : Ty} {n : Nat}
    (hdef : result.def? ref = some d) (hbody : d.body = .union branches) (hbranch : branch ∈ branches)
    (htype : branch.typeRef = some type) (hvalue : Takes (.type type) n) : Takes (.definition ref) (4 + (1 + n))

/-- All values take so many bytes, because the type ends in primitive types and enums. -/
inductive Fixed : Wire → Nat → Prop
  | scalar {kind : Scalar} {n : Nat} (span : Span) (hsize : kind.wireSize = some n) :
    Fixed (.type (.scalar span kind)) n
  | fixedArray {element : Ty} {n : Nat} (span : Span) (size : Nat) (helement : Fixed (.type element) n) :
    Fixed (.type (.fixedArray span element size)) (size * n)
  | enum {ref : DefRef} {d : Def} {baseType : Scalar} {members : List EnumMember} {n : Nat} (span : Span) (name : Text)
    (hdef : result.def? ref = some d) (hbody : d.body = .enum baseType members) (hsize : baseType.wireSize = some n) :
    Fixed (.type (.defined span name (some ref))) n
  -- a struct without a byte counts as one of no fixed size
  | defined {ref : DefRef} {n : Nat} (span : Span) (name : Text) (hpos : 0 < n) (hstruct : Fixed (.definition ref) n) :
    Fixed (.type (.defined span name (some ref))) n
  | noFields : Fixed (.fields []) 0
  | moreFields {field : Field} {fields : List Field} {n m : Nat} (hfirst : Fixed (.type field.type) n)
    (hrest : Fixed (.fields fields) m) : Fixed (.fields (field :: fields)) (n + m)
  | struct {ref : DefRef} {d : Def} {isMutable : Bool} {fields : List Field} {n : Nat} (hdef : result.def? ref = some d)
    (hbody : d.body = .struct isMutable fields) (hfields : Fixed (.fields fields) n) : Fixed (.definition ref) n

variable {result} {ref : DefRef} {d : Def} {s : Wire} {n m : Nat}

theorem Takes.items {element : Ty} (h : result.Takes (.type element) n) (count : Nat) :
    result.Takes (.items element count) (count * n) := by
  induction count with
  | zero =>
    rw [Nat.zero_mul]
    exact .noItems element
  | succ count ih =>
    rw [Nat.succ_mul, Nat.add_comm (count * n) n]
    exact .moreItems h ih

theorem Fixed.takes (h : result.Fixed s n) : result.Takes s n := by
  induction h with
  | scalar span hsize => exact .scalar span hsize
  | fixedArray span size helement ih => exact .fixedArray span (ih.items size)
  | enum span name hdef hbody hsize => exact .defined span name (.enum hdef hbody hsize)
  | defined span name hpos hstruct ih => exact .defined span name ih
  | noFields => exact .noFields
  | moreFields hfirst hrest ihFirst ihRest => exact .moreFields ihFirst ihRest
  | struct hdef hbody hfields ih => exact .struct hdef hbody ih

/-- What a value of a definition takes, by the kind of the definition. -/
def BodyTakes (result : ParseResult) (n : Nat) : Body → Prop
  | .enum baseType _ => baseType.wireSize = some n
  | .struct _ fields => result.Takes (.fields fields) n
  -- a length and a directory
  | .message _ => 5 ≤ n
  -- a length and a discriminator
  | .union _ => 5 ≤ n
  | _ => False

theorem Takes.body (h : result.Takes (.definition ref) n) (hdef : result.def? ref = some d) :
    result.BodyTakes n d.body := by
  cases h with
  | enum hdef' hbody hsize =>
    rw [hdef, Option.some.injEq] at hdef'
    rw [hdef', hbody]
    exact hsize
  | struct hdef' hbody hfields =>
    rw [hdef, Option.some.injEq] at hdef'
    rw [hdef', hbody]
    exact hfields
  | message hdef' hbody =>
    rw [hdef, Option.some.injEq] at hdef'
    rw [hdef', hbody, Message.length_encode]
    change 5 ≤ _
    omega
  | inlineBranch hdef' hbody =>
    rw [hdef, Option.some.injEq] at hdef'
    rw [hdef', hbody]
    change 5 ≤ _
    omega
  | branch hdef' hbody =>
    rw [hdef, Option.some.injEq] at hdef'
    rw [hdef', hbody]
    change 5 ≤ _
    omega

theorem Takes.items_eq {element : Ty} (hitem : ∀ m, result.Takes (.type element) m → m = n) {count : Nat}
    (h : result.Takes (.items element count) m) : m = count * n := by
  induction count generalizing m with
  | zero =>
    cases h
    rw [Nat.zero_mul]
  | succ count ih =>
    cases h with
    | moreItems hfirst hrest => rw [hitem _ hfirst, ih hrest, Nat.succ_mul, Nat.add_comm]

theorem Fixed.unique (h : result.Fixed s n) (htakes : result.Takes s m) : m = n := by
  induction h generalizing m with
  | @scalar kind n span hsize =>
    cases htakes with
    | scalar _ hsize' => exact Option.some.inj (hsize'.symm.trans hsize)
    | string _ length => cases hsize
  | fixedArray span size helement ih =>
    cases htakes with
    | fixedArray _ hitems => exact hitems.items_eq fun _ => ih
  | enum span name hdef hbody hsize =>
    cases htakes with
    | defined _ _ hdefinition =>
      have hsize' := hdefinition.body hdef
      rw [hbody] at hsize'
      exact Option.some.inj (hsize'.symm.trans hsize)
  | defined span name hpos hstruct ih =>
    cases htakes with
    | defined _ _ hdefinition => exact ih hdefinition
  | noFields =>
    cases htakes
    rfl
  | moreFields hfirst hrest ihFirst ihRest =>
    cases htakes with
    | moreFields hfirst' hrest' => rw [ihFirst hfirst', ihRest hrest']
  | struct hdef hbody hfields ih =>
    have hfields' := htakes.body hdef
    rw [hbody] at hfields'
    exact ih hfields'

theorem Fixed.isStruct (h : result.Fixed (.definition ref) n) :
    ∃ d isMutable fields, result.def? ref = some d ∧ d.body = .struct isMutable fields ∧ result.Fixed (.fields fields) n := by
  cases h with
  | struct hdef hbody hfields => exact ⟨_, _, _, hdef, hbody, hfields⟩

theorem Fixed.ofFields {fields : List Field} {size : Field → Nat}
    (h : ∀ field ∈ fields, result.Fixed (.type field.type) (size field)) :
    result.Fixed (.fields fields) (fields.map size).sum := by
  induction fields with
  | nil => exact .noFields
  | cons field fields ih =>
    rw [List.map_cons, List.sum_cons]
    exact .moreFields (h field (List.mem_cons_self ..)) (ih fun f hf => h f (List.mem_cons_of_mem _ hf))

end ParseResult

end Bebop.Compiler
