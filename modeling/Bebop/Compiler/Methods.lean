import Bebop.Compiler.Resolve
import Bebop.Lib.Unicode

/-!
# Bebop — the methods that the parser reads

`bebop__parse_method_inline` of `bebop_parser.c`, for a method whose tokens are
read. A method has as its id a hash of the names of the service and of itself,
and is left out if the service has the id already.
-/

namespace Bebop.Compiler

/-! ## `bebop_util_hash_method_id` -/

namespace MethodHash

def rotateLeft (word : UInt32) (bits : UInt32) : UInt32 := word <<< bits ||| word >>> (32 - bits)

def block : List UInt8 → UInt32
  | [] => 0
  | byte :: bytes => byte.toUInt32 ||| block bytes <<< 8

def scramble (block : UInt32) : UInt32 := rotateLeft (block * 0xcc9e2d51) 15 * 0x1b873593

def absorb : UInt32 → List UInt8 → UInt32
  | hash, a :: b :: c :: d :: rest =>
    absorb (rotateLeft (hash ^^^ scramble (block [a, b, c, d])) 13 * 5 + 0xe6546b64) rest
  | hash, [] => hash
  | hash, tail => hash ^^^ scramble (block tail)

def finish (hash : UInt32) : UInt32 :=
  let hash := (hash ^^^ hash >>> 16) * 0x7feb352d
  let hash := (hash ^^^ hash >>> 15) * 0x846ca68b
  hash ^^^ hash >>> 16

end MethodHash

/-- `bebop_util_hash_method_id` -/
def hashMethodId (input : List UInt8) : UInt32 := MethodHash.finish (MethodHash.absorb 0x5AFE5EED input)

/-! ## `bebop__parse_method_inline` -/

/-- `bebop_type_kind_name` -/
def Ty.kindName : Ty → String
  | .scalar _ kind =>
    match kind with
    | .bool => "bool"
    | .byte => "byte"
    | .int8 => "int8"
    | .int16 => "int16"
    | .uint16 => "uint16"
    | .int32 => "int32"
    | .uint32 => "uint32"
    | .int64 => "int64"
    | .uint64 => "uint64"
    | .int128 => "int128"
    | .uint128 => "uint128"
    | .float16 => "float16"
    | .float32 => "float32"
    | .float64 => "float64"
    | .bfloat16 => "bfloat16"
    | .string => "string"
    | .uuid => "uuid"
    | .timestamp => "timestamp"
    | .duration => "duration"
  | .array _ _ => "array"
  | .fixedArray _ _ _ => "fixed_array"
  | .map _ _ _ => "map"
  | .defined _ _ _ => "defined"

/-- `bebop_sema_check_service_type` -/
def checkServiceType (type : Ty) : List Report :=
  match type with
  | .defined _ _ _ => []
  | _ =>
    [errorAt 132 type.span
      ("Service method types must be user-defined types (struct, message, or union), not '" ++ type.kindName ++ "'")
      none]

/-- The bytes of `/Service/Method`. -/
def methodPath (service method : Text) : List UInt8 := Unicode.utf8 ('/' :: service ++ '/' :: method)

/-- The size of the buffer for the path, with the zero at its end. -/
def methodPathSize : Nat := 512

/-- What the parser has of a service: the names in its scope, and its methods. -/
structure ServiceBody where
  names : List Text
  methods : List Method

def hex8 (n : Nat) : String :=
  let digits := String.ofList (Nat.toDigits 16 n)
  String.ofList (List.replicate (8 - digits.length) '0') ++ digits

/-- `bebop__parse_method_inline`: its reports, and the service with the method. -/
def parseMethod (service : Text) (body : ServiceBody) (method : Method) : List Report × ServiceBody :=
  let duplicate :=
    if method.name ∈ body.names then [errorAt 112 method.nameSpan ("Duplicate name " ++ quote method.name) none] else []
  let names := if method.name ∈ body.names then body.names else body.names ++ [method.name]
  let path := methodPath service method.name
  let id := if path.length < methodPathSize then (hashMethodId path).toNat else 0
  let long :=
    if path.length < methodPathSize then []
    else
      [errorAt 103 method.nameSpan
        ("Method path too long (truncated): '" ++ String.ofList service ++ "." ++ String.ofList method.name ++ "'") none]
  let reports := duplicate ++ checkServiceType method.requestType ++ checkServiceType method.responseType ++ long
  match body.methods.find? fun other => other.id = id with
  | some other =>
    (reports ++
      [errorAt 131 method.nameSpan
        ("Method " ++ quote method.name ++ " has same computed ID (0x" ++ hex8 id ++ ") as " ++ quote other.name) none],
      ⟨names, body.methods⟩)
  | none => (reports, ⟨names, body.methods ++ [{ method with id := id }]⟩)

/-- The methods of a service body, one after another. -/
def parseMethods (service : Text) : ServiceBody → List Method → List Report × ServiceBody
  | body, [] => ([], body)
  | body, method :: methods =>
    let (reports, body) := parseMethod service body method
    let (more, body) := parseMethods service body methods
    (reports ++ more, body)

/-- The methods of a service are those the parser made of some, without an error. -/
def Def.MethodsParsed (d : Def) : Prop :=
  ∀ methods mixins, d.body = .service methods mixins →
    ∃ read names, parseMethods d.name ⟨[], []⟩ read = ([], ⟨names, methods⟩)

/-! ## One service body -/

/-- The methods' names are those in scope; they differ, as the ids do. -/
structure ServiceBody.Distinct (body : ServiceBody) : Prop where
  names_eq : body.names = body.methods.map Method.name
  names : body.names.Nodup
  ids : (body.methods.map Method.id).Nodup
  types : ∀ method ∈ body.methods, checkServiceType method.requestType = [] ∧ checkServiceType method.responseType = []

theorem ServiceBody.distinct_nil : ServiceBody.Distinct ⟨[], []⟩ := ⟨rfl, List.nodup_nil, List.nodup_nil, nofun⟩

theorem ServiceBody.Distinct.parseMethod {service : Text} {body next : ServiceBody} {method : Method}
    (h : body.Distinct) (hparse : parseMethod service body method = ([], next)) : next.Distinct := by
  unfold Compiler.parseMethod at hparse
  dsimp only at hparse
  split at hparse
  · exact absurd (congrArg Prod.fst hparse) (List.append_ne_nil_of_right_ne_nil _ (List.cons_ne_nil _ _))
  · rename_i hnew
    obtain ⟨hreports, rfl⟩ := Prod.mk.inj hparse
    rw [List.append_eq_nil_iff, List.append_eq_nil_iff, List.append_eq_nil_iff] at hreports
    obtain ⟨⟨⟨hduplicate, hrequest⟩, hresponse⟩, -⟩ := hreports
    have hname : method.name ∉ body.names := by
      intro hmem
      rw [if_pos hmem] at hduplicate
      cases hduplicate
    rw [if_neg hname]
    constructor
    · rw [List.map_append, h.names_eq, List.map_singleton]
    · exact h.names.append (List.nodup_singleton _) (List.disjoint_singleton.mpr hname)
    · rw [List.map_append, List.map_singleton]
      refine h.ids.append (List.nodup_singleton _) (List.disjoint_singleton.mpr fun hmem => ?_)
      obtain ⟨other, hother, heq⟩ := List.mem_map.mp hmem
      exact List.find?_eq_none.mp hnew other hother (decide_eq_true heq)
    · intro other hother
      rcases List.mem_append.mp hother with hother | hother
      · exact h.types other hother
      · rw [List.mem_singleton.mp hother]
        exact ⟨hrequest, hresponse⟩

theorem ServiceBody.Distinct.parseMethods {service : Text} {body last : ServiceBody} {read : List Method}
    (h : body.Distinct) (hparse : parseMethods service body read = ([], last)) : last.Distinct := by
  induction read generalizing body with
  | nil =>
    cases hparse
    exact h
  | cons method read ih =>
    obtain ⟨hreports, hlast⟩ := Prod.mk.inj hparse
    obtain ⟨hfirst, hrest⟩ := List.append_eq_nil_iff.mp hreports
    exact ih (h.parseMethod (Prod.ext hfirst rfl)) (Prod.ext hrest hlast)

theorem Def.MethodsParsed.distinct {d : Def} (h : d.MethodsParsed) {methods : List Method} {mixins : List Ty}
    (hbody : d.body = .service methods mixins) : (⟨methods.map Method.name, methods⟩ : ServiceBody).Distinct := by
  obtain ⟨read, names, hparse⟩ := h methods mixins hbody
  have hdistinct := ServiceBody.distinct_nil.parseMethods hparse
  rwa [show names = methods.map Method.name from hdistinct.names_eq] at hdistinct

end Bebop.Compiler
