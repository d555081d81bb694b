import Mathlib.Logic.ExistsUnique
import Bebop.Compiler.ParserTypes

/-!
# Bebop — the arguments of decorators

`bebop__validate_decorator_chain` of `bebop_validate.c`: one loop goes over the arguments,
another over the parameters that are required; each has its own notion of which parameter
an argument is for. The Lua code of a decorator is a parameter, and so are the first eight
bytes of the union of a literal, which decide some comparisons with an allowed value.
-/

namespace Bebop.Compiler

open Bebop.Compiler.Parser (DecoratorArg)

/-- `bebop_literal_kind_t`, of a literal that was parsed. -/
inductive LiteralKind
  | bool
  | int
  | float
  | string
  | uuid
  | bytes
  | timestamp
  | duration
  deriving DecidableEq, Repr

def LiteralValue.kind : LiteralValue → LiteralKind
  | .bool _ => .bool
  | .int _ => .int
  | .float _ => .float
  | .string _ _ => .string
  | .uuid _ => .uuid
  | .timestamp _ => .timestamp
  | .duration _ => .duration
  | .bytes _ => .bytes

/-- `bebop_literal_kind_name` -/
def LiteralKind.name : LiteralKind → String
  | .bool => "bool"
  | .int => "integer"
  | .float => "float"
  | .string => "string"
  | .uuid => "uuid"
  | .bytes => "bytes"
  | .timestamp => "timestamp"
  | .duration => "duration"

/-- `bebop_macro_param_def_t`; a parameter that is a type has no scalar. -/
structure MacroParam where
  name : Text
  type : Option Scalar
  required : Bool
  allowedValues : List Literal
  deriving DecidableEq, Repr

/-- The `decorator_def` of a definition. -/
structure DecoratorDef where
  targets : Nat
  allowMultiple : Bool
  params : List MacroParam
  deriving DecidableEq, Repr

/-- `bebop_decorator_t` with its arguments. -/
structure DecoratorUse extends Decorator where
  args : List DecoratorArg
  deriving DecidableEq, Repr

abbrev UnionBytes := LiteralValue → BitVec 64

/-! ## The loop over the arguments -/

/-- `bebop__validate_type_to_literal` -/
def validateTypeToLiteral : Option Scalar → LiteralKind
  | some .bool => .bool
  | some .string => .string
  | some .uuid => .uuid
  | some .float32 => .float
  | some .float64 => .float
  | some .bfloat16 => .float
  | _ => .int

/-- `bebop_type_kind_name`, of the type of a parameter. -/
def MacroParam.typeName (param : MacroParam) : String :=
  match param.type with
  | some kind => (Ty.scalar ⟨0, 0, 0, 0, 0, 0⟩ kind).kindName
  | none => "defined"

/-- Whether a value counts as an allowed one, whatever the kind of the allowed one. -/
def valueMatches (bytes : UnionBytes) : LiteralValue → LiteralValue → Bool
  | .int v, .int w => v = w
  | .int v, other => BitVec.ofInt 64 v = bytes other
  | .string s _, .string t _ => s = t
  | .string s env, other => (bytes (.string s env)).setWidth 32 = (bytes other).setWidth 32
  | _, _ => false

/-- What is reported of an argument and the parameter it is for. -/
def checkArgument (bytes : UnionBytes) (param : MacroParam) (arg : DecoratorArg) : List Report :=
  let expected := validateTypeToLiteral param.type
  (if arg.value.value.kind ≠ expected then
    [errorAt 144 arg.span ("Parameter " ++ quote param.name ++ " expects " ++ param.typeName ++ ", got " ++
      arg.value.value.kind.name) none]
  else []) ++
  if param.allowedValues = [] then []
  else if param.allowedValues.any fun allowed => valueMatches bytes arg.value.value allowed.value then []
  else [errorAt 144 arg.span ("Value not allowed for parameter " ++ quote param.name) none]

/-- The parameter that an argument at a place is for. -/
def DecoratorDef.paramOf (d : DecoratorDef) (i : Nat) (arg : DecoratorArg) : Option MacroParam :=
  match arg.name with
  | some name => d.params.find? fun param => param.name = name
  | none => d.params[i]?

def argumentLoop (bytes : UnionBytes) (d : DecoratorDef) (decorator : Text) : Nat → List DecoratorArg → List Report
  | _, [] => []
  | i, arg :: args =>
    match d.paramOf i arg, arg.name with
    | some param, _ => checkArgument bytes param arg ++ argumentLoop bytes d decorator (i + 1) args
    | none, some name =>
      errorAt 144 arg.span ("Unknown parameter " ++ quote name ++ " for decorator '@" ++ String.ofList decorator ++ "'")
        none :: argumentLoop bytes d decorator (i + 1) args
    -- the loop is left
    | none, none => [errorAt 144 arg.span ("Too many arguments for decorator '@" ++ String.ofList decorator ++ "'") none]

/-! ## The loop over the parameters -/

/-- Whether an argument at a place fills a parameter at a place. -/
def fills (param : MacroParam) (pi : Nat) (arg : DecoratorArg) (i : Nat) : Bool :=
  match arg.name with
  | some name => name = param.name
  | none => i = pi

def isFilled (args : List DecoratorArg) (param : MacroParam) (pi : Nat) : Bool :=
  args.zipIdx.any fun (arg, i) => fills param pi arg i

def missingParams (use : DecoratorUse) (d : DecoratorDef) : List Report :=
  (d.params.mapIdx fun pi param =>
    if !param.required || isFilled use.args param pi then []
    else [errorAt 144 use.span ("Missing required parameter " ++ quote param.name ++ " for decorator '@" ++
      String.ofList use.name ++ "'") none]).flatten

/-- What is reported of the arguments of a decorator. -/
def argumentReports (bytes : UnionBytes) (d : DecoratorDef) (use : DecoratorUse) : List Report :=
  argumentLoop bytes d use.name 0 use.args ++ missingParams use d

/-- `bebop__validate_decorator_chain` -/
def validateDecoratorChain (bytes : UnionBytes) (definitions : DefRef → DecoratorDef) (lua : DecoratorUse → List Report)
    (target : Nat) (chain : List DecoratorUse) : List Report :=
  chain.flatMap fun use =>
    match use.resolved with
    | none => []
    | some ref =>
      let d := definitions ref
      if d.targets &&& target = 0 then
        [errorAt 144 use.span ("Decorator '@" ++ String.ofList use.name ++ "' cannot be applied to this element") none]
      else argumentReports bytes d use ++ lua use

/-! ## Calls -/

variable {bytes : UnionBytes} {d : DecoratorDef} {args : List DecoratorArg}

/-- The literals have the same value; where a string came from does not count. -/
def SameValue : LiteralValue → LiteralValue → Prop
  | .string s _, .string t _ => s = t
  | v, w => v = w

/-- An argument at a place names a parameter, or is at its place. -/
def BindsTo (d : DecoratorDef) (arg : DecoratorArg) (i pi : Nat) : Prop :=
  match arg.name with
  | some name => ∃ param, d.params[pi]? = some param ∧ param.name = name
  | none => pi = i ∧ i < d.params.length

structure BindsLikeCall (d : DecoratorDef) (args : List DecoratorArg) : Prop where
  one : ∀ i arg, args[i]? = some arg → ∃! pi, BindsTo d arg i pi
  once : ∀ i j arg arg' pi, args[i]? = some arg → args[j]? = some arg' → BindsTo d arg i pi → BindsTo d arg' j pi → i = j
  kind : ∀ i arg pi param, args[i]? = some arg → BindsTo d arg i pi → d.params[pi]? = some param →
    arg.value.value.kind = validateTypeToLiteral param.type
  allowed : ∀ i arg pi param, args[i]? = some arg → BindsTo d arg i pi → d.params[pi]? = some param →
    param.allowedValues ≠ [] → ∃ allowed ∈ param.allowedValues, SameValue arg.value.value allowed.value
  required : ∀ pi param, d.params[pi]? = some param → param.required = true →
    ∃ i arg, args[i]? = some arg ∧ BindsTo d arg i pi

/-! ## What the loops report -/

theorem bindsTo_named {arg : DecoratorArg} {name : Text} (h : arg.name = some name) (i pi : Nat) :
    BindsTo d arg i pi ↔ ∃ param, d.params[pi]? = some param ∧ param.name = name := by
  unfold BindsTo
  rw [h]

theorem bindsTo_unnamed {arg : DecoratorArg} (h : arg.name = none) (i pi : Nat) :
    BindsTo d arg i pi ↔ pi = i ∧ i < d.params.length := by
  unfold BindsTo
  rw [h]

theorem paramOf_eq_some {arg : DecoratorArg} {i : Nat} {param : MacroParam} : d.paramOf i arg = some param ↔
    ∃ pi, d.params[pi]? = some param ∧ BindsTo d arg i pi ∧ ∀ pj < pi, ¬BindsTo d arg i pj := by
  unfold DecoratorDef.paramOf
  cases hname : arg.name with
  | none =>
    dsimp only
    constructor
    · intro h
      obtain ⟨hlt, -⟩ := List.getElem?_eq_some_iff.mp h
      refine ⟨i, h, (bindsTo_unnamed hname i i).mpr ⟨rfl, hlt⟩, fun pj hpj hbinds => ?_⟩
      exact absurd ((bindsTo_unnamed hname i pj).mp hbinds).1 (Nat.ne_of_lt hpj)
    · rintro ⟨pi, h, hbinds, -⟩
      obtain ⟨rfl, -⟩ := (bindsTo_unnamed hname i pi).mp hbinds
      exact h
  | some name =>
    dsimp only
    rw [List.find?_eq_some_iff_getElem]
    constructor
    · rintro ⟨heq, pi, hlt, rfl, hfirst⟩
      refine ⟨pi, List.getElem?_eq_getElem hlt, (bindsTo_named hname i pi).mpr ⟨_, List.getElem?_eq_getElem hlt, by simpa using heq⟩, ?_⟩
      intro pj hpj hbinds
      obtain ⟨other, hother, hsame⟩ := (bindsTo_named hname i pj).mp hbinds
      obtain ⟨_, rfl⟩ := List.getElem?_eq_some_iff.mp hother
      have hne := hfirst pj hpj
      simp [hsame] at hne
    · rintro ⟨pi, h, hbinds, hfirst⟩
      obtain ⟨hlt, rfl⟩ := List.getElem?_eq_some_iff.mp h
      obtain ⟨_, hsame, heq⟩ := (bindsTo_named hname i pi).mp hbinds
      obtain rfl := Option.some.inj (h.symm.trans hsame)
      refine ⟨by simpa using heq, pi, hlt, rfl, fun pj hpj => ?_⟩
      have hnot := hfirst pj hpj
      rw [bindsTo_named hname] at hnot
      simp only [Bool.not_eq_eq_eq_not, Bool.not_true, decide_eq_false_iff_not]
      intro hother
      exact hnot ⟨_, List.getElem?_eq_getElem (Nat.lt_trans hpj hlt), hother⟩

theorem checkArgument_eq_nil {param : MacroParam} {arg : DecoratorArg} : checkArgument bytes param arg = [] ↔
    arg.value.value.kind = validateTypeToLiteral param.type ∧
      (param.allowedValues ≠ [] →
        ∃ allowed ∈ param.allowedValues, valueMatches bytes arg.value.value allowed.value = true) := by
  unfold checkArgument
  dsimp only
  rw [List.append_eq_nil_iff]
  refine and_congr ?_ ?_
  · split
    · rename_i hne
      exact iff_of_false (List.cons_ne_nil _ _) hne
    · rename_i heq
      exact iff_of_true rfl (not_not.mp heq)
  · split
    · rename_i hnone
      exact iff_of_true rfl fun hne => absurd hnone hne
    · rename_i hsome
      rw [imp_iff_right hsome, ← List.any_eq_true]
      split
      · rename_i hany
        exact iff_of_true rfl hany
      · rename_i hany
        exact iff_of_false (List.cons_ne_nil _ _) hany

theorem argumentLoop_eq_nil {decorator : Text} {first : Nat} : argumentLoop bytes d decorator first args = [] ↔
    ∀ i arg, args[i]? = some arg →
      ∃ param, d.paramOf (first + i) arg = some param ∧ checkArgument bytes param arg = [] := by
  induction args generalizing first with
  | nil => exact iff_of_true rfl fun i arg h => absurd h (by simp)
  | cons arg args ih =>
    -- the argument at the front, and those behind it
    have hsplit : (∀ i arg', (arg :: args)[i]? = some arg' →
        ∃ param, d.paramOf (first + i) arg' = some param ∧ checkArgument bytes param arg' = []) ↔
        (∃ param, d.paramOf first arg = some param ∧ checkArgument bytes param arg = []) ∧
          argumentLoop bytes d decorator (first + 1) args = [] := by
      rw [ih]
      constructor
      · intro h
        refine ⟨h 0 arg rfl, fun i arg' harg => ?_⟩
        rw [Nat.add_assoc, Nat.add_comm 1]
        exact h (i + 1) arg' harg
      · rintro ⟨hfirst, hrest⟩ i arg' harg
        cases i with
        | zero =>
          cases harg
          exact hfirst
        | succ i =>
          have hi := hrest i arg' harg
          rw [Nat.add_assoc, Nat.add_comm 1] at hi
          exact hi
    rw [hsplit, argumentLoop]
    split
    · rename_i param hparam
      rw [List.append_eq_nil_iff, hparam]
      refine and_congr_left fun _ => ⟨fun h => ⟨param, rfl, h⟩, ?_⟩
      rintro ⟨_, hsame, h⟩
      rw [Option.some.inj hsame]
      exact h
    · rename_i hparam _
      rw [hparam]
      exact iff_of_false (List.cons_ne_nil _ _) fun h => nomatch h.1
    · rename_i hparam _
      rw [hparam]
      exact iff_of_false (List.cons_ne_nil _ _) fun h => nomatch h.1

theorem isFilled_iff {param : MacroParam} {pi : Nat} : isFilled args param pi = true ↔
    ∃ i arg, args[i]? = some arg ∧ fills param pi arg i = true := by
  unfold isFilled
  rw [List.any_eq_true]
  constructor
  · rintro ⟨⟨arg, i⟩, hmem, h⟩
    exact ⟨i, arg, List.mem_zipIdx_iff_getElem?.mp hmem, h⟩
  · rintro ⟨i, arg, harg, h⟩
    exact ⟨(arg, i), List.mem_zipIdx_iff_getElem?.mpr harg, h⟩

theorem missingParams_eq_nil {use : DecoratorUse} : missingParams use d = [] ↔
    ∀ pi param, d.params[pi]? = some param → param.required = true → isFilled use.args param pi = true := by
  unfold missingParams
  rw [List.flatten_eq_nil_iff]
  constructor
  · intro h pi param hparam hrequired
    obtain ⟨hlt, rfl⟩ := List.getElem?_eq_some_iff.mp hparam
    have hnone := h _ (List.mem_mapIdx.mpr ⟨pi, hlt, rfl⟩)
    split at hnone
    · rename_i hfilled
      rw [hrequired] at hfilled
      exact hfilled
    · exact absurd hnone (List.cons_ne_nil _ _)
  · intro h reports hreports
    obtain ⟨pi, hlt, rfl⟩ := List.mem_mapIdx.mp hreports
    refine if_pos ?_
    cases hrequired : d.params[pi].required with
    | false => rfl
    | true => exact h pi _ (List.getElem?_eq_getElem hlt) hrequired

/-! ## What both notions ask for, and where they part -/

/-- Every argument is for a parameter, of the kind that its type requires; an integer or a
string counts as one of the allowed values; and the required parameters are filled. -/
structure Plain (bytes : UnionBytes) (d : DecoratorDef) (args : List DecoratorArg) : Prop where
  bound : ∀ i arg, args[i]? = some arg → ∃ param, d.paramOf i arg = some param
  kind : ∀ i arg param, args[i]? = some arg → d.paramOf i arg = some param →
    arg.value.value.kind = validateTypeToLiteral param.type
  allowed : ∀ i arg param, args[i]? = some arg → d.paramOf i arg = some param → param.allowedValues ≠ [] →
    arg.value.value.kind = .int ∨ arg.value.value.kind = .string →
    ∃ allowed ∈ param.allowedValues, valueMatches bytes arg.value.value allowed.value = true
  required : ∀ pi param, d.params[pi]? = some param → param.required = true → isFilled args param pi = true

/-- Only integers and strings are given to parameters with allowed values. -/
def AllowedCompared (d : DecoratorDef) (args : List DecoratorArg) : Prop :=
  ∀ i arg param, args[i]? = some arg → d.paramOf i arg = some param → param.allowedValues ≠ [] →
    arg.value.value.kind = .int ∨ arg.value.value.kind = .string

/-- No name is of two parameters, none is given twice, and only allowed values count. -/
structure Unambiguous (d : DecoratorDef) (args : List DecoratorArg) : Prop where
  name : ∀ i arg pi pj, args[i]? = some arg → BindsTo d arg i pi → BindsTo d arg i pj → pi = pj
  once : ∀ i j arg arg' pi, args[i]? = some arg → args[j]? = some arg' → BindsTo d arg i pi → BindsTo d arg' j pi → i = j
  allowed : ∀ i arg param, args[i]? = some arg → d.paramOf i arg = some param → param.allowedValues ≠ [] →
    ∃ allowed ∈ param.allowedValues, SameValue arg.value.value allowed.value

theorem valueMatches_kind {v w : LiteralValue} (h : valueMatches bytes v w = true) : v.kind = .int ∨ v.kind = .string := by
  cases v with
  | int v => exact .inl rfl
  | string s env => exact .inr rfl
  | _ => cases w <;> cases h

theorem SameValue.valueMatches {v w : LiteralValue} (h : SameValue v w) (hkind : v.kind = .int ∨ v.kind = .string) :
    valueMatches bytes v w = true := by
  cases v with
  | int v =>
    obtain rfl : LiteralValue.int v = w := h
    exact decide_eq_true rfl
  | string s env =>
    cases w with
    | string t env' => exact decide_eq_true h
    | _ => cases h
  | _ => rcases hkind with hkind | hkind <;> cases hkind

theorem argumentReports_eq_nil {use : DecoratorUse} :
    argumentReports bytes d use = [] ↔ Plain bytes d use.args ∧ AllowedCompared d use.args := by
  unfold argumentReports
  rw [List.append_eq_nil_iff, argumentLoop_eq_nil, missingParams_eq_nil]
  simp only [Nat.zero_add, checkArgument_eq_nil]
  constructor
  · rintro ⟨hargs, hrequired⟩
    have hparam {i : Nat} {arg : DecoratorArg} {param : MacroParam} (harg : use.args[i]? = some arg)
        (hparam : d.paramOf i arg = some param) :
        arg.value.value.kind = validateTypeToLiteral param.type ∧ (param.allowedValues ≠ [] →
          ∃ allowed ∈ param.allowedValues, valueMatches bytes arg.value.value allowed.value = true) := by
      obtain ⟨_, hparam', hgood⟩ := hargs i arg harg
      obtain rfl := Option.some.inj (hparam.symm.trans hparam')
      exact hgood
    refine ⟨⟨fun i arg harg => ?_, fun i arg param harg hp => (hparam harg hp).1, fun i arg param harg hp hne _ => ?_,
      hrequired⟩, fun i arg param harg hp hne => ?_⟩
    · obtain ⟨param, hp, -⟩ := hargs i arg harg
      exact ⟨param, hp⟩
    · exact (hparam harg hp).2 hne
    · obtain ⟨_, -, hmatches⟩ := (hparam harg hp).2 hne
      exact valueMatches_kind hmatches
  · rintro ⟨hplain, hcompared⟩
    refine ⟨fun i arg harg => ?_, hplain.required⟩
    obtain ⟨param, hp⟩ := hplain.bound i arg harg
    exact ⟨param, hp, hplain.kind i arg param harg hp, fun hne =>
      hplain.allowed i arg param harg hp hne (hcompared i arg param harg hp hne)⟩

theorem fills_of_bindsTo {arg : DecoratorArg} {i pi : Nat} {param : MacroParam} (hparam : d.params[pi]? = some param) :
    BindsTo d arg i pi ↔ fills param pi arg i = true := by
  unfold fills
  cases hname : arg.name with
  | none =>
    obtain ⟨hlt, -⟩ := List.getElem?_eq_some_iff.mp hparam
    rw [bindsTo_unnamed hname]
    dsimp only
    rw [decide_eq_true_iff, eq_comm (a := pi)]
    exact and_iff_left_of_imp fun h => h ▸ hlt
  | some name =>
    rw [bindsTo_named hname, hparam]
    dsimp only
    rw [decide_eq_true_iff]
    constructor
    · rintro ⟨_, hsame, hother⟩
      rw [Option.some.inj hsame, hother]
    · exact fun h => ⟨param, rfl, h.symm⟩

theorem paramOf_of_bindsTo {arg : DecoratorArg} {i pi : Nat} {param : MacroParam}
    (hone : ∀ pj, BindsTo d arg i pj → pj = pi) (hbinds : BindsTo d arg i pi) (hparam : d.params[pi]? = some param) :
    d.paramOf i arg = some param :=
  paramOf_eq_some.mpr ⟨pi, hparam, hbinds, fun pj hpj hbinds' => absurd (hone pj hbinds') (Nat.ne_of_lt hpj)⟩

theorem bindsLikeCall_iff : BindsLikeCall d args ↔ Plain bytes d args ∧ Unambiguous d args := by
  constructor
  · intro h
    -- the parameter that an argument is for is the one it is bound to
    have hplace {i : Nat} {arg : DecoratorArg} {param : MacroParam} (hparam : d.paramOf i arg = some param) :
        ∃ pi, d.params[pi]? = some param ∧ BindsTo d arg i pi := by
      obtain ⟨pi, hpi, hbinds, -⟩ := paramOf_eq_some.mp hparam
      exact ⟨pi, hpi, hbinds⟩
    have hallowed : ∀ i arg param, args[i]? = some arg → d.paramOf i arg = some param → param.allowedValues ≠ [] →
        ∃ allowed ∈ param.allowedValues, SameValue arg.value.value allowed.value := by
      intro i arg param harg hparam hne
      obtain ⟨pi, hpi, hbinds⟩ := hplace hparam
      exact h.allowed i arg pi param harg hbinds hpi hne
    refine ⟨⟨?_, ?_, ?_, ?_⟩, ⟨?_, h.once, hallowed⟩⟩
    · intro i arg harg
      obtain ⟨pi, hbinds, hone⟩ := h.one i arg harg
      have hparam : ∃ param, d.params[pi]? = some param := by
        cases hname : arg.name with
        | none =>
          obtain ⟨rfl, hlt⟩ := (bindsTo_unnamed hname i pi).mp hbinds
          exact ⟨_, List.getElem?_eq_getElem hlt⟩
        | some name =>
          obtain ⟨param, hparam, -⟩ := (bindsTo_named hname i pi).mp hbinds
          exact ⟨param, hparam⟩
      obtain ⟨param, hparam⟩ := hparam
      exact ⟨param, paramOf_of_bindsTo hone hbinds hparam⟩
    · intro i arg param harg hparam
      obtain ⟨pi, hpi, hbinds⟩ := hplace hparam
      exact h.kind i arg pi param harg hbinds hpi
    · intro i arg param harg hparam hne hkind
      obtain ⟨allowed, hmem, hsame⟩ := hallowed i arg param harg hparam hne
      exact ⟨allowed, hmem, hsame.valueMatches hkind⟩
    · intro pi param hparam hrequired
      obtain ⟨i, arg, harg, hbinds⟩ := h.required pi param hparam hrequired
      exact isFilled_iff.mpr ⟨i, arg, harg, (fills_of_bindsTo hparam).mp hbinds⟩
    · intro i arg pi pj harg hpi hpj
      obtain ⟨_, -, hone⟩ := h.one i arg harg
      exact (hone pi hpi).trans (hone pj hpj).symm
  · rintro ⟨hplain, hunambiguous⟩
    have hparam {i pi : Nat} {arg : DecoratorArg} {param : MacroParam} (harg : args[i]? = some arg)
        (hbinds : BindsTo d arg i pi) (hpi : d.params[pi]? = some param) : d.paramOf i arg = some param :=
      paramOf_of_bindsTo (fun pj hpj => hunambiguous.name i arg pj pi harg hpj hbinds) hbinds hpi
    refine ⟨fun i arg harg => ?_, hunambiguous.once, fun i arg pi param harg hbinds hpi => ?_,
      fun i arg pi param harg hbinds hpi hne => ?_, fun pi param hpi hrequired => ?_⟩
    · obtain ⟨param, hp⟩ := hplain.bound i arg harg
      obtain ⟨pi, -, hbinds, -⟩ := paramOf_eq_some.mp hp
      exact ⟨pi, hbinds, fun pj hpj => hunambiguous.name i arg pj pi harg hpj hbinds⟩
    · exact hplain.kind i arg param harg (hparam harg hbinds hpi)
    · exact hunambiguous.allowed i arg param harg (hparam harg hbinds hpi) hne
    · obtain ⟨i, arg, harg, hfills⟩ := isFilled_iff.mp (hplain.required pi param hpi hrequired)
      exact ⟨i, arg, harg, (fills_of_bindsTo hpi).mpr hfills⟩

/-! ## Result -/

section Chain

variable (bytes : UnionBytes) (definitions : DefRef → DecoratorDef) (lua : DecoratorUse → List Report) (target : Nat)
  (chain : List DecoratorUse)

def Admits (ref : DefRef) : Prop := (definitions ref).targets &&& target ≠ 0

/-- A definition that may not be used more than once is. -/
def UsedTwice (ref : DefRef) : Prop :=
  (definitions ref).allowMultiple = false ∧ 2 ≤ chain.countP fun use => use.resolved = some ref

/-- No argument is reported where the arguments are bound as those of a call, and only
there; and where a decorator is used twice that may not be, something is reported. -/
def DecoratorsBind : Prop :=
  (∀ use ∈ chain, ∀ ref, use.resolved = some ref → Admits definitions target ref →
    (argumentReports bytes (definitions ref) use = [] ↔ BindsLikeCall (definitions ref) use.args)) ∧
  ∀ ref, UsedTwice definitions chain ref → validateDecoratorChain bytes definitions lua target chain ≠ []

/-- The decorator does not admit the element, or its arguments or code are reported. -/
def Faulty (use : DecoratorUse) : Prop :=
  ∃ ref, use.resolved = some ref ∧ (Admits definitions target ref →
    Plain bytes (definitions ref) use.args → AllowedCompared (definitions ref) use.args → lua use ≠ [])

variable {bytes definitions lua target chain}

theorem validateDecoratorChain_ne_nil : validateDecoratorChain bytes definitions lua target chain ≠ [] ↔
    ∃ use ∈ chain, Faulty bytes definitions lua target use := by
  unfold validateDecoratorChain
  rw [ne_eq, List.flatMap_eq_nil_iff, not_forall]
  refine exists_congr fun use => ?_
  rw [Classical.not_imp]
  refine and_congr_right fun _ => ?_
  unfold Faulty
  cases hresolved : use.resolved with
  | none => exact iff_of_false (fun h => h rfl) fun ⟨_, h, _⟩ => nomatch h
  | some ref =>
    dsimp only
    have hone : (∃ ref', some ref = some ref' ∧ (Admits definitions target ref' →
        Plain bytes (definitions ref') use.args → AllowedCompared (definitions ref') use.args → lua use ≠ [])) ↔
        (Admits definitions target ref →
          Plain bytes (definitions ref) use.args → AllowedCompared (definitions ref) use.args → lua use ≠ []) :=
      ⟨fun ⟨_, hsame, h⟩ => Option.some.inj hsame ▸ h, fun h => ⟨ref, rfl, h⟩⟩
    rw [hone]
    unfold Admits
    split
    · rename_i hnot
      exact iff_of_true (List.cons_ne_nil _ _) fun h => absurd hnot h
    · rename_i hadmits
      rw [imp_iff_right hadmits, List.append_eq_nil_iff, argumentReports_eq_nil, Classical.not_and_iff_not_or_not,
        Classical.not_and_iff_not_or_not]
      constructor
      · rintro ((h | h) | h) hplain hcompared
        · exact absurd hplain h
        · exact absurd hcompared h
        · exact h
      · intro h
        by_cases hplain : Plain bytes (definitions ref) use.args
        · by_cases hcompared : AllowedCompared (definitions ref) use.args
          · exact .inr (h hplain hcompared)
          · exact .inl (.inr hcompared)
        · exact .inl (.inl hplain)

end Chain

/-- Where the arguments have no fault that both notions see, either they have none of the
others, or both a doubt and an argument that is not compared; and no decorator is used
twice that may not be, unless another fault is reported. -/
theorem decoratorsBind_iff (bytes : UnionBytes) (definitions : DefRef → DecoratorDef) (lua : DecoratorUse → List Report)
    (target : Nat) (chain : List DecoratorUse) : DecoratorsBind bytes definitions lua target chain ↔
      (∀ use ∈ chain, ∀ ref, use.resolved = some ref → Admits definitions target ref →
        Plain bytes (definitions ref) use.args →
        (AllowedCompared (definitions ref) use.args ↔ Unambiguous (definitions ref) use.args)) ∧
      ∀ ref, UsedTwice definitions chain ref → ∃ use ∈ chain, Faulty bytes definitions lua target use := by
  unfold DecoratorsBind
  simp only [validateDecoratorChain_ne_nil]
  refine and_congr_left fun _ => ?_
  refine forall_congr' fun use => forall_congr' fun _ => forall_congr' fun ref => forall_congr' fun _ =>
    forall_congr' fun _ => ?_
  rw [argumentReports_eq_nil, @bindsLikeCall_iff bytes]
  constructor
  · intro h hplain
    rw [and_iff_right hplain, and_iff_right hplain] at h
    exact h
  · intro h
    exact and_congr_right h

namespace Sample

def anywhere : Span := ⟨0, 0, 0, 0, 0, 0⟩

/-- `#decorator(range)`, with two required parameters, for fields. -/
def range : DecoratorDef where
  targets := 16
  allowMultiple := false
  params := [⟨['m', 'i', 'n'], some .int32, true, []⟩, ⟨['m', 'a', 'x'], some .int32, true, []⟩]

/-- `#decorator(scale)`, with a parameter that is one of two numbers. -/
def scale : DecoratorDef where
  targets := 16
  allowMultiple := true
  params := [⟨['x'], some .float32, true, [⟨anywhere, .float 0x3fe0000000000000⟩, ⟨anywhere, .float 0x3ff0000000000000⟩]⟩]

def argument (name : Option Text) (value : LiteralValue) : DecoratorArg := ⟨name, anywhere, ⟨anywhere, value⟩⟩

def useOf (name : Text) (args : List DecoratorArg) : DecoratorUse := ⟨⟨name, anywhere, some ⟨0, [0]⟩⟩, args⟩

/-- `@range(1, min: 2, max: 3)` -/
def minTwice : DecoratorUse :=
  useOf ['r', 'a', 'n', 'g', 'e']
    [argument none (.int 1), argument (some ['m', 'i', 'n']) (.int 2), argument (some ['m', 'a', 'x']) (.int 3)]

/-- `@range(1, 2)` -/
def oneToTwo : DecoratorUse := useOf ['r', 'a', 'n', 'g', 'e'] [argument none (.int 1), argument none (.int 2)]

/-- `@scale(0.5)` -/
def half : DecoratorUse := useOf ['s', 'c', 'a', 'l', 'e'] [argument none (.float 0x3fe0000000000000)]

theorem half_args {i : Nat} {arg : DecoratorArg} (h : half.args[i]? = some arg) :
    i = 0 ∧ arg = argument none (.float 0x3fe0000000000000) := by
  cases i with
  | zero => exact ⟨rfl, (Option.some.inj h).symm⟩
  | succ i => exact absurd h (by simp [half, useOf])

theorem scale_params {pi : Nat} {param : MacroParam} (h : scale.params[pi]? = some param) :
    pi = 0 ∧ param = ⟨['x'], some .float32, true,
      [⟨anywhere, .float 0x3fe0000000000000⟩, ⟨anywhere, .float 0x3ff0000000000000⟩]⟩ := by
  cases pi with
  | zero => exact ⟨rfl, (Option.some.inj h).symm⟩
  | succ pi => exact absurd h (by simp [scale])

theorem half_binds : BindsLikeCall scale half.args := by
  have hbinds : BindsTo scale (argument none (.float 0x3fe0000000000000)) 0 0 :=
    (bindsTo_unnamed rfl 0 0).mpr ⟨rfl, by decide⟩
  refine ⟨fun i arg harg => ?_, fun i j arg arg' pi harg harg' _ _ => ?_, fun i arg pi param harg _ hparam => ?_,
    fun i arg pi param harg _ hparam _ => ?_, fun pi param hparam _ => ?_⟩
  · obtain ⟨rfl, rfl⟩ := half_args harg
    exact ⟨0, hbinds, fun pj hpj => ((bindsTo_unnamed rfl 0 pj).mp hpj).1⟩
  · obtain ⟨rfl, -⟩ := half_args harg
    obtain ⟨rfl, -⟩ := half_args harg'
    rfl
  · obtain ⟨-, rfl⟩ := half_args harg
    obtain ⟨-, rfl⟩ := scale_params hparam
    rfl
  · obtain ⟨-, rfl⟩ := half_args harg
    obtain ⟨-, rfl⟩ := scale_params hparam
    exact ⟨_, List.mem_cons_self .., rfl⟩
  · obtain ⟨rfl, -⟩ := scale_params hparam
    exact ⟨0, _, rfl, hbinds⟩

end Sample

/-- A parameter is given twice and nothing is reported; a decorator is used twice and
nothing is reported; and an allowed value is reported as one that is not. -/
theorem decorators_bind_amiss :
    ¬DecoratorsBind (fun _ => 0) (fun _ => Sample.range) (fun _ => []) 16 [Sample.minTwice] ∧
      ¬DecoratorsBind (fun _ => 0) (fun _ => Sample.range) (fun _ => []) 16 [Sample.oneToTwo, Sample.oneToTwo] ∧
      ¬DecoratorsBind (fun _ => 0) (fun _ => Sample.scale) (fun _ => []) 16 [Sample.half] := by
  refine ⟨fun h => ?_, fun h => ?_, fun h => ?_⟩
  · have hbinds := (h.1 _ (List.mem_singleton.mpr rfl) _ rfl (by unfold Admits; decide)).mp (by decide)
    have hfirst : BindsTo Sample.range (Sample.argument none (.int 1)) 0 0 :=
      (bindsTo_unnamed rfl 0 0).mpr ⟨rfl, by decide⟩
    have hsecond : BindsTo Sample.range (Sample.argument (some ['m', 'i', 'n']) (.int 2)) 1 0 :=
      (bindsTo_named rfl 1 0).mpr ⟨_, rfl, rfl⟩
    exact absurd (hbinds.once 0 1 _ _ 0 rfl rfl hfirst hsecond) (by decide)
  · exact h.2 ⟨0, [0]⟩ ⟨rfl, by decide⟩ (by decide)
  · have hreported : argumentReports (fun _ => 0) Sample.scale Sample.half ≠ [] := by decide
    exact hreported ((h.1 _ (List.mem_singleton.mpr rfl) _ rfl (by unfold Admits; decide)).mpr Sample.half_binds)

end Bebop.Compiler
