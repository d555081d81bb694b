import Bebop.Compiler.DecoratorArguments
import Bebop.Lib.Requests

/-!
# Bebop — the calls to the interpreter of decorators

The sequences of calls that `bebop_macro.c` makes to the API of Lua. Outside `lua_load`
and `lua_pcall` a call that may allocate does not return when `bebop__lua_bounded_alloc`
refuses the memory: Lua calls the panic function and aborts. `grants k` says whether the
call number `k` that may allocate outside a protected one gets what it asks for. What the
Lua code does is the environment of a call.
-/

namespace Bebop.Compiler

open Bebop.Compiler.Parser (DecoratorArg)
open Requests

/-! ## Decorators and their targets -/

structure LuaParam extends MacroParam where
  defaultValue : Option Literal
  deriving DecidableEq, Repr

/-- A block of Lua code; without one the length is zero. -/
structure LuaBlock where
  span : Span
  -- the reference to the compiled function; `none` is `BEBOP_LUA_NOREF`
  ref : Option Nat
  deriving DecidableEq, Repr

/-- What these functions read of a decorator's definition. -/
structure LuaDecorator where
  name : Text
  params : List LuaParam
  hasSource : Bool
  validateBlock : LuaBlock
  exportBlock : LuaBlock
  deriving DecidableEq, Repr

structure TargetDef where
  name : Option Text
  fqn : Option Text
  kind : DefKind
  deriving DecidableEq, Repr

structure TargetBranch where
  name : Option Text
  discriminator : Nat
  -- whether the inline definition is a message, whether it is mutable, its fields
  inlineDef : Option (Bool × Bool × Nat)
  typeRef : Option Text
  parentName : Option Text
  deriving DecidableEq, Repr

/-- `bebop_decorated_t` -/
inductive Decorated
  | definition (d : Option TargetDef)
  -- the name, and the kind of the definition it is in
  | field (f : Option (Option Text × Option DefKind))
  | method (name : Option Text)
  | branch (b : Option TargetBranch)
  | enumMember (name : Option Text)
  deriving DecidableEq, Repr

/-! ## Values -/

inductive LuaValue
  | nil
  | boolean (value : Bool)
  | integer (value : Int)
  | number (bits : UInt64)
  | string (bytes : List UInt8)
  | text (text : Text)
  | function
  -- the keys and values, in the order `lua_next` has them
  | table (entries : List (LuaValue × LuaValue))

/-- How a protected call ends, with what `bebop__lua_remap_error` makes of an error. -/
inductive CallResult
  | ok (value : LuaValue)
  | error (object : LuaValue) (text : String) (span : Span)

inductive Panic
  | abort
  deriving DecidableEq, Repr

abbrev Lua := StateT Nat (Except Panic)

/-- `lua_isnumber`, of a value that is not a string. -/
def LuaValue.isNumber : LuaValue → Bool
  | .integer _ => true
  | .number _ => true
  | _ => false

/-- A field of a table that the functions make; its keys are texts. -/
def setKey (key : Text) (value : LuaValue) : List (LuaValue × LuaValue) → List (LuaValue × LuaValue)
  | [] =>
    match value with
    | .nil => []
    | value => [(.text key, value)]
  | (.text key', old) :: entries =>
    if key' = key then (.text key, value) :: entries else (.text key', old) :: setKey key value entries
  | entry :: entries => entry :: setKey key value entries

/-! ## Calls that may allocate -/

section

variable (grants : Nat → Bool)

def mayAllocate : Lua Unit := request grants .abort

/-- `lua_createtable` -/
def createTable : Lua (List (LuaValue × LuaValue)) := do
  mayAllocate grants
  return []

/-- `lua_pushstring`, of a name. -/
def pushText (text : Text) : Lua LuaValue := do
  mayAllocate grants
  return .text text

variable (table : List (LuaValue × LuaValue))

/-- `lua_setfield`; no entry is made for `nil`. -/
def setField (key : String) (value : LuaValue) : Lua (List (LuaValue × LuaValue)) := do
  mayAllocate grants
  return setKey key.toList value table

/-- `lua_tostring`, of an error object: a number is turned into a string. -/
def errorToString (object : LuaValue) : Lua Unit :=
  if object.isNumber then mayAllocate grants else return

/-- `luaL_ref`; nothing is stored of `nil`. -/
def luaRef (ref : Nat) : Lua Nat := do
  mayAllocate grants
  return ref

/-! ## Arguments -/

/-- `bebop__lua_push_span` -/
def pushSpan (span : Span) : Lua LuaValue := do
  let table ← createTable grants
  let table ← setField grants table "off" (.integer span.off)
  let table ← setField grants table "len" (.integer span.len)
  let table ← setField grants table "start_line" (.integer span.startLine)
  let table ← setField grants table "start_col" (.integer span.startCol)
  return .table table

/-- `bebop__lua_push_literal` -/
def pushLiteral (literal : Literal) : Lua LuaValue :=
  match literal.value with
  | .bool value => return .boolean value
  | .int value => return .integer value
  | .float bits => return .number bits
  | .string value _ => do
    mayAllocate grants
    return .string (value.takeWhile (· ≠ 0))
  | _ => return .nil

/-- `bebop__lua_find_arg` -/
def findArg (param : LuaParam) (paramIndex : Nat) (args : List DecoratorArg) : Option DecoratorArg :=
  (args.zipIdx.find? fun (arg, j) =>
    match arg.name with
    | some name => name = param.name
    | none => j = paramIndex).map (·.1)

/-- `bebop__lua_push_param_value` -/
def pushParamValue (param : LuaParam) (arg : Option DecoratorArg) : Lua LuaValue :=
  match arg, param.defaultValue with
  | some arg, _ => pushLiteral grants arg.value
  | none, some value => pushLiteral grants value
  | none, none => return .nil

/-- `bebop__def_kind_str` -/
def DefKind.luaName : DefKind → String
  | .enum => "enum"
  | .struct => "struct"
  | .message => "message"
  | .union => "union"
  | .service => "service"
  | .const => "const"
  | .decorator => "decorator"

/-- `bebop__decorated_kind_str` -/
def Decorated.kindName : Decorated → String
  | .definition _ => "definition"
  | .field _ => "field"
  | .method _ => "method"
  | .branch _ => "branch"
  | .enumMember _ => "enum_member"

def setText (key : String) (text : Text) : Lua (List (LuaValue × LuaValue)) := do
  setField grants table key (← pushText grants text)

def setName (key : String) : Option Text → Lua (List (LuaValue × LuaValue))
  | some text => setText grants table key text
  | none => return table

/-- A name that is set, to `nil` if it is not there. -/
def setNameOrNil (key : String) : Option Text → Lua (List (LuaValue × LuaValue))
  | some text => setText grants table key text
  | none => setField grants table key .nil

def pushTargetDef (d : TargetDef) : Lua (List (LuaValue × LuaValue)) := do
  let table ← setNameOrNil grants table "name" d.name
  let table ← setNameOrNil grants table "fqn" d.fqn
  setText grants table "def_kind" d.kind.luaName.toList

/-- The inline definition of a branch, or else the name of its type. -/
def pushTargetBody (b : TargetBranch) : Lua (List (LuaValue × LuaValue)) :=
  match b.inlineDef with
  | some (isMessage, isMutable, fieldCount) => do
    let table ← setText grants table "inline_kind" (if isMessage then "message" else "struct").toList
    let table ← setField grants table "is_mutable" (.boolean isMutable)
    setField grants table "field_count" (.integer fieldCount)
  | none => setName grants table "type_ref" b.typeRef

def pushTargetBranch (b : TargetBranch) : Lua (List (LuaValue × LuaValue)) := do
  let table ← setName grants table "name" b.name
  let table ← setField grants table "discriminator" (.integer b.discriminator)
  let table ← setField grants table "has_inline_def" (.boolean b.inlineDef.isSome)
  let table ← pushTargetBody grants table b
  setName grants table "parent_name" b.parentName

def pushTargetFields : Decorated → Lua (List (LuaValue × LuaValue))
  | .definition (some d) => pushTargetDef grants table d
  | .field (some (name, parentKind)) => do
    let table ← setName grants table "name" name
    setName grants table "parent_kind" (parentKind.map fun kind => kind.luaName.toList)
  | .method name => setName grants table "name" name
  | .branch (some b) => pushTargetBranch grants table b
  | .enumMember name => setName grants table "name" name
  | _ => return table

/-- `bebop__lua_push_target`; without a target `nil` is pushed. -/
def pushTarget : Option Decorated → Lua LuaValue
  | some target => do
    let table ← createTable grants
    let table ← setText grants table "kind" target.kindName.toList
    return .table (← pushTargetFields grants table target)
  | none => return .nil

/-- The spans of the arguments, in the table `self`. -/
def pushParamSpans (span : Span) (args : List DecoratorArg) : (i : Nat) → List LuaParam → List (LuaValue × LuaValue) →
    Lua (List (LuaValue × LuaValue))
  | _, [], self => return self
  | i, param :: params, self => do
    let table ← createTable grants
    let table ← setField grants table "span" (← pushSpan grants (((findArg param i args).map (·.span)).getD span))
    let self ← setField grants self (String.ofList param.name) (.table table)
    pushParamSpans span args (i + 1) params self

def pushParamValues (args : List DecoratorArg) : (i : Nat) → List LuaParam → Lua (List LuaValue)
  | _, [] => return []
  | i, param :: params => do
    let first ← pushParamValue grants param (findArg param i args)
    return first :: (← pushParamValues args (i + 1) params)

/-- `bebop__lua_push_call_args` -/
def pushCallArgs (d : LuaDecorator) (usage : DecoratorUse) (target : Option Decorated) : Lua (List LuaValue) := do
  let self ← createTable grants
  let self ← setField grants self "span" (← pushSpan grants usage.span)
  let self ← pushParamSpans grants usage.span usage.args 0 d.params self
  let target ← pushTarget grants target
  let values ← pushParamValues grants usage.args 0 d.params
  return .table self :: target :: values

/-! ## Compilation -/

/-- The memory of the arena, and how the protected calls end. -/
structure CompileEnv where
  hasParamList : Bool
  hasWrapped : Bool
  loaded : CallResult
  chunk : CallResult
  ref : Nat

/-- `bebop__lua_compile_one`; the budget is reset before the chunk is called. -/
def compileOne (span : Span) (env : CompileEnv) : Lua (Option Nat × List Report) :=
  if ¬env.hasParamList then
    return (none, [errorAt 145 span "Failed to allocate decorator parameter list" none])
  else if ¬env.hasWrapped then return (none, [errorAt 145 span "Failed to wrap Lua source" none])
  else
    match env.loaded with
    | .error object text place => do
      errorToString grants object
      return (none, [errorAt 145 place text none])
    | .ok _ =>
      match env.chunk with
      | .error object text place => do
        errorToString grants object
        return (none, [errorAt 145 place text none])
      | .ok .function => do
        return (some (← luaRef grants env.ref), [])
      | .ok _ => return (none, [errorAt 145 span "Lua chunk did not return a function" none])

def compileBlock (hasSource : Bool) (block : LuaBlock) (env : CompileEnv) : Lua (LuaBlock × List Report) :=
  if block.span.len > 0 ∧ hasSource then do
    let (ref, reports) ← compileOne grants block.span env
    return (⟨block.span, ref <|> block.ref⟩, reports)
  else return (block, [])

/-- A decorator in the loop of `bebop__lua_compile_decorators`. -/
def compileDecorator (d : LuaDecorator) (forValidate forExport : CompileEnv) : Lua (LuaDecorator × List Report) := do
  let (validateBlock, reports) ← compileBlock grants d.hasSource d.validateBlock forValidate
  let (exportBlock, reports') ← compileBlock grants d.hasSource d.exportBlock forExport
  return ({ d with validateBlock := validateBlock, exportBlock := exportBlock }, reports ++ reports')

/-- `bebop__lua_compile_decorators`, over the decorators of all schemas. -/
def compileDecorators : List (LuaDecorator × CompileEnv × CompileEnv) → Lua (List (LuaDecorator × List Report))
  | [] => return []
  | (d, forValidate, forExport) :: rest => do
    let first ← compileDecorator grants d forValidate forExport
    return first :: (← compileDecorators rest)

/-! ## Invocation -/

/-- `bebop_status_t`, of these functions. -/
inductive LuaStatus
  | ok
  | error
  deriving DecidableEq, Repr

/-- The stack, the registry, how the call ends, and the memory of the arena. -/
structure InvokeEnv where
  hasStack : Bool
  found : Bool
  result : CallResult
  errorRaised : Bool
  hasArena : Bool

structure Invoked where
  status : LuaStatus
  reports : List Report
  exported : Option (List (LuaValue × LuaValue))

def Invoked.failed (span : Span) (message : String) : Invoked := ⟨.error, [errorAt 145 span message none], none⟩

/-- What `bebop__lua_invoke_validate` and `bebop__lua_invoke_export` have in common. -/
def invoke (d : LuaDecorator) (sourceSpan : Span) (usage : DecoratorUse) (target : Option Decorated) (env : InvokeEnv)
    (returned : LuaValue → Invoked) : Lua Invoked :=
  if ¬env.hasStack then return .failed sourceSpan "Decorator has too many parameters for the Lua stack"
  else if ¬env.found then return .failed sourceSpan "Compiled decorator function lost from registry"
  else do
    let _ ← pushCallArgs grants d usage target
    match env.result with
    | .error object text place =>
      if env.errorRaised then return ⟨.error, [], none⟩
      else
        errorToString grants object
        return .failed place ("@" ++ String.ofList d.name ++ ": " ++ text)
    | .ok value => return returned value

def LuaValue.stringText : LuaValue → Option Text
  | .text t => some t
  | .string bytes => some (bytes.map fun b => Char.ofNat b.toNat)
  | _ => none

def LuaValue.isExportable : LuaValue → Bool
  | .boolean _ => true
  | value => value.isNumber || value.stringText.isSome

/-- What is wrong with the entries of an export table. -/
def exportError : List (LuaValue × LuaValue) → Option String
  | [] => none
  | (key, value) :: entries =>
    match key.stringText with
    | none => some "Export table keys must be strings"
    | some text =>
      if value.isExportable then exportError entries
      else some ("Export table value for key '" ++ String.ofList text ++ "' must be a bool, number, or string")

/-- What `bebop__lua_invoke_export` does with the result of the call. -/
def exportTable (sourceSpan : Span) (hasArena : Bool) : LuaValue → Invoked
  | .table entries =>
    match exportError entries with
    | some message => .failed sourceSpan message
    | none =>
      if hasArena then ⟨.ok, [], some entries⟩ else .failed sourceSpan "Failed to allocate export data"
  | _ => .failed sourceSpan "Export block must return a table"

/-- `bebop__lua_run_validate`, with the arguments present. -/
def runValidate (d : LuaDecorator) (usage : DecoratorUse) (target : Decorated) (env : InvokeEnv) : Lua Invoked :=
  if d.validateBlock.ref = none then return ⟨.ok, [], none⟩
  else invoke grants d d.validateBlock.span usage (some target) env fun _ => ⟨.ok, [], none⟩

/-- `bebop__lua_run_export`, with the arguments present. -/
def runExport (d : LuaDecorator) (usage : DecoratorUse) (env : InvokeEnv) : Lua Invoked :=
  if d.exportBlock.ref = none then return ⟨.ok, [], none⟩
  else invoke grants d d.exportBlock.span usage none env (exportTable d.exportBlock.span env.hasArena)

inductive LuaOperation
  | compile (decorators : List (LuaDecorator × CompileEnv × CompileEnv))
  | validate (d : LuaDecorator) (usage : DecoratorUse) (target : Decorated) (env : InvokeEnv)
  | exportData (d : LuaDecorator) (usage : DecoratorUse) (env : InvokeEnv)

def LuaOperation.run : LuaOperation → Lua Unit
  | .compile decorators => do
    let _ ← compileDecorators grants decorators
  | .validate d usage target env => do
    let _ ← runValidate grants d usage target env
  | .exportData d usage env => do
    let _ ← runExport grants d usage env

def runOperations : List LuaOperation → Lua Unit
  | [] => return
  | op :: ops => do
    op.run grants
    runOperations ops

end

end Bebop.Compiler
