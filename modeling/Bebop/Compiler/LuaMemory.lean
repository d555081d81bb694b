import Bebop.Compiler.LuaCalls

/-!
# Bebop — decorators that use up the memory

How many calls outside a protected one may allocate, counted along the functions of
`bebop_macro.c`. The arguments of every invocation are built by such calls, and the
reference to every compiled block is made by one.
-/

namespace Bebop.Compiler

open Bebop.Compiler.Parser (DecoratorArg)
open Requests

/-! ## Numbers of calls -/

/-- Of `bebop__lua_push_span`. -/
def spanCalls : Nat := 5

def literalCalls (literal : Literal) : Nat :=
  match literal.value with
  | .string _ _ => 1
  | _ => 0

def paramValueCalls (param : LuaParam) (arg : Option DecoratorArg) : Nat :=
  match arg, param.defaultValue with
  | some arg, _ => literalCalls arg.value
  | none, some value => literalCalls value
  | none, none => 0

def nameCalls (name : Option Text) : Nat := if name.isSome then 2 else 0

def nameOrNilCalls (name : Option Text) : Nat := if name.isSome then 2 else 1

def targetDefCalls (d : TargetDef) : Nat := nameOrNilCalls d.name + (nameOrNilCalls d.fqn + 2)

def targetBodyCalls (b : TargetBranch) : Nat := if b.inlineDef.isSome then 4 else nameCalls b.typeRef

def targetBranchCalls (b : TargetBranch) : Nat :=
  nameCalls b.name + (1 + (1 + (targetBodyCalls b + nameCalls b.parentName)))

def targetFieldCalls : Decorated → Nat
  | .definition (some d) => targetDefCalls d
  | .field (some (name, parentKind)) => nameCalls name + nameCalls (parentKind.map fun kind => kind.luaName.toList)
  | .method name => nameCalls name
  | .branch (some b) => targetBranchCalls b
  | .enumMember name => nameCalls name
  | _ => 0

def targetCalls : Option Decorated → Nat
  | some target => 1 + (2 + targetFieldCalls target)
  | none => 0

def paramValuesCalls (args : List DecoratorArg) : Nat → List LuaParam → Nat
  | _, [] => 0
  | i, param :: params => paramValueCalls param (findArg param i args) + paramValuesCalls args (i + 1) params

/-- Of `bebop__lua_push_call_args`. -/
def callArgsCalls (d : LuaDecorator) (usage : DecoratorUse) (target : Option Decorated) : Nat :=
  1 + (spanCalls + (1 + (d.params.length * (spanCalls + 3) + (targetCalls target +
    paramValuesCalls usage.args 0 d.params))))

def errorCalls (object : LuaValue) : Nat := if object.isNumber then 1 else 0

def resultCalls (env : InvokeEnv) : Nat :=
  match env.result with
  | .error object _ _ => if env.errorRaised then 0 else errorCalls object
  | .ok _ => 0

def invokeCalls (d : LuaDecorator) (usage : DecoratorUse) (target : Option Decorated) (env : InvokeEnv) : Nat :=
  if ¬env.hasStack then 0
  else if ¬env.found then 0
  else callArgsCalls d usage target + resultCalls env

def compileCalls (env : CompileEnv) : Nat :=
  if ¬env.hasParamList then 0
  else if ¬env.hasWrapped then 0
  else
    match env.loaded, env.chunk with
    | .error object _ _, _ => errorCalls object
    | .ok _, .error object _ _ => errorCalls object
    | .ok _, .ok .function => 1
    | .ok _, .ok _ => 0

def blockCalls (hasSource : Bool) (block : LuaBlock) (env : CompileEnv) : Nat :=
  if block.span.len > 0 ∧ hasSource then compileCalls env else 0

def decoratorCalls (d : LuaDecorator) (forValidate forExport : CompileEnv) : Nat :=
  blockCalls d.hasSource d.validateBlock forValidate + blockCalls d.hasSource d.exportBlock forExport

/-- The calls of an operation that may allocate outside a protected one. -/
def LuaOperation.calls : LuaOperation → Nat
  | .compile decorators => (decorators.map fun d => decoratorCalls d.1 d.2.1 d.2.2).sum
  | .validate d usage target env => if d.validateBlock.ref = none then 0 else invokeCalls d usage (some target) env
  | .exportData d usage env => if d.exportBlock.ref = none then 0 else invokeCalls d usage none env

/-! ## The functions make them -/

section

variable {grants : Nat → Bool}

/-- The program makes so many calls that may allocate. -/
abbrev Calls {α : Type} (grants : Nat → Bool) (m : Lua α) (n : Nat) : Prop := Asks grants Panic.abort m n

theorem calls_mayAllocate : Calls grants (mayAllocate grants) 1 := asks_request

theorem calls_createTable : Calls grants (createTable grants) 1 := calls_mayAllocate.map fun _ => []

theorem calls_pushText (text : Text) :
    Calls grants (pushText grants text) 1 := calls_mayAllocate.map fun _ => LuaValue.text text

variable (table : List (LuaValue × LuaValue))

theorem calls_setField (key : String) (value : LuaValue) :
    Calls grants (setField grants table key value) 1 := calls_mayAllocate.map fun _ => setKey key.toList value table

theorem calls_errorToString (object : LuaValue) : Calls grants (errorToString grants object) (errorCalls object) := by
  unfold errorToString errorCalls
  exact .ite (fun _ => calls_mayAllocate) fun _ => .pure ()

theorem calls_luaRef (ref : Nat) : Calls grants (luaRef grants ref) 1 := calls_mayAllocate.map fun _ => ref

theorem calls_pushSpan (span : Span) : Calls grants (pushSpan grants span) spanCalls := by
  change Calls grants _ (1 + (1 + (1 + (1 + 1))))
  unfold pushSpan
  refine calls_createTable.bind fun table => (calls_setField _ _ _).bind fun table => ?_
  exact (calls_setField _ _ _).bind fun table => (calls_setField _ _ _).bind fun table => (calls_setField _ _ _).map _

theorem calls_pushLiteral (literal : Literal) : Calls grants (pushLiteral grants literal) (literalCalls literal) := by
  unfold pushLiteral literalCalls
  cases literal.value with
  | string value env => exact calls_mayAllocate.map fun _ => LuaValue.string _
  | _ => exact .pure _

theorem calls_pushParamValue (param : LuaParam) (arg : Option DecoratorArg) :
    Calls grants (pushParamValue grants param arg) (paramValueCalls param arg) := by
  unfold pushParamValue paramValueCalls
  cases arg with
  | some arg => exact calls_pushLiteral arg.value
  | none =>
    cases param.defaultValue with
    | some value => exact calls_pushLiteral value
    | none => exact .pure _

theorem calls_setText (key : String) (text : Text) :
    Calls grants (setText grants table key text) 2 := (calls_pushText text).bind fun _ => calls_setField _ _ _

theorem calls_setName (key : String) (name : Option Text) :
    Calls grants (setName grants table key name) (nameCalls name) := by
  cases name with
  | some text => exact calls_setText table key text
  | none => exact .pure table

theorem calls_setNameOrNil (key : String) (name : Option Text) :
    Calls grants (setNameOrNil grants table key name) (nameOrNilCalls name) := by
  cases name with
  | some text => exact calls_setText table key text
  | none => exact calls_setField table key .nil

theorem calls_pushTargetDef (d : TargetDef) :
    Calls grants (pushTargetDef grants table d) (targetDefCalls d) := by
  unfold pushTargetDef targetDefCalls
  exact (calls_setNameOrNil _ _ _).bind fun table => (calls_setNameOrNil _ _ _).bind fun table => calls_setText _ _ _

theorem calls_pushTargetBody (b : TargetBranch) :
    Calls grants (pushTargetBody grants table b) (targetBodyCalls b) := by
  unfold pushTargetBody targetBodyCalls
  cases b.inlineDef with
  | some body =>
    exact (calls_setText _ _ _).bind fun table => (calls_setField _ _ _).bind fun table => calls_setField _ _ _
  | none => exact calls_setName _ _ _

theorem calls_pushTargetBranch (b : TargetBranch) :
    Calls grants (pushTargetBranch grants table b) (targetBranchCalls b) := by
  unfold pushTargetBranch targetBranchCalls
  refine (calls_setName _ _ _).bind fun table => (calls_setField _ _ _).bind fun table => ?_
  exact (calls_setField _ _ _).bind fun table => (calls_pushTargetBody _ _).bind fun table => calls_setName _ _ _

theorem calls_pushTargetFields (target : Decorated) :
    Calls grants (pushTargetFields grants table target) (targetFieldCalls target) := by
  cases target with
  | definition d =>
    cases d with
    | some d => exact calls_pushTargetDef _ _
    | none => exact .pure _
  | field f =>
    cases f with
    | some f => exact (calls_setName _ _ _).bind fun table => calls_setName _ _ _
    | none => exact .pure _
  | method name => exact calls_setName _ _ _
  | branch b =>
    cases b with
    | some b => exact calls_pushTargetBranch _ _
    | none => exact .pure _
  | enumMember name => exact calls_setName _ _ _

theorem calls_pushTarget (target : Option Decorated) :
    Calls grants (pushTarget grants target) (targetCalls target) := by
  cases target with
  | some target =>
    exact calls_createTable.bind fun table => (calls_setText _ _ _).bind fun table => (calls_pushTargetFields _ _).map _
  | none => exact .pure _

theorem calls_pushParamSpans (span : Span) (args : List DecoratorArg) (i : Nat) (params : List LuaParam)
    (self : List (LuaValue × LuaValue)) :
    Calls grants (pushParamSpans grants span args i params self) (params.length * (spanCalls + 3)) := by
  induction params generalizing i self with
  | nil =>
    rw [List.length_nil, Nat.zero_mul]
    exact .pure self
  | cons param params ih =>
    unfold pushParamSpans
    have hround := calls_createTable.bind fun table => (@calls_pushSpan grants
      (((findArg param i args).map (·.span)).getD span)).bind fun s => (calls_setField table "span" s).bind fun table =>
        (calls_setField self (String.ofList param.name) (.table table)).bind fun self => ih (i + 1) self
    have hcount : (param :: params).length * (spanCalls + 3) =
        1 + (spanCalls + (1 + (1 + params.length * (spanCalls + 3)))) := by
      rw [List.length_cons, Nat.succ_mul]
      omega
    rw [hcount]
    exact hround

theorem calls_pushParamValues (args : List DecoratorArg) (i : Nat) (params : List LuaParam) :
    Calls grants (pushParamValues grants args i params) (paramValuesCalls args i params) := by
  induction params generalizing i with
  | nil => exact .pure []
  | cons param params ih => exact (calls_pushParamValue _ _).bind fun first => (ih (i + 1)).map _

theorem calls_pushCallArgs (d : LuaDecorator) (usage : DecoratorUse) (target : Option Decorated) :
    Calls grants (pushCallArgs grants d usage target) (callArgsCalls d usage target) := by
  unfold pushCallArgs callArgsCalls
  refine calls_createTable.bind fun self => (calls_pushSpan _).bind fun span => (calls_setField _ _ _).bind fun self => ?_
  refine (calls_pushParamSpans _ _ _ _ _).bind fun self => ?_
  exact (calls_pushTarget _).bind fun target => (calls_pushParamValues _ _ _).map _

theorem calls_invoke (d : LuaDecorator) (sourceSpan : Span) (usage : DecoratorUse) (target : Option Decorated)
    (env : InvokeEnv) (returned : LuaValue → Invoked) :
    Calls grants (invoke grants d sourceSpan usage target env returned) (invokeCalls d usage target env) := by
  unfold invoke invokeCalls
  refine Asks.unless fun _ => Asks.unless fun _ => (calls_pushCallArgs _ _ _).bind fun _ => ?_
  unfold resultCalls
  cases env.result with
  | ok value => exact .pure _
  | error object text place => exact Asks.unless fun _ => (calls_errorToString object).map _

theorem calls_compileOne (span : Span) (env : CompileEnv) :
    Calls grants (compileOne grants span env) (compileCalls env) := by
  unfold compileOne compileCalls
  refine Asks.unless fun _ => Asks.unless fun _ => ?_
  cases env.loaded with
  | error object text place => exact (calls_errorToString object).map _
  | ok loaded =>
    cases env.chunk with
    | error object text place => exact (calls_errorToString object).map _
    | ok value =>
      cases value with
      | function => exact (calls_luaRef env.ref).map _
      | _ => exact .pure _

theorem calls_compileBlock (hasSource : Bool) (block : LuaBlock) (env : CompileEnv) :
    Calls grants (compileBlock grants hasSource block env) (blockCalls hasSource block env) :=
  .ite (fun _ => (calls_compileOne _ _).map _) fun _ => .pure _

theorem calls_compileDecorators (decorators : List (LuaDecorator × CompileEnv × CompileEnv)) :
    Calls grants (compileDecorators grants decorators) (LuaOperation.compile decorators).calls := by
  induction decorators with
  | nil => exact .pure []
  | cons decorator rest ih =>
    obtain ⟨d, forValidate, forExport⟩ := decorator
    exact ((calls_compileBlock _ _ _).bind fun validated => (calls_compileBlock _ _ _).map _).bind fun first => ih.map _

theorem LuaOperation.calls_run (op : LuaOperation) : Calls grants (op.run grants) op.calls := by
  cases op with
  | compile decorators => exact (calls_compileDecorators decorators).map _
  | validate d usage target env =>
    refine Asks.map ?_ _
    exact Asks.unless fun _ => calls_invoke _ _ _ _ _ _
  | exportData d usage env =>
    refine Asks.map ?_ _
    exact Asks.unless fun _ => calls_invoke _ _ _ _ _ _

theorem calls_runOperations (ops : List LuaOperation) :
    Calls grants (runOperations grants ops) (ops.map LuaOperation.calls).sum := by
  induction ops with
  | nil => exact .pure ()
  | cons op ops ih => exact op.calls_run.bind fun _ => ih

end

/-! ## Operations that make no such call -/

/-- It ends before the function is stored, and no number is turned into a string. -/
def CompileEnv.EndsEarly (env : CompileEnv) : Prop :=
  env.hasParamList = false ∨ env.hasWrapped = false ∨
    match env.loaded, env.chunk with
    | .error object _ _, _ => object.isNumber = false
    | .ok _, .error object _ _ => object.isNumber = false
    | .ok _, .ok .function => False
    | .ok _, .ok _ => True

/-- The decorator has no such block, or one that does not compile. -/
def BlockIdle (hasSource : Bool) (block : LuaBlock) (env : CompileEnv) : Prop :=
  block.span.len > 0 ∧ hasSource → env.EndsEarly

/-- The invocation ends before its arguments are built. -/
def InvokeEnv.EndsEarly (env : InvokeEnv) : Prop := env.hasStack = false ∨ env.found = false

/-- No block becomes a function, and no decorator has one that is called. -/
def LuaOperation.Idle : LuaOperation → Prop
  | .compile decorators => ∀ d ∈ decorators,
    BlockIdle d.1.hasSource d.1.validateBlock d.2.1 ∧ BlockIdle d.1.hasSource d.1.exportBlock d.2.2
  | .validate d _ _ env => d.validateBlock.ref = none ∨ env.EndsEarly
  | .exportData d _ env => d.exportBlock.ref = none ∨ env.EndsEarly

theorem errorCalls_eq_zero {object : LuaValue} : errorCalls object = 0 ↔ object.isNumber = false := by
  unfold errorCalls
  cases object.isNumber <;> decide

theorem compileCalls_eq_zero {env : CompileEnv} : compileCalls env = 0 ↔ env.EndsEarly := by
  obtain ⟨hasParamList, hasWrapped, loaded, chunk, ref⟩ := env
  unfold compileCalls CompileEnv.EndsEarly
  cases hasParamList with
  | false => exact iff_of_true rfl (.inl rfl)
  | true =>
    cases hasWrapped with
    | false => exact iff_of_true rfl (.inr (.inl rfl))
    | true =>
      have hneither (p : Prop) : (true = false ∨ true = false ∨ p) ↔ p := by
        constructor
        · rintro (h | h | h)
          · cases h
          · cases h
          · exact h
        · exact fun h => .inr (.inr h)
      dsimp only
      rw [hneither]
      cases loaded with
      | error object text place => exact errorCalls_eq_zero
      | ok loaded =>
        cases chunk with
        | error object text place => exact errorCalls_eq_zero
        | ok value =>
          cases value with
          | function => exact iff_of_false Nat.one_ne_zero id
          | _ => exact iff_of_true rfl trivial

theorem blockCalls_eq_zero {hasSource : Bool} {block : LuaBlock} {env : CompileEnv} :
    blockCalls hasSource block env = 0 ↔ BlockIdle hasSource block env := by
  unfold blockCalls BlockIdle
  split
  · rename_i hblock
    rw [compileCalls_eq_zero, forall_prop_of_true hblock]
  · rename_i hnone
    exact iff_of_true rfl fun h => absurd h hnone

theorem invokeCalls_eq_zero {d : LuaDecorator} {usage : DecoratorUse} {target : Option Decorated} {env : InvokeEnv} :
    invokeCalls d usage target env = 0 ↔ env.EndsEarly := by
  obtain ⟨hasStack, found, result, errorRaised, hasArena⟩ := env
  unfold invokeCalls InvokeEnv.EndsEarly
  cases hasStack with
  | false => exact iff_of_true rfl (.inl rfl)
  | true =>
    cases found with
    | false => exact iff_of_true rfl (.inr rfl)
    | true =>
      refine iff_of_false ?_ ?_
      · change callArgsCalls d usage target + _ ≠ 0
        unfold callArgsCalls
        omega
      · rintro (h | h) <;> cases h

theorem ite_calls_eq_zero {ref : Option Nat} {d : LuaDecorator} {usage : DecoratorUse} {target : Option Decorated}
    {env : InvokeEnv} :
    (if ref = none then 0 else invokeCalls d usage target env) = 0 ↔ ref = none ∨ env.EndsEarly := by
  split
  · rename_i hnone
    exact iff_of_true rfl (.inl hnone)
  · rename_i hsome
    rw [invokeCalls_eq_zero, or_iff_right hsome]

theorem LuaOperation.calls_eq_zero (op : LuaOperation) : op.calls = 0 ↔ op.Idle := by
  cases op with
  | compile decorators =>
    change (decorators.map fun d => decoratorCalls d.1 d.2.1 d.2.2).sum = 0 ↔ _
    rw [List.sum_eq_zero_iff_forall_eq_nat]
    simp only [List.forall_mem_map]
    refine forall₂_congr fun d _ => ?_
    exact Nat.add_eq_zero_iff.trans (and_congr blockCalls_eq_zero blockCalls_eq_zero)
  | validate d usage target env => exact ite_calls_eq_zero
  | exportData d usage env => exact ite_calls_eq_zero

/-! ## Failures in a protected call -/

theorem invoke_failed {grants : Nat → Bool} {d : LuaDecorator} {sourceSpan : Span} {usage : DecoratorUse}
    {target : Option Decorated} {env : InvokeEnv} {returned : LuaValue → Invoked} {object : LuaValue} {text : String}
    {place : Span} {invoked : Invoked} {asked asked' : Nat} (hfails : env.result = .error object text place)
    (hrun : invoke grants d sourceSpan usage target env returned asked = .ok (invoked, asked')) :
    invoked.status = .error := by
  unfold invoke at hrun
  split at hrun
  · cases hrun
    rfl
  · split at hrun
    · cases hrun
      rfl
    · obtain ⟨args, s, -, hrest⟩ := Fallible.run_bind_ok.mp hrun
      rw [hfails] at hrest
      dsimp only at hrest
      split at hrest
      · cases hrest
        rfl
      · obtain ⟨u, t, -, hend⟩ := Fallible.run_bind_ok.mp hrest
        cases hend
        rfl

/-- A sequence of operations returns if and only if the calls that it makes outside protected
ones get their memory; and memory that is refused inside one is an error of the invocation. -/
theorem luaReturns_iff (ops : List LuaOperation) :
    (∀ grants asked, (∃ result asked', runOperations grants ops asked = .ok (result, asked')) ↔
      ∀ k < (ops.map LuaOperation.calls).sum, grants (asked + k)) ∧
    ((∀ grants asked, ∃ result asked', runOperations grants ops asked = .ok (result, asked')) ↔
      ∀ op ∈ ops, op.Idle) ∧
    (∀ grants d sourceSpan usage target env returned object text place invoked asked asked',
      env.result = .error object text place →
      invoke grants d sourceSpan usage target env returned asked = .ok (invoked, asked') → invoked.status = .error) := by
  have hends (grants : Nat → Bool) (asked : Nat) := (@calls_runOperations grants ops).ends_iff asked
  refine ⟨hends, ⟨fun hall => ?_, fun hidle grants asked => ?_⟩, fun _ _ _ _ _ _ _ _ _ _ _ _ _ => invoke_failed⟩
  · -- without any memory there may be no call at all
    have hnone := (hends (fun _ => false) 0).mp (hall _ _)
    have hzero : (ops.map LuaOperation.calls).sum = 0 := by
      by_contra hne
      exact Bool.false_ne_true (hnone 0 (Nat.pos_of_ne_zero hne))
    rw [List.sum_eq_zero_iff_forall_eq_nat] at hzero
    exact fun op hop => op.calls_eq_zero.mp (hzero _ (List.mem_map_of_mem hop))
  · have hzero : (ops.map LuaOperation.calls).sum = 0 := by
      rw [List.sum_eq_zero_iff_forall_eq_nat]
      simp only [List.forall_mem_map]
      exact fun op hop => op.calls_eq_zero.mpr (hidle op hop)
    rw [hends, hzero]
    exact fun k hk => absurd hk (Nat.not_lt_zero k)

def hungryDecorator : LuaDecorator :=
  ⟨"hungry".toList, [], true, ⟨⟨0, 1, 1, 1, 1, 1⟩, some 3⟩, ⟨⟨0, 0, 1, 1, 1, 1⟩, none⟩⟩

def hungryUse : LuaOperation :=
  .validate hungryDecorator ⟨⟨"hungry".toList, ⟨0, 7, 1, 1, 1, 8⟩, none⟩, []⟩ (.method none)
    ⟨true, true, .ok .nil, false, true⟩

/-- The first use leaves no memory, and the second one aborts. -/
theorem luaReturns_fails : (∃ asked, runOperations (· < 10) [hungryUse] 0 = .ok ((), asked)) ∧
    runOperations (· < 10) [hungryUse, hungryUse] 0 = .error .abort := by
  exact ⟨⟨10, rfl⟩, rfl⟩

end Bebop.Compiler
