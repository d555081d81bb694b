import Bebop.Compiler.SortedDefinitions
import Bebop.Compiler.EnvSubstitution

/-!
# Bebop — how deep a type may be

`bebop__validate_resolve_type` and `bebop__validate_collect_type_deps` walk over a type
with a stack of 128 entries, and give up at the 64th level. The parser lets 64 pass, and
more behind a map, so that there are types that it accepts and at which `bebop_validate`
fails (`depthHandled_iff`, `deep_array_fatal`).
-/

namespace Bebop.Compiler

/-! ## The walk -/

namespace Ty

def height : Ty → Nat
  | .scalar _ _ => 0
  | .array _ element => element.height + 1
  | .fixedArray _ element _ => element.height + 1
  | .map _ key value => max key.height value.height + 1
  | .defined _ _ _ => 0

def nodes : Ty → Nat
  | .scalar _ _ => 1
  | .array _ element => element.nodes + 1
  | .fixedArray _ element _ => element.nodes + 1
  | .map _ key value => value.nodes + key.nodes + 1
  | .defined _ _ _ => 1

def parts : Ty → List Ty
  | .array _ element => [element]
  | .fixedArray _ element _ => [element]
  | .map _ key value => [key, value]
  | _ => []

def ownName : Ty → List (Text × Option DefRef)
  | .defined _ name resolved => [(name, resolved)]
  | _ => []

end Ty

/-- `BEBOP_VALIDATE_TYPE_STACK_SIZE` -/
def validateTypeStackSize : Nat := 128

/-- The types that wait on the stack, each with its depth, the top first. -/
abbrev TypeStack := List (Ty × Nat)

/-- What a round of the two loops pushes: nothing where there is no room. -/
def pushInner (type : Ty) (depth : Nat) (stack : TypeStack) : TypeStack :=
  match type with
  | .array _ element => if stack.length < validateTypeStackSize then (element, depth + 1) :: stack else stack
  | .fixedArray _ element _ => if stack.length < validateTypeStackSize then (element, depth + 1) :: stack else stack
  | .map _ key value =>
    if stack.length + 2 ≤ validateTypeStackSize then (key, depth + 1) :: (value, depth + 1) :: stack else stack
  | .scalar _ _ => stack
  | .defined _ _ _ => stack

/-- The loop of both: the names that it comes to, and whether the stack is empty at its
end. A name that means nothing ends it before in `bebop__validate_resolve_type`. -/
def walkTypes : Nat → TypeStack → List (Text × Option DefRef) × Bool
  | _, [] => ([], true)
  | 0, _ :: _ => ([], false)
  | rounds + 1, (type, depth) :: stack =>
    if depth ≥ maxTypeDepth then ([], false)
    else
      let others := walkTypes rounds (pushInner type depth stack)
      (type.ownName ++ others.1, others.2)

def walkType (type : Ty) : List (Text × Option DefRef) × Bool := walkTypes type.nodes [(type, 0)]

def Ty.Walked (type : Ty) : Prop := walkType type = (type.references, true)

variable {type : Ty} {depth rounds : Nat} {stack : TypeStack}

theorem walkTypes_nil (rounds : Nat) : walkTypes rounds [] = ([], true) := by
  cases rounds <;> rfl

theorem walkTypes_cons (hdepth : depth < maxTypeDepth) :
    walkTypes (rounds + 1) ((type, depth) :: stack) =
      (type.ownName ++ (walkTypes rounds (pushInner type depth stack)).1,
        (walkTypes rounds (pushInner type depth stack)).2) := by
  rw [walkTypes, if_neg (Nat.not_le.mpr hdepth)]

theorem walkTypes_tooDeep (hdepth : maxTypeDepth ≤ depth) : (walkTypes rounds ((type, depth) :: stack)).2 = false := by
  cases rounds with
  | zero => rfl
  | succ rounds => rw [walkTypes, if_pos hdepth]

theorem pushInner_eq (hroom : stack.length ≤ depth) (hdepth : depth < maxTypeDepth) :
    pushInner type depth stack = type.parts.map (fun part => (part, depth + 1)) ++ stack := by
  have hsize : depth + 2 ≤ validateTypeStackSize := by
    unfold maxTypeDepth at hdepth
    unfold validateTypeStackSize
    omega
  cases type with
  | scalar span kind => rfl
  | defined span name resolved => rfl
  | array span element => exact if_pos (by omega)
  | fixedArray span element size => exact if_pos (by omega)
  | map span key value => exact if_pos (by omega)

theorem walkTypes_shallow (hroom : stack.length ≤ depth) (hdepth : depth + type.height < maxTypeDepth) :
    walkTypes (rounds + type.nodes) ((type, depth) :: stack) =
      (type.references ++ (walkTypes rounds stack).1, (walkTypes rounds stack).2) := by
  have hlt : depth < maxTypeDepth := Nat.lt_of_le_of_lt (Nat.le_add_right _ _) hdepth
  induction type generalizing depth stack rounds with
  | scalar span kind =>
    refine (walkTypes_cons hlt).trans ?_
    rw [pushInner_eq hroom hlt]
    rfl
  | defined span name resolved =>
    refine (walkTypes_cons hlt).trans ?_
    rw [pushInner_eq hroom hlt]
    rfl
  | array span element ih =>
    rw [Ty.height] at hdepth
    refine (walkTypes_cons hlt).trans ?_
    rw [pushInner_eq hroom hlt]
    exact Prod.ext (congrArg Prod.fst (ih (Nat.le_succ_of_le hroom) (by omega) (by omega)))
      (congrArg Prod.snd (ih (Nat.le_succ_of_le hroom) (by omega) (by omega)))
  | fixedArray span element size ih =>
    rw [Ty.height] at hdepth
    refine (walkTypes_cons hlt).trans ?_
    rw [pushInner_eq hroom hlt]
    exact Prod.ext (congrArg Prod.fst (ih (Nat.le_succ_of_le hroom) (by omega) (by omega)))
      (congrArg Prod.snd (ih (Nat.le_succ_of_le hroom) (by omega) (by omega)))
  | map span key value ihKey ihValue =>
    rw [Ty.height] at hdepth
    rw [Ty.nodes, ← Nat.add_assoc, walkTypes_cons hlt, pushInner_eq hroom hlt, Ty.parts, List.map_cons, List.map_cons,
      List.map_nil, List.cons_append, List.singleton_append, ← Nat.add_assoc]
    -- the value waits while the key is walked
    have hwaits : ((value, depth + 1) :: stack).length ≤ depth + 1 := Nat.succ_le_succ hroom
    rw [ihKey hwaits (by omega) (by omega), ihValue (Nat.le_succ_of_le hroom) (by omega) (by omega), Ty.references,
      List.append_assoc]
    rfl

theorem walkTypes_deep (hroom : stack.length ≤ depth) (hdeep : maxTypeDepth ≤ depth + type.height) :
    (walkTypes (rounds + type.nodes) ((type, depth) :: stack)).2 = false := by
  induction type generalizing depth stack rounds with
  | scalar span kind => exact walkTypes_tooDeep hdeep
  | defined span name resolved => exact walkTypes_tooDeep hdeep
  | array span element ih =>
    by_cases hdepth : maxTypeDepth ≤ depth
    · exact walkTypes_tooDeep hdepth
    · have hlt := Nat.not_le.mp hdepth
      rw [Ty.height] at hdeep
      refine (congrArg Prod.snd (walkTypes_cons hlt)).trans ?_
      rw [pushInner_eq hroom hlt]
      exact ih (Nat.le_succ_of_le hroom) (by omega)
  | fixedArray span element size ih =>
    by_cases hdepth : maxTypeDepth ≤ depth
    · exact walkTypes_tooDeep hdepth
    · have hlt := Nat.not_le.mp hdepth
      rw [Ty.height] at hdeep
      refine (congrArg Prod.snd (walkTypes_cons hlt)).trans ?_
      rw [pushInner_eq hroom hlt]
      exact ih (Nat.le_succ_of_le hroom) (by omega)
  | map span key value ihKey ihValue =>
    by_cases hdepth : maxTypeDepth ≤ depth
    · exact walkTypes_tooDeep hdepth
    · have hlt := Nat.not_le.mp hdepth
      rw [Ty.height] at hdeep
      rw [Ty.nodes, ← Nat.add_assoc, walkTypes_cons hlt, pushInner_eq hroom hlt, Ty.parts, List.map_cons,
        List.map_cons, List.map_nil, List.cons_append, List.singleton_append, ← Nat.add_assoc]
      have hwaits : ((value, depth + 1) :: stack).length ≤ depth + 1 := Nat.succ_le_succ hroom
      by_cases hkey : maxTypeDepth ≤ depth + 1 + key.height
      · exact ihKey hwaits hkey
      · rw [walkTypes_shallow hwaits (Nat.not_le.mp hkey)]
        exact ihValue (Nat.le_succ_of_le hroom) (by omega)

theorem walked_iff : type.Walked ↔ type.height < maxTypeDepth := by
  unfold Ty.Walked walkType
  rw [← Nat.zero_add type.nodes]
  constructor
  · intro h
    by_contra hdeep
    have hfails := @walkTypes_deep type 0 0 [] (Nat.le_refl _) (by rw [Nat.zero_add]; exact Nat.not_lt.mp hdeep)
    rw [h] at hfails
    cases hfails
  · intro hshallow
    rw [@walkTypes_shallow type 0 0 [] (Nat.le_refl _) (by rwa [Nat.zero_add]), walkTypes_nil, List.append_nil]

/-! ## The walks of the two -/

namespace ParseResult

variable {result : ParseResult}

theorem collectTypeDeps_eq (depth : Nat) (type : Ty) (deps : List Text) :
    result.collectTypeDeps depth type deps =
      if depth + type.height < maxTypeDepth then
        some (type.references.foldl (fun deps r => result.addResolved deps r.2) deps)
      else none := by
  induction type generalizing depth deps with
  | scalar span kind =>
    rw [collectTypeDeps, Ty.height, Nat.add_zero]
    by_cases hdepth : depth < maxTypeDepth
    · rw [if_pos hdepth, if_neg (Nat.not_le.mpr hdepth)]
      rfl
    · rw [if_neg hdepth, if_pos (Nat.not_lt.mp hdepth)]
  | defined span name resolved =>
    rw [collectTypeDeps, Ty.height, Nat.add_zero]
    by_cases hdepth : depth < maxTypeDepth
    · rw [if_pos hdepth, if_neg (Nat.not_le.mpr hdepth)]
      rfl
    · rw [if_neg hdepth, if_pos (Nat.not_lt.mp hdepth)]
  | array span element ih =>
    rw [collectTypeDeps, Ty.height, Ty.references, ih, Nat.add_assoc, Nat.add_comm 1]
    by_cases hdepth : depth ≥ maxTypeDepth
    · rw [if_pos hdepth, if_neg (by omega)]
    · rw [if_neg hdepth]
  | fixedArray span element size ih =>
    rw [collectTypeDeps, Ty.height, Ty.references, ih, Nat.add_assoc, Nat.add_comm 1]
    by_cases hdepth : depth ≥ maxTypeDepth
    · rw [if_pos hdepth, if_neg (by omega)]
    · rw [if_neg hdepth]
  | map span key value ihKey ihValue =>
    rw [collectTypeDeps, Ty.height, Ty.references, ihKey, List.foldl_append]
    by_cases hkey : depth + 1 + key.height < maxTypeDepth
    · rw [if_neg (by omega), if_pos hkey, Option.bind_some, ihValue]
      refine if_congr ?_ rfl rfl
      omega
    · have hdeep : ¬depth + (max key.height value.height + 1) < maxTypeDepth := by omega
      rw [if_neg hdeep, if_neg hkey]
      split <;> rfl

/-! ## The validation -/

theorem height_visitType (context : DefRef) (kind : ResolveKind) (depth : Nat) (type : Ty) :
    (result.visitType context kind depth type).type.height = type.height := by
  induction type generalizing depth with
  | scalar span scalar =>
    rw [visitType]
    split <;> rfl
  | defined span name resolved =>
    rw [visitType]
    split
    · rfl
    · unfold visitDefined
      split
      · rfl
      · rfl
      · split
        · rfl
        · split
          · rfl
          · split <;> rfl
  | array span element ih =>
    rw [visitType]
    split
    · rfl
    · exact congrArg (· + 1) (ih _)
  | fixedArray span element size ih =>
    rw [visitType]
    split
    · rfl
    · exact congrArg (· + 1) (ih _)
  | map span key value ihKey ihValue =>
    rw [visitType]
    split
    · rfl
    · dsimp only
      split
      · rw [Ty.height, Ty.height, ihKey, ihValue]
      · rw [Ty.height, Ty.height, ihKey]

variable (result) in
def Shallow : Prop :=
  ∀ ref d, result.def? ref = some d → ∀ x ∈ d.body.referredTypes, x.2.height < maxTypeDepth

theorem Shallow.resolved (h : result.Shallow) : result.resolved.Shallow := by
  intro ref d hd x hx
  unfold ParseResult.resolved at hd
  rw [def?_relink] at hd
  obtain ⟨old, hold, rfl⟩ := Option.map_eq_some_iff.mp hd
  rw [Def.body_relink, Body.referredTypes_relink] at hx
  obtain ⟨y, hy, rfl⟩ := List.mem_map.mp hx
  refine Eq.trans_lt ?_ (h ref old hold y hy)
  exact height_visitType _ _ _ _

theorem getDeps_isSome {d : Def} (h : ∀ x ∈ d.body.referredTypes, x.2.height < maxTypeDepth) :
    (result.getDeps d).isSome := by
  have htype {role : Role} {type : Ty} (hmem : (role, type) ∈ d.body.referredTypes) (deps : List Text) :
      (result.collectTypeDeps 0 type deps).isSome := by
    rw [collectTypeDeps_eq, Nat.zero_add, if_pos (h _ hmem)]
    rfl
  unfold getDeps
  rw [Option.isSome_map]
  unfold collectBodyDeps
  cases hbody : d.body with
  | enum baseType members => rfl
  | const constType value => rfl
  | decorator => rfl
  | struct isMutable fields =>
    rw [hbody] at htype
    refine Loops.foldlM_isSome (fun deps field hfield => ?_) []
    exact @htype .field _ (List.mem_map.mpr ⟨field, hfield, rfl⟩) deps
  | message fields =>
    rw [hbody] at htype
    refine Loops.foldlM_isSome (fun deps field hfield => ?_) []
    exact @htype .field _ (List.mem_map.mpr ⟨field, hfield, rfl⟩) deps
  | union branches =>
    rw [hbody] at htype
    refine Loops.foldlM_isSome (fun deps branch hbranch => ?_) []
    unfold collectBranchDeps
    dsimp only
    cases href : branch.typeRef with
    | none => rfl
    | some type =>
      refine @htype .branch _ (List.mem_flatMap.mpr ⟨branch, hbranch, ?_⟩) _
      rw [href]
      exact List.mem_singleton_self _
  | service methods mixins =>
    rw [hbody] at htype
    have hmethods (deps : List Text) : (methods.foldlM (fun deps method =>
        (result.collectTypeDeps 0 method.requestType deps).bind
          (result.collectTypeDeps 0 method.responseType)) deps).isSome := by
      refine Loops.foldlM_isSome (fun deps method hmethod => ?_) deps
      have hmem (x : Role × Ty) (hx : x ∈ [(Role.method, method.requestType), (.method, method.responseType)]) :
          x ∈ (Body.service methods mixins).referredTypes :=
        List.mem_append_left _ (List.mem_flatMap.mpr ⟨method, hmethod, hx⟩)
      obtain ⟨next, hnext⟩ := Option.isSome_iff_exists.mp (htype (hmem _ (List.mem_pair.mpr (.inl rfl))) deps)
      rw [hnext]
      exact htype (hmem _ (List.mem_pair.mpr (.inr rfl))) next
    obtain ⟨next, hnext⟩ := Option.isSome_iff_exists.mp (hmethods [])
    dsimp only
    rw [hnext]
    refine Loops.foldlM_isSome (fun deps mixin hmixin => ?_) next
    exact @htype .mixin _ (List.mem_append_right _ (List.mem_map.mpr ⟨mixin, hmixin, rfl⟩)) deps

theorem Shallow.toposort_ne_failed (h : result.Shallow) : result.toposort ≠ .failed := by
  obtain ⟨edges, hedges⟩ : ∃ edges, result.dependencyEdges = some edges := by
    refine Option.isSome_iff_exists.mp ?_
    unfold dependencyEdges
    rw [Option.isSome_map, Loops.mapM_isSome]
    rintro ⟨i, ref⟩ hmem
    obtain ⟨k, hk, heq⟩ := List.mem_mapIdx.mp hmem
    cases heq
    obtain ⟨d, hd⟩ := mem_registered.mp (List.getElem_mem hk)
    dsimp only
    rw [hd, Option.bind_some, Option.isSome_map]
    exact getDeps_isSome (h _ d hd)
  exact toposort_of_edges hedges

/-- The validation does not fail for a depth, and leaves no part of a type out. -/
structure DepthHandled (result : ParseResult) (checks : DecoratorChecks) : Prop where
  notFatal : totalDefs (result.logged []) ≠ none → result.validate checks ≠ some .fatal
  walked : ∀ ref d, result.def? ref = some d → ∀ x ∈ d.body.referredTypes, x.2.Walked

/-- The depth of the types is handled if none has 64 levels above its innermost. -/
theorem depthHandled_iff (result : ParseResult) (checks : DecoratorChecks) :
    result.DepthHandled checks ↔ result.Shallow := by
  constructor
  · intro h ref d hd x hx
    exact walked_iff.mp (h.walked ref d hd x hx)
  · intro h
    refine ⟨fun hcount hfatal => ?_, fun ref d hd x hx => walked_iff.mpr (h ref d hd x hx)⟩
    unfold validate at hfatal
    split at hfatal
    · rename_i hnone
      exact hcount hnone
    · cases hfatal
    · obtain ⟨reports, -, hstatus⟩ := Option.map_eq_some_iff.mp hfatal
      rw [if_neg h.resolved.toposort_ne_failed] at hstatus
      rcases finalStatus_cases (result.logged reports) with ⟨herror, -⟩ | ⟨hok | hwarned, -⟩
      · exact absurd (hstatus.symm.trans herror) nofun
      · exact absurd (hstatus.symm.trans hok) nofun
      · exact absurd (hstatus.symm.trans hwarned) nofun

end ParseResult

/-! ## A type that is too deep -/

namespace Sample

def tokenOf (kind : TokenKind) (lexeme : List Char) : Token := ⟨kind, nowhere, lexeme.map Char.toUInt8, [], []⟩

/-- `struct S { f: int32[]…[]; }` -/
def deepTokens (levels : Nat) : List Token :=
  [tokenOf .struct "struct".toList, tokenOf .identifier ['S'], tokenOf .lbrace [], tokenOf .identifier ['f'],
    tokenOf .colon [':'], tokenOf .identifier "int32".toList] ++
  (List.replicate levels [tokenOf .lbracket ['['], tokenOf .rbracket [']']]).flatten ++
  [tokenOf .semicolon [';'], tokenOf .rbrace [], tokenOf .eof []]

def deepArray : Nat → Ty
  | 0 => .scalar nowhere .int32
  | levels + 1 => .array nowhere (deepArray levels)

def deepStruct (levels : Nat) : Def :=
  ⟨['S'], nowhere, [], .visDefault, [], .struct false [⟨['f'], nowhere, [], deepArray levels, 0⟩]⟩

def deepResult (levels : Nat) (parsed : (placesFrom 0 [deepStruct levels]).all fun path =>
    (definitionAt [deepStruct levels] path).all Def.isParsed) : ParseResult :=
  ⟨[.ofDefinitions none [] [deepStruct levels] parsed]⟩

end Sample

open Sample

/-- The parser accepts 64 arrays in one another, and `bebop_validate` fails. -/
theorem deep_array_fatal :
    (parseTokensInto hostOfA (deepTokens 64)).map
          (fun p => (p.reports, p.definitions.map Def.name, p.definitions.map Def.body)) =
        .ok ([], [['S']], [(deepStruct 64).body]) ∧
      (deepResult 64 (by decide)).validate (fun _ => []) = some .fatal ∧
      ¬(deepResult 64 (by decide)).DepthHandled fun _ => [] := by
  have hfatal : (deepResult 64 (by decide)).validate (fun _ => []) = some .fatal := by decide
  refine ⟨by decide +kernel, hfatal, fun h => ?_⟩
  exact h.notFatal (by decide) hfatal

end Bebop.Compiler
