import Bebop.Compiler.Descriptor
import Bebop.Compiler.DescriptorComments
import Bebop.Compiler.Register

/-!
# Bebop — the locations of a descriptor

`_desc_build_source_code_info` of `bebop_descriptor.c`: a location for each definition
and for each of its members. A path is followed through a `SchemaDescriptor` by
`followPath`, with the tags of `DESCRIPTOR.md`, which has none for the definitions nested
in a definition (`nestedTag`). The builder writes the tag of the definitions of a schema
there too, and has no room for the path of a member two definitions deep.
-/

namespace Bebop.Compiler

/-! ## The members that have locations -/

/-- The tag of the list of members in the descriptor of a body. -/
def Body.memberTag : Body → Nat
  | .enum _ _ => 2
  | _ => 1

/-- The spans of the fields, members, branches or methods of a body. -/
def Body.memberSpans : Body → List Span
  | .struct _ fields => fields.map Field.span
  | .message fields => fields.map Field.span
  | .enum _ members => members.map EnumMember.span
  | .union branches => branches.map Branch.span
  | .service methods _ => methods.map Method.span
  | .const _ _ => []
  | .decorator => []

mutual

/-- A round of the loop of `_desc_count_locations`. -/
def Def.countLocations : Def → Nat
  | ⟨_, _, _, _, nestedDefs, body⟩ => 1 + body.memberSpans.length + Compiler.countLocations nestedDefs

/-- `_desc_count_locations` -/
def countLocations : List Def → Nat
  | [] => 0
  | d :: ds => d.countLocations + countLocations ds

end

/-! ## `_desc_build_locations` -/

/-- `Location` -/
structure Location where
  path : Option (List Nat)
  span : List Nat
  leadingComments : Option (List UInt8)
  trailingComments : Option (List UInt8)
  detachedComments : Option (List (List UInt8))
  deriving DecidableEq, Repr

/-- `_desc_set_span` -/
def setSpan (span : Span) : List Nat := [span.startLine, span.startCol, span.endLine, span.endCol]

/-- The loop of `_desc_find_token_at`, with the token before. -/
def findTokenFrom (off : Nat) : Option Token → List Token → Option Token
  | before, [] => before
  | before, tok :: tokens =>
    if tok.span.off = off then some tok
    else if tok.span.off > off then some (before.getD tok)
    else findTokenFrom off (some tok) tokens

/-- `_desc_find_token_at` -/
def findTokenAt (tokens : List Token) (off : Nat) : Option Token := findTokenFrom off none tokens

/-- `_desc_extract_trailing` -/
def extractTrailing (source : List UInt8) (tok : Token) : List UInt8 :=
  match tok.trailing.find? fun t => t.kind = .lineComment || t.kind = .blockComment with
  | none => []
  | some t => extractComment source t

/-- A location, and the comments that `_desc_set_comments` finds for it. -/
def locate (source : List UInt8) (tokens : List Token) (path : Option (List Nat)) (span : Span) : Location :=
  match findTokenAt tokens span.off with
  | none => ⟨path, setSpan span, none, none, none⟩
  | some tok =>
    let (leading, detached) := extractComments source (some tok)
    let trailing := extractTrailing source tok
    { path := path
      span := setSpan span
      leadingComments := if leading = [] then none else some leading
      trailingComments := if trailing = [] then none else some trailing
      detachedComments := if detached = [] then none else some detached }

/-- The path of a member: there is room for six numbers, and no path beyond. -/
def memberPath (path : List Nat) (tag i : Nat) : Option (List Nat) :=
  if path.length ≤ 4 then some (path ++ [tag, i]) else none

section Build

variable (source : List UInt8) (tokens : List Token)

/-- The `switch` of `_desc_build_locations`, over the kind of a definition. -/
def locateMembers (path : List Nat) (body : Body) : List Location :=
  body.memberSpans.mapIdx fun i span => locate source tokens (memberPath path body.memberTag i) span

mutual

/-- A round of the loop of `_desc_build_locations`. -/
def locateDef (parentPath : List Nat) (defIdx : Nat) : Def → List Location
  | ⟨_, span, _, _, nestedDefs, body⟩ =>
    let path := parentPath ++ [5, defIdx]
    locate source tokens (some path) span ::
      (locateMembers source tokens path body ++ buildLocations path 0 nestedDefs)

/-- `_desc_build_locations`, from the definition with this index on. -/
def buildLocations (parentPath : List Nat) (defIdx : Nat) : List Def → List Location
  | [] => []
  | d :: ds => locateDef parentPath defIdx d ++ buildLocations parentPath (defIdx + 1) ds

end

/-- `_desc_build_source_code_info` -/
def buildSourceCodeInfo (definitions : List Def) : Option (List Location) :=
  if countLocations definitions = 0 then none else some (buildLocations source tokens [] 0 definitions)

end Build

/-! ## What a path leads to -/

/-- A definition, or a member of it, by the indices on the way to it. -/
structure Element where
  definition : List Nat
  member : Option Nat
  deriving DecidableEq, Repr

def Element.under (i : Nat) (element : Element) : Element := ⟨i :: element.definition, element.member⟩

def BodyDescriptor.countUnder : BodyDescriptor → Nat → Nat
  | .structDef _ fields, 1 => fields.length
  | .messageDef fields, 1 => fields.length
  | .unionDef branches, 1 => branches.length
  | .serviceDef methods, 1 => methods.length
  | .enumDef _ _ members, 2 => members.length
  | _, _ => 0

/-- The member of a body that a tag and the rest of a path lead to. -/
def BodyDescriptor.memberUnder (body : BodyDescriptor) (tag : Nat) : List Nat → Option Nat
  | [j] => if j < body.countUnder tag then some j else none
  | _ => none

/-- Follow a path from a list of definitions, with the tag for those that are nested. -/
def followFrom (nestedTag : Nat) : List DefinitionDescriptor → List Nat → Option Element
  | _, [] => none
  | defs, [i] => defs[i]?.map fun _ => ⟨[i], none⟩
  | defs, i :: tag :: path =>
    defs[i]?.bind fun d =>
      match d.body.memberUnder tag path with
      | some j => some ⟨[i], some j⟩
      | none => if tag = nestedTag then (followFrom nestedTag d.nested path).map (Element.under i) else none

def followPath (nestedTag : Nat) (set : SchemaDescriptor) : List Nat → Option Element
  | 5 :: path => followFrom nestedTag set.definitions path
  | _ => none

def spanAt (definitions : List Def) (element : Element) : Option Span :=
  (definitionAt definitions element.definition).bind fun d =>
    match element.member with
    | none => some d.span
    | some j => d.body.memberSpans[j]?

/-- As many as counted, each with a path to its element, and no two the same. -/
structure LocationsAddress (nestedTag : Nat) (fqnOf : DefRef → Option Text) (schema : Schema)
    (locations : List Location) : Prop where
  counted : locations.length = countLocations schema.definitions
  addressed : ∀ loc ∈ locations, ∃ path element, loc.path = some path ∧
    followPath nestedTag (buildSchema fqnOf schema) path = some element ∧
    (spanAt schema.definitions element).map setSpan = some loc.span
  distinct : (locations.map Location.path).Nodup

/-- Nothing is nested, or, with a tag for it, nothing two deep has members. -/
def WithinPaths (nestedTag : Nat) (definitions : List Def) : Prop :=
  (∀ d ∈ definitions, d.nestedDefs = []) ∨
    (nestedTag = 5 ∧ ∀ place d, definitionAt definitions place = some d → 3 ≤ place.length → d.body.memberSpans = [])

/-! ## The locations that are built -/

section Build

variable {source : List UInt8} {tokens : List Token}

theorem Def.countLocations_eq (d : Def) :
    d.countLocations = 1 + d.body.memberSpans.length + Compiler.countLocations d.nestedDefs := by
  cases d
  rw [Def.countLocations]

theorem locateDef_eq (parentPath : List Nat) (i : Nat) (d : Def) :
    locateDef source tokens parentPath i d =
      locate source tokens (some (parentPath ++ [5, i])) d.span ::
        (locateMembers source tokens (parentPath ++ [5, i]) d.body ++
          buildLocations source tokens (parentPath ++ [5, i]) 0 d.nestedDefs) := by
  cases d
  rw [locateDef]

@[simp] theorem path_locate (path : Option (List Nat)) (span : Span) :
    (locate source tokens path span).path = path := by
  unfold locate
  split <;> rfl

@[simp] theorem span_locate (path : Option (List Nat)) (span : Span) :
    (locate source tokens path span).span = setSpan span := by
  unfold locate
  split <;> rfl

@[simp] theorem length_locateMembers (path : List Nat) (body : Body) :
    (locateMembers source tokens path body).length = body.memberSpans.length := List.length_mapIdx

mutual

theorem length_locateDef (parentPath : List Nat) (i : Nat) (d : Def) :
    (locateDef source tokens parentPath i d).length = d.countLocations := by
  match d with
  | ⟨name, span, decorators, visibility, nestedDefs, body⟩ =>
    rw [locateDef_eq, List.length_cons, List.length_append, length_locateMembers, Def.countLocations_eq,
      length_buildLocations _ 0 nestedDefs]
    dsimp only
    omega

theorem length_buildLocations (parentPath : List Nat) (i : Nat) (defs : List Def) :
    (buildLocations source tokens parentPath i defs).length = countLocations defs := by
  match defs with
  | [] => rfl
  | d :: ds =>
    rw [buildLocations, countLocations, List.length_append, length_locateDef parentPath i d,
      length_buildLocations parentPath (i + 1) ds]

end

theorem getD_buildSourceCodeInfo (definitions : List Def) :
    (buildSourceCodeInfo source tokens definitions).getD [] = buildLocations source tokens [] 0 definitions := by
  unfold buildSourceCodeInfo
  split
  · rename_i hnone
    rw [← @length_buildLocations source tokens [] 0 definitions] at hnone
    exact (List.eq_nil_of_length_eq_zero hnone).symm
  · rfl

def writtenPath (place : List Nat) : List Nat := place.flatMap fun i => [5, i]

@[simp] theorem length_writtenPath (place : List Nat) : (writtenPath place).length = 2 * place.length := by
  induction place with
  | nil => rfl
  | cons i place ih =>
    rw [writtenPath, List.flatMap_cons, List.length_append, List.length_cons]
    rw [writtenPath] at ih
    rw [ih]
    simp only [List.length_cons, List.length_nil]
    omega

theorem writtenPath_cons (i : Nat) (place : List Nat) : writtenPath (i :: place) = 5 :: i :: writtenPath place := rfl

theorem definitionAt_cons {defs : List Def} {i : Nat} {rest : List Nat} {e : Def} :
    definitionAt defs (i :: rest) = some e ↔
      ∃ d, defs[i]? = some d ∧ (rest = [] ∧ e = d ∨ definitionAt d.nestedDefs rest = some e) := by
  cases rest with
  | nil =>
    rw [definitionAt]
    constructor
    · intro he
      exact ⟨e, he, .inl ⟨rfl, rfl⟩⟩
    · rintro ⟨d, hd, ⟨-, rfl⟩ | hnone⟩
      · exact hd
      · cases hnone
  | cons j rest =>
    rw [definitionAt_cons_cons]
    refine exists_congr fun d => and_congr_right fun _ => ?_
    rw [or_iff_right fun h => List.cons_ne_nil _ _ h.1]

variable (source tokens) in
inductive LocatedIn (path : List Nat) (d : Def) : Location → Prop
  | definition : LocatedIn path d (locate source tokens (some path) d.span)
  | member (i : Nat) (span : Span) (h : d.body.memberSpans[i]? = some span) :
    LocatedIn path d (locate source tokens (memberPath path d.body.memberTag i) span)

theorem mem_locateMembers {path : List Nat} {body : Body} {loc : Location} :
    loc ∈ locateMembers source tokens path body ↔ ∃ i span, body.memberSpans[i]? = some span ∧
      loc = locate source tokens (memberPath path body.memberTag i) span := by
  unfold locateMembers
  rw [List.mem_mapIdx]
  constructor
  · rintro ⟨i, hi, rfl⟩
    exact ⟨i, _, List.getElem?_eq_getElem hi, rfl⟩
  · rintro ⟨i, span, hspan, rfl⟩
    obtain ⟨hi, rfl⟩ := List.getElem?_eq_some_iff.mp hspan
    exact ⟨i, hi, rfl⟩

mutual

theorem mem_locateDef (parentPath : List Nat) (i : Nat) (d : Def) (loc : Location) :
    loc ∈ locateDef source tokens parentPath i d ↔
      ∃ rest e, (rest = [] ∧ e = d ∨ definitionAt d.nestedDefs rest = some e) ∧
        LocatedIn source tokens (parentPath ++ writtenPath (i :: rest)) e loc := by
  match d with
  | ⟨name, span, decorators, visibility, nestedDefs, body⟩ =>
    rw [locateDef_eq, List.mem_cons, List.mem_append, mem_locateMembers, mem_buildLocations _ 0 nestedDefs]
    constructor
    · rintro (rfl | ⟨j, span, hspan, rfl⟩ | ⟨k, rest, e, he, hloc⟩)
      · exact ⟨[], _, .inl ⟨rfl, rfl⟩, .definition⟩
      · exact ⟨[], _, .inl ⟨rfl, rfl⟩, .member j span hspan⟩
      · refine ⟨k :: rest, e, .inr he, ?_⟩
        rwa [Nat.zero_add, List.append_assoc] at hloc
    · rintro ⟨rest, e, ⟨rfl, rfl⟩ | he, hloc⟩
      · cases hloc with
        | definition => exact .inl rfl
        | member j span hspan => exact .inr (.inl ⟨j, span, hspan, rfl⟩)
      · cases rest with
        | nil => cases he
        | cons k rest =>
          refine .inr (.inr ⟨k, rest, e, he, ?_⟩)
          rwa [Nat.zero_add, List.append_assoc]

theorem mem_buildLocations (parentPath : List Nat) (i : Nat) (defs : List Def) (loc : Location) :
    loc ∈ buildLocations source tokens parentPath i defs ↔ ∃ k rest e, definitionAt defs (k :: rest) = some e ∧
      LocatedIn source tokens (parentPath ++ writtenPath ((i + k) :: rest)) e loc := by
  match defs with
  | [] =>
    rw [buildLocations]
    refine ⟨nofun, fun ⟨k, rest, e, he, _⟩ => ?_⟩
    obtain ⟨d, hd, -⟩ := definitionAt_cons.mp he
    cases hd
  | d :: ds =>
    rw [buildLocations, List.mem_append, mem_locateDef parentPath i d loc, mem_buildLocations parentPath (i + 1) ds loc]
    constructor
    · rintro (⟨rest, e, he, hloc⟩ | ⟨k, rest, e, he, hloc⟩)
      · exact ⟨0, rest, e, definitionAt_cons.mpr ⟨d, rfl, he⟩, hloc⟩
      · obtain ⟨d', hd', hrest⟩ := definitionAt_cons.mp he
        refine ⟨k + 1, rest, e, definitionAt_cons.mpr ⟨d', hd', hrest⟩, ?_⟩
        rwa [Nat.add_right_comm, Nat.add_assoc] at hloc
    · rintro ⟨k, rest, e, he, hloc⟩
      obtain ⟨d', hd', hrest⟩ := definitionAt_cons.mp he
      cases k with
      | zero =>
        rw [List.getElem?_cons_zero, Option.some.injEq] at hd'
        subst hd'
        exact .inl ⟨rest, e, hrest, hloc⟩
      | succ k =>
        refine .inr ⟨k, rest, e, definitionAt_cons.mpr ⟨d', hd', hrest⟩, ?_⟩
        rwa [Nat.add_right_comm, Nat.add_assoc]

end

theorem LocatedIn.path_eq {path : List Nat} {d : Def} {loc : Location} (h : LocatedIn source tokens path d loc)
    {p : List Nat} (hp : loc.path = some p) :
    p = path ∨ ∃ j, p = path ++ [d.body.memberTag, j] := by
  cases h with
  | definition =>
    rw [path_locate, Option.some.injEq] at hp
    exact .inl hp.symm
  | member j span hspan =>
    rw [path_locate] at hp
    unfold memberPath at hp
    split at hp
    · exact .inr ⟨j, (Option.some.inj hp).symm⟩
    · cases hp

theorem path_of_mem_locateDef {parentPath : List Nat} {i : Nat} {d : Def} {loc : Location}
    (h : loc ∈ locateDef source tokens parentPath i d) {p : List Nat} (hp : loc.path = some p) :
    ∃ more, p = parentPath ++ 5 :: i :: more := by
  obtain ⟨rest, e, -, hloc⟩ := (mem_locateDef parentPath i d loc).mp h
  rw [writtenPath_cons] at hloc
  rcases hloc.path_eq hp with rfl | ⟨j, rfl⟩
  · exact ⟨_, rfl⟩
  · exact ⟨_, by rw [List.append_assoc, List.cons_append, List.cons_append]⟩

theorem path_of_mem_buildLocations {parentPath : List Nat} {i : Nat} {defs : List Def} {loc : Location}
    (h : loc ∈ buildLocations source tokens parentPath i defs) {p : List Nat} (hp : loc.path = some p) :
    ∃ k more, p = parentPath ++ 5 :: (i + k) :: more := by
  obtain ⟨k, rest, e, -, hloc⟩ := (mem_buildLocations parentPath i defs loc).mp h
  rw [writtenPath_cons] at hloc
  rcases hloc.path_eq hp with rfl | ⟨j, rfl⟩
  · exact ⟨k, _, rfl⟩
  · exact ⟨k, _, by rw [List.append_assoc, List.cons_append, List.cons_append]⟩

theorem path_of_mem_locateMembers {path : List Nat} {body : Body} {loc : Location}
    (h : loc ∈ locateMembers source tokens path body) {p : List Nat} (hp : loc.path = some p) :
    ∃ j, p = path ++ [body.memberTag, j] := by
  obtain ⟨j, span, -, rfl⟩ := mem_locateMembers.mp h
  rw [path_locate] at hp
  unfold memberPath at hp
  split at hp
  · exact ⟨j, (Option.some.inj hp).symm⟩
  · cases hp

theorem Body.memberTag_ne (body : Body) : body.memberTag ≠ 5 := by
  unfold Body.memberTag
  split <;> decide

theorem nodup_locateMembers {path : List Nat} (body : Body)
    (hall : ∀ loc ∈ locateMembers source tokens path body, loc.path.isSome) :
    ((locateMembers source tokens path body).map Location.path).Nodup := by
  unfold locateMembers at hall ⊢
  rw [List.nodup_iff_pairwise_ne, List.pairwise_iff_getElem]
  intro i j hi hj hlt heq
  rw [List.length_map] at hi
  have hsome := hall _ (List.getElem_mem hi)
  rw [List.getElem_mapIdx, path_locate] at hsome
  rw [List.getElem_map, List.getElem_map, List.getElem_mapIdx, List.getElem_mapIdx, path_locate, path_locate] at heq
  unfold memberPath at heq hsome
  split at hsome
  · rename_i hroom
    rw [if_pos hroom, if_pos hroom, Option.some.injEq, List.append_cancel_left_eq, List.cons.injEq,
      List.cons.injEq] at heq
    omega
  · cases hsome

mutual

theorem nodup_locateDef (parentPath : List Nat) (i : Nat) (d : Def)
    (hall : ∀ loc ∈ locateDef source tokens parentPath i d, loc.path.isSome) :
    ((locateDef source tokens parentPath i d).map Location.path).Nodup := by
  match d with
  | ⟨name, span, decorators, visibility, nestedDefs, body⟩ =>
    rw [locateDef_eq] at hall ⊢
    dsimp only at hall ⊢
    rw [List.forall_mem_cons, List.forall_mem_append] at hall
    obtain ⟨-, hmembers, hnested⟩ := hall
    rw [List.map_cons, path_locate, List.map_append, List.nodup_cons, List.nodup_append]
    refine ⟨fun hmem => ?_, nodup_locateMembers body hmembers, nodup_buildLocations _ 0 nestedDefs hnested, ?_⟩
    · -- the other paths are longer
      rcases List.mem_append.mp hmem with hmem | hmem
      · obtain ⟨loc, hloc, hp⟩ := List.mem_map.mp hmem
        obtain ⟨j, heq⟩ := path_of_mem_locateMembers hloc hp
        exact List.cons_ne_nil _ _ (List.self_eq_append_right.mp heq)
      · obtain ⟨loc, hloc, hp⟩ := List.mem_map.mp hmem
        obtain ⟨k, more, heq⟩ := path_of_mem_buildLocations hloc hp
        exact List.cons_ne_nil _ _ (List.self_eq_append_right.mp heq)
    · -- a member has another tag than a definition
      rintro a ha b hb rfl
      obtain ⟨loc, hloc, rfl⟩ := List.mem_map.mp ha
      obtain ⟨p, hp⟩ := Option.isSome_iff_exists.mp (hmembers loc hloc)
      obtain ⟨loc', hloc', hp'⟩ := List.mem_map.mp hb
      obtain ⟨j, rfl⟩ := path_of_mem_locateMembers hloc hp
      obtain ⟨k, more, heq⟩ := path_of_mem_buildLocations hloc' (hp'.trans hp)
      exact body.memberTag_ne (List.cons.inj (List.append_cancel_left heq)).1

theorem nodup_buildLocations (parentPath : List Nat) (i : Nat) (defs : List Def)
    (hall : ∀ loc ∈ buildLocations source tokens parentPath i defs, loc.path.isSome) :
    ((buildLocations source tokens parentPath i defs).map Location.path).Nodup := by
  match defs with
  | [] => exact List.nodup_nil
  | d :: ds =>
    rw [buildLocations, List.forall_mem_append] at hall
    rw [buildLocations, List.map_append, List.nodup_append]
    refine ⟨nodup_locateDef parentPath i d hall.1, nodup_buildLocations parentPath (i + 1) ds hall.2, ?_⟩
    rintro a ha b hb rfl
    obtain ⟨loc, hloc, rfl⟩ := List.mem_map.mp ha
    obtain ⟨p, hp⟩ := Option.isSome_iff_exists.mp (hall.1 loc hloc)
    obtain ⟨loc', hloc', hp'⟩ := List.mem_map.mp hb
    obtain ⟨more, rfl⟩ := path_of_mem_locateDef hloc hp
    obtain ⟨k, more', heq⟩ := path_of_mem_buildLocations hloc' (hp'.trans hp)
    have hindex := (List.cons.inj (List.cons.inj (List.append_cancel_left heq)).2).1
    omega

end

end Build

/-! ## The paths followed -/

theorem countUnder_buildBody (fqnOf : DefRef → Option Text) (inlineFqn : Nat → Option Text)
    (decorators : List Decorator) (body : Body) :
    (buildBody fqnOf inlineFqn decorators body).countUnder body.memberTag = body.memberSpans.length := by
  cases body <;> simp [buildBody, buildFields, BodyDescriptor.countUnder, Body.memberTag, Body.memberSpans]

theorem memberUnder_definitions (body : BodyDescriptor) (path : List Nat) : body.memberUnder 5 path = none := by
  unfold BodyDescriptor.memberUnder
  split
  · cases body <;> rfl
  · rfl

section Follow

variable {nestedTag : Nat} (fqnOf : DefRef → Option Text)

theorem followFrom_written (scope : Option Text) {defs : List Def} {i : Nat} {rest : List Nat} {d : Def}
    (hd : definitionAt defs (i :: rest) = some d) (htag : rest = [] ∨ nestedTag = 5) :
    followFrom nestedTag (buildDefs fqnOf scope defs) (i :: writtenPath rest) = some ⟨i :: rest, none⟩ ∧
    ∀ j < d.body.memberSpans.length,
      followFrom nestedTag (buildDefs fqnOf scope defs) (i :: (writtenPath rest ++ [d.body.memberTag, j])) =
        some ⟨i :: rest, some j⟩ := by
  induction rest generalizing scope defs i with
  | nil =>
    rw [definitionAt] at hd
    have hbuilt : (buildDefs fqnOf scope defs)[i]? = some (buildDef fqnOf scope d) := by
      rw [getElem?_buildDefs, hd, Option.map_some]
    refine ⟨?_, fun j hj => ?_⟩
    · rw [writtenPath, List.flatMap_nil, followFrom, hbuilt, Option.map_some]
    · have hmember : (buildDef fqnOf scope d).body.memberUnder d.body.memberTag [j] = some j := by
        rw [buildDef_eq, BodyDescriptor.memberUnder, countUnder_buildBody, if_pos hj]
      rw [writtenPath, List.flatMap_nil, List.nil_append, followFrom, hbuilt, Option.bind_some, hmember]
  | cons k rest ih =>
    obtain rfl : nestedTag = 5 := htag.resolve_left (List.cons_ne_nil _ _)
    obtain ⟨parent, hparent, hnested⟩ := definitionAt_cons_cons.mp hd
    have hbuilt : (buildDefs fqnOf scope defs)[i]? = some (buildDef fqnOf scope parent) := by
      rw [getElem?_buildDefs, hparent, Option.map_some]
    obtain ⟨hdef, hmembers⟩ := ih (some (joinDotted scope parent.name)) hnested (.inr rfl)
    have hon (path : List Nat) (element : Element)
        (h : followFrom 5 (buildDefs fqnOf (some (joinDotted scope parent.name)) parent.nestedDefs) path =
          some element) :
        followFrom 5 (buildDefs fqnOf scope defs) (i :: 5 :: path) = some (element.under i) := by
      rw [followFrom, hbuilt, Option.bind_some, memberUnder_definitions]
      dsimp only
      rw [if_pos rfl, buildDef_eq, h, Option.map_some]
    refine ⟨hon _ _ hdef, fun j hj => hon _ _ (hmembers j hj)⟩

theorem followFrom_nested (htag : nestedTag ≠ 5) (defs : List DefinitionDescriptor) (i : Nat) (path : List Nat) :
    followFrom nestedTag defs (i :: 5 :: path) = none := by
  rw [followFrom]
  cases defs[i]? with
  | none => rfl
  | some d =>
    rw [Option.bind_some, memberUnder_definitions]
    exact if_neg htag.symm

end Follow

/-! ## Where the locations are those of their elements -/

section Located

variable {nestedTag : Nat} {fqnOf : DefRef → Option Text} {schema : Schema} {source : List UInt8} {tokens : List Token}

theorem eq_nil_of_flat {defs : List Def} (hflat : ∀ d ∈ defs, d.nestedDefs = []) {k : Nat} {rest : List Nat} {e : Def}
    (he : definitionAt defs (k :: rest) = some e) : rest = [] := by
  obtain ⟨d, hd, ⟨hrest, -⟩ | hnested⟩ := definitionAt_cons.mp he
  · exact hrest
  · rw [hflat d (List.mem_of_getElem? hd)] at hnested
    cases rest with
    | nil => rfl
    | cons j rest =>
      obtain ⟨d', hd', -⟩ := definitionAt_cons.mp hnested
      cases hd'

variable (fqnOf) in
theorem WithinPaths.addressed (h : WithinPaths nestedTag schema.definitions) {loc : Location}
    (hloc : loc ∈ buildLocations source tokens [] 0 schema.definitions) :
    ∃ path element, loc.path = some path ∧ followPath nestedTag (buildSchema fqnOf schema) path = some element ∧
      (spanAt schema.definitions element).map setSpan = some loc.span := by
  obtain ⟨k, rest, e, he, hin⟩ := (mem_buildLocations [] 0 schema.definitions loc).mp hloc
  rw [Nat.zero_add, List.nil_append] at hin
  have htag : rest = [] ∨ nestedTag = 5 := h.imp (fun hflat => eq_nil_of_flat hflat he) And.left
  obtain ⟨hdef, hmembers⟩ := followFrom_written fqnOf schema.package he htag
  cases hin with
  | definition =>
    refine ⟨_, _, path_locate _ _, hdef, ?_⟩
    rw [span_locate, spanAt, he, Option.bind_some, Option.map_some]
  | member j span hspan =>
    have hroom : (writtenPath (k :: rest)).length ≤ 4 := by
      rw [length_writtenPath]
      rcases h with hflat | ⟨-, hshallow⟩
      · rw [eq_nil_of_flat hflat he, List.length_singleton]
        omega
      · by_contra hlong
        rw [hshallow _ e he (by omega)] at hspan
        cases hspan
    refine ⟨_, _, (path_locate _ _).trans (if_pos hroom), hmembers j (List.getElem?_eq_some_iff.mp hspan).1, ?_⟩
    rw [span_locate, spanAt, he, Option.bind_some]
    dsimp only
    rw [hspan, Option.map_some]

theorem LocationsAddress.within
    (h : LocationsAddress nestedTag fqnOf schema (buildLocations source tokens [] 0 schema.definitions)) :
    WithinPaths nestedTag schema.definitions := by
  have hwritten {k : Nat} {rest : List Nat} {e : Def} (he : definitionAt schema.definitions (k :: rest) = some e)
      {loc : Location} (hin : LocatedIn source tokens (writtenPath (k :: rest)) e loc) :
      loc ∈ buildLocations source tokens [] 0 schema.definitions := by
    refine (mem_buildLocations [] 0 schema.definitions loc).mpr ⟨k, rest, e, he, ?_⟩
    rwa [Nat.zero_add, List.nil_append]
  by_cases htag : nestedTag = 5
  · refine .inr ⟨htag, fun place d hd hdeep => List.eq_nil_iff_forall_not_mem.mpr fun span hspan => ?_⟩
    obtain ⟨j, hj⟩ := List.mem_iff_getElem?.mp hspan
    cases place with
    | nil => cases hd
    | cons k rest =>
      obtain ⟨path, -, hpath, -, -⟩ := h.addressed _ (hwritten hd (.member j span hj))
      have hroom : ¬(writtenPath (k :: rest)).length ≤ 4 := by
        rw [length_writtenPath]
        omega
      rw [path_locate, memberPath, if_neg hroom] at hpath
      cases hpath
  · refine .inl fun d hd => ?_
    obtain ⟨i, hi⟩ := List.mem_iff_getElem?.mp hd
    cases hnested : d.nestedDefs with
    | nil => rfl
    | cons e es =>
      have he : definitionAt schema.definitions [i, 0] = some e := by
        rw [definitionAt_cons_cons]
        exact ⟨d, hi, by rw [hnested, definitionAt, List.getElem?_cons_zero]⟩
      obtain ⟨path, element, hpath, hfollow, -⟩ := h.addressed _ (hwritten he .definition)
      rw [path_locate, Option.some.injEq] at hpath
      subst hpath
      rw [writtenPath_cons, writtenPath_cons, followPath, followFrom_nested htag] at hfollow
      cases hfollow

end Located

/-- The locations of a schema are those of its elements exactly if nothing is nested in its
definitions; with a tag for nested ones, if nothing with members is two definitions deep. -/
theorem locationsAddress_iff (nestedTag : Nat) (fqnOf : DefRef → Option Text) (schema : Schema) (source : List UInt8)
    (tokens : List Token) :
    LocationsAddress nestedTag fqnOf schema ((buildSourceCodeInfo source tokens schema.definitions).getD []) ↔
      WithinPaths nestedTag schema.definitions := by
  rw [getD_buildSourceCodeInfo]
  refine ⟨LocationsAddress.within, fun h => ⟨length_buildLocations [] 0 _, ?_, ?_⟩⟩
  · intro loc hloc
    exact h.addressed fqnOf hloc
  · refine nodup_buildLocations [] 0 _ fun loc hloc => ?_
    obtain ⟨path, element, hpath, -⟩ := h.addressed fqnOf hloc
    exact Option.isSome_of_eq_some hpath

/-! ## A member three definitions deep -/

namespace Sample

/-- `struct A { struct B { struct C { f: int32; } } }` -/
def threeDeep : ParseResult where
  schemas := [.ofDefinitions none [] [scope ['A'] [scope ['B'] [⟨['C'], nowhere, [], .visDefault, [],
    .struct false [⟨['f'], nowhere, [], .scalar nowhere .int32, 0⟩]⟩]]] (by decide)]

end Sample

/-- The location of the field has no path, whatever tag the nested definitions have. -/
theorem member_without_path :
    Sample.threeDeep.Accepted (fun _ => []) ∧
      ¬∃ schema ∈ Sample.threeDeep.resolved.schemas, ∃ nestedTag fqnOf source tokens,
        LocationsAddress nestedTag fqnOf schema ((buildSourceCodeInfo source tokens schema.definitions).getD []) := by
  refine ⟨by decide, ?_⟩
  rintro ⟨schema, hschema, nestedTag, fqnOf, source, tokens, h⟩
  rw [getD_buildSourceCodeInfo] at h
  have hnested : ∀ schema ∈ Sample.threeDeep.resolved.schemas, ¬∀ d ∈ schema.definitions, d.nestedDefs.length = 0 := by
    decide
  have hmember : ∀ schema ∈ Sample.threeDeep.resolved.schemas,
      (definitionAt schema.definitions [0, 0, 0]).map (fun d => d.body.memberSpans.length) = some 1 := by decide
  rcases h.within with hflat | ⟨-, hshallow⟩
  · refine hnested schema hschema fun d hd => ?_
    rw [hflat d hd, List.length_nil]
  · obtain ⟨d, hd, hlength⟩ := Option.map_eq_some_iff.mp (hmember schema hschema)
    rw [hshallow [0, 0, 0] d hd (Nat.le_refl 3), List.length_nil] at hlength
    cases hlength

end Bebop.Compiler
