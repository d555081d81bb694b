import Bebop.Compiler.Resolve
import Bebop.Lib.Kahn

/-!
# Bebop — the order of the definitions

`bebop__validate_toposort` of `bebop_validate.c`. The definitions a definition depends on
are collected as names: fully qualified ones, but the short name of an inline branch. They
are looked up in one table that has both names of all definitions.
-/

namespace Bebop.Compiler

namespace ParseResult

variable (result : ParseResult)

/-- What the two entries of a definition are filed under. -/
def tableEntries (i : Nat) (ref : DefRef) : List (Text × Nat) :=
  match result.def? ref, result.fqn ref with
  | some d, some fqn => if fqn = d.name then [(d.name, i)] else [(d.name, i), (fqn, i)]
  | _, _ => []

/-- `name_to_idx` -/
def nameToIdx : OrderedMap Text Nat := .ofFirst (result.registered.mapIdx result.tableEntries).flatten

/-- `bebop__validate_find_def_index`, where a negative index counts as none. -/
def findDefIndex (name : Text) : Option Nat := (result.nameToIdx.lookup name).filter fun i => i < 2 ^ 31

/-! ## `bebop__validate_get_deps` -/

def addDep (deps : List Text) (name : Text) : List Text := if name ∈ deps then deps else deps ++ [name]

/-- The name by which a pointer's definition is looked up again. -/
def addResolved (deps : List Text) (resolved : Option DefRef) : List Text :=
  match resolved.bind result.fqn with
  | none => deps
  | some fqn => addDep deps fqn

/-- `bebop__validate_collect_type_deps`; a type that is too deep fails. -/
def collectTypeDeps : Nat → Ty → List Text → Option (List Text)
  | depth, type, deps =>
    if depth ≥ maxTypeDepth then none
    else
      match type with
      | .scalar _ _ => some deps
      | .array _ element => collectTypeDeps (depth + 1) element deps
      | .fixedArray _ element _ => collectTypeDeps (depth + 1) element deps
      | .map _ key value => (collectTypeDeps (depth + 1) key deps).bind (collectTypeDeps (depth + 1) value)
      | .defined _ _ resolved => some (result.addResolved deps resolved)

/-- A branch: the short name of its inline definition, and its type. -/
def collectBranchDeps (d : Def) (deps : List Text) (branch : Branch) : Option (List Text) :=
  let deps :=
    match branch.inlineDef.bind (d.nestedDefs[·]?) with
    | none => deps
    | some inlineDef => deps ++ [inlineDef.name]
  match branch.typeRef with
  | none => some deps
  | some type => result.collectTypeDeps 0 type deps

/-- The first half of `bebop__validate_get_deps`. -/
def collectBodyDeps (d : Def) : Option (List Text) :=
  match d.body with
  | .struct _ fields => fields.foldlM (fun deps field => result.collectTypeDeps 0 field.type deps) []
  | .message fields => fields.foldlM (fun deps field => result.collectTypeDeps 0 field.type deps) []
  | .union branches => branches.foldlM (result.collectBranchDeps d) []
  | .service methods mixins =>
    (methods.foldlM (fun deps method =>
        (result.collectTypeDeps 0 method.requestType deps).bind (result.collectTypeDeps 0 method.responseType))
      []).bind fun deps => mixins.foldlM (fun deps mixin => result.collectTypeDeps 0 mixin deps) deps
  | .enum _ _ => some []
  | .const _ _ => some []
  | .decorator => some []

/-- `bebop__validate_get_deps` -/
def getDeps (d : Def) : Option (List Text) :=
  (result.collectBodyDeps d).map fun deps =>
    d.decoratorChains.flatten.foldl (fun deps decorator => result.addResolved deps decorator.resolved) deps

/-! ## `bebop__validate_toposort` -/

/-- `bebop__validate_is_message_branch_of` -/
def isMessageBranchOf (ref dep : DefRef) : Bool :=
  match result.def? ref, result.def? dep with
  | some d, some union =>
    match union.body with
    | .union branches =>
      d.kind = .message &&
        ((ref.schema = dep.schema && ref.path.dropLast = dep.path) ||
          branches.any fun branch =>
            match branch.typeRef with
            | some (.defined _ _ resolved) => resolved = some ref
            | _ => false)
    | _ => false
  | _, _ => false

/-- The dependencies that are left out: those of a message or a union on itself,
and those between a union and the messages that are its branches. -/
def isExempt (ref dep : DefRef) : Bool :=
  (ref = dep && ((result.def? ref).any fun d => d.kind = .message || d.kind = .union)) ||
    result.isMessageBranchOf ref dep || result.isMessageBranchOf dep ref

/-- The edges that one definition's names make, to its index. -/
def edgesOf (i : Nat) (ref : DefRef) (deps : List Text) : List (Nat × Nat) :=
  deps.filterMap fun name =>
    (result.findDefIndex name).bind fun k =>
      result.registered[k]?.bind fun dep => if result.isExempt ref dep then none else some (k, i)

/-- All edges, unless the names of a definition cannot be collected. -/
def dependencyEdges : Option (List (Nat × Nat)) :=
  ((result.registered.mapIdx fun i ref => (i, ref)).mapM fun (i, ref) =>
    (result.def? ref).bind fun d => (result.getDeps d).map (result.edgesOf i ref)).map List.flatten

/-- What the search for a cycle knows of a definition. -/
inductive Mark
  | unseen
  | onPath
  | done
  deriving DecidableEq, Repr

/-- The loop of `bebop__validate_find_cycle_path`: the path to a definition that is
on it already. A round marks the last definition of the stack as done or puts
another one on it. -/
def findCycle (next : Nat → List Nat) : Nat → (Nat → Mark) → List Nat → List Nat → Option (List Nat × Nat)
  | 0, _, _, _ => none
  | _ + 1, _, _, [] => none
  | rounds + 1, visited, path, i :: stack =>
    let path := if visited i = .unseen then path ++ [i] else path
    let visited := if visited i = .unseen then Function.update visited i .onPath else visited
    match (next i).find? fun j => visited j ≠ .done with
    | none => findCycle next rounds (Function.update visited i .done) path.dropLast stack
    | some j =>
      if visited j = .onPath then some (path, j) else findCycle next rounds visited path (j :: i :: stack)

/-- `bebop__validate_find_cycle_path` -/
def findCyclePath (edges : List (Nat × Nat)) (start : Nat) : Text :=
  let nameOf (i : Nat) : Text := ((result.registered[i]?.bind result.def?).map Def.name).getD []
  match findCycle (Kahn.successors edges) (2 * result.registered.length + 1) (fun _ => .unseen) [] [start] with
  | none => nameOf start
  | some (path, i) => " -> ".toList.intercalate ((path.dropWhile (· ≠ i) ++ [i]).map nameOf)

/-- What the sort comes to: an order, an error at a definition, or a failure. -/
inductive Sorting
  | sorted (order : List DefRef)
  | cyclic (on : DefRef) (path : Text)
  | failed
  deriving DecidableEq, Repr

/-- `bebop__validate_toposort` -/
def toposort : Sorting :=
  match result.dependencyEdges with
  | none => .failed
  | some edges =>
    let n := result.registered.length
    let final := Kahn.sort n edges
    if final.sorted.length = n then .sorted (final.sorted.filterMap (result.registered[·]?))
    else
      match (List.range n).find? fun i => final.deg i > 0 with
      -- never: an edge is left into some definition that was not sorted
      | none => .failed
      | some i =>
        match result.registered[i]? with
        | none => .failed
        | some ref => .cyclic ref (result.findCyclePath edges i)

end ParseResult

end Bebop.Compiler
