import Bebop.Compiler.Toposort
import Bebop.Lib.Loops

/-!
# Bebop — the names that the sort collects

What is in the list of names that is made for a definition, whatever the order in
which its fields, branches and decorators add to it, and the edges that come of
the names.
-/

namespace Bebop.Compiler

namespace ParseResult

variable {result : ParseResult}

/-! ## The names that are collected -/

theorem mem_addDep {deps : List Text} {added name : Text} : name ∈ addDep deps added ↔ name ∈ deps ∨ name = added := by
  unfold addDep
  split
  · rename_i hmem
    exact ⟨.inl, fun h => h.elim id fun heq => heq ▸ hmem⟩
  · rw [List.mem_append, List.mem_singleton]

theorem mem_addResolved {deps : List Text} {resolved : Option DefRef} {name : Text} :
    name ∈ result.addResolved deps resolved ↔ name ∈ deps ∨ resolved.bind result.fqn = some name := by
  unfold addResolved
  cases resolved.bind result.fqn with
  | none => exact ⟨.inl, fun h => h.elim id nofun⟩
  | some fqn =>
    rw [mem_addDep, Option.some.injEq]
    exact or_congr_right eq_comm

variable (result) in
/-- A type has a pointer to a definition of the name. -/
def Points (type : Ty) (name : Text) : Prop := ∃ r ∈ type.references, r.2.bind result.fqn = some name

theorem mem_collectTypeDeps {depth : Nat} {type : Ty} {deps out : List Text}
    (h : result.collectTypeDeps depth type deps = some out) (name : Text) :
    name ∈ out ↔ name ∈ deps ∨ result.Points type name := by
  induction type generalizing depth deps out with
  | scalar span scalar =>
    rw [collectTypeDeps] at h
    split at h
    · cases h
    · cases h
      exact ⟨.inl, fun h => h.elim id fun ⟨_, hmem, _⟩ => nomatch hmem⟩
  | array span element ih =>
    rw [collectTypeDeps] at h
    split at h
    · cases h
    · exact ih h
  | fixedArray span element size ih =>
    rw [collectTypeDeps] at h
    split at h
    · cases h
    · exact ih h
  | map span key value ihKey ihValue =>
    rw [collectTypeDeps] at h
    split at h
    · cases h
    · obtain ⟨next, hnext, h⟩ := Option.bind_eq_some_iff.mp h
      rw [ihValue h, ihKey hnext, or_assoc]
      refine or_congr_right ?_
      unfold Points
      rw [Ty.references]
      constructor
      · rintro (⟨r, hr, hname⟩ | ⟨r, hr, hname⟩)
        · exact ⟨r, List.mem_append_left _ hr, hname⟩
        · exact ⟨r, List.mem_append_right _ hr, hname⟩
      · rintro ⟨r, hr, hname⟩
        rcases List.mem_append.mp hr with hr | hr
        · exact .inl ⟨r, hr, hname⟩
        · exact .inr ⟨r, hr, hname⟩
  | defined span typeName resolved =>
    rw [collectTypeDeps] at h
    split at h
    · cases h
    · cases h
      rw [mem_addResolved]
      unfold Points
      rw [Ty.references]
      refine or_congr_right ⟨fun hname => ⟨_, List.mem_singleton.mpr rfl, hname⟩, ?_⟩
      rintro ⟨r, hr, hname⟩
      rw [List.mem_singleton.mp hr] at hname
      exact hname

end ParseResult

/-- The definitions that the branches of a union have inline, by their places in it. -/
def Def.ownBranches (d : Def) : List (Nat × Def) :=
  match d.body with
  | .union branches =>
    branches.filterMap fun branch => branch.inlineDef.bind fun k => d.nestedDefs[k]?.map (Prod.mk k)
  | _ => []

namespace ParseResult

variable {result : ParseResult}

variable (result) in
def BranchPoints (d : Def) (branch : Branch) (name : Text) : Prop :=
  (∃ k nested, branch.inlineDef = some k ∧ d.nestedDefs[k]? = some nested ∧ nested.name = name) ∨
    ∃ type, branch.typeRef = some type ∧ result.Points type name

theorem mem_collectBranchDeps {d : Def} {deps out : List Text} {branch : Branch}
    (h : result.collectBranchDeps d deps branch = some out) (name : Text) :
    name ∈ out ↔ name ∈ deps ∨ result.BranchPoints d branch name := by
  have htype {before : List Text}
      (h : branch.typeRef.elim (some before) (fun type => result.collectTypeDeps 0 type before) = some out) :
      name ∈ out ↔ name ∈ before ∨ ∃ type, branch.typeRef = some type ∧ result.Points type name := by
    cases href : branch.typeRef with
    | none =>
      rw [href] at h
      cases h
      refine ⟨.inl, ?_⟩
      rintro (hmem | ⟨_, hnone, -⟩)
      · exact hmem
      · cases hnone
    | some type =>
      rw [href] at h
      rw [mem_collectTypeDeps h]
      refine or_congr_right ⟨fun hpoints => ⟨type, rfl, hpoints⟩, ?_⟩
      rintro ⟨_, heq, hpoints⟩
      cases heq
      exact hpoints
  unfold collectBranchDeps at h
  dsimp only at h
  unfold BranchPoints
  have h := @htype _ (Eq.trans (by cases branch.typeRef <;> rfl) h)
  rw [h, ← or_assoc]
  refine or_congr_left ?_
  cases hinline : branch.inlineDef.bind (d.nestedDefs[·]?) with
  | none =>
    refine ⟨.inl, fun h => h.elim id ?_⟩
    rintro ⟨k, nested, hk, hnested, -⟩
    rw [hk, Option.bind_some, hnested] at hinline
    cases hinline
  | some inlineDef =>
    dsimp only
    rw [List.mem_append, List.mem_singleton]
    obtain ⟨k, hk, hnested⟩ := Option.bind_eq_some_iff.mp hinline
    refine or_congr_right ⟨fun hname => ⟨k, inlineDef, hk, hnested, hname.symm⟩, ?_⟩
    rintro ⟨k', nested, hk', hnested', rfl⟩
    rw [hk, Option.some.injEq] at hk'
    subst hk'
    rw [hnested, Option.some.injEq] at hnested'
    rw [hnested']

variable (result) in
/-- The names collected for a definition, each with what it stands for. -/
def recorded (ref : DefRef) (d : Def) : List (Text × DefRef) :=
  (d.references.filterMap fun r => r.resolved.bind fun target => (result.fqn target).map fun fqn => (fqn, target)) ++
    d.ownBranches.map (fun x => (x.2.name, ⟨ref.schema, ref.path ++ [x.1]⟩)) ++
      d.decoratorChains.flatten.filterMap fun x =>
        x.resolved.bind fun target => (result.fqn target).map fun fqn => (fqn, target)

theorem exists_reference_iff {d : Def} {name : Text} :
    (∃ r ∈ d.references, r.resolved.bind result.fqn = some name) ↔
      ∃ x ∈ d.body.referredTypes, result.Points x.2 name := by
  constructor
  · rintro ⟨r, hr, hname⟩
    obtain ⟨type, htype, hmem⟩ := Def.mem_references.mp hr
    exact ⟨_, htype, _, hmem, hname⟩
  · rintro ⟨x, hx, r, hr, hname⟩
    exact ⟨⟨x.1, r.1, r.2⟩, Def.mem_references.mpr ⟨x.2, hx, hr⟩, hname⟩

theorem ownBranches_eq_nil {d : Def} (h : d.kind ≠ .union) : d.ownBranches = [] := by
  unfold Def.ownBranches
  split
  · rename_i branches hbody
    exfalso
    rw [Def.kind, hbody] at h
    exact h rfl
  · rfl

theorem mem_collectFields {fields : List Field} {deps : List Text}
    (h : fields.foldlM (fun deps field => result.collectTypeDeps 0 field.type deps) [] = some deps) (name : Text) :
    name ∈ deps ↔ ∃ x ∈ fields.map (fun field => (Role.field, field.type)), result.Points x.2 name := by
  have hfield (deps : List Text) (field : Field) (out : List Text)
      (hout : result.collectTypeDeps 0 field.type deps = some out) (name : Text) :
      name ∈ out ↔ name ∈ deps ∨ result.Points field.type name :=
    mem_collectTypeDeps hout name
  rw [Loops.foldlM_adds hfield h]
  constructor
  · rintro (hmem | ⟨field, hfield, hpoints⟩)
    · cases hmem
    · exact ⟨_, List.mem_map.mpr ⟨field, hfield, rfl⟩, hpoints⟩
  · rintro ⟨x, hx, hpoints⟩
    obtain ⟨field, hfield, rfl⟩ := List.mem_map.mp hx
    exact .inr ⟨field, hfield, hpoints⟩

theorem mem_collectBodyDeps {d : Def} {deps : List Text} (h : result.collectBodyDeps d = some deps) (name : Text) :
    name ∈ deps ↔ (∃ r ∈ d.references, r.resolved.bind result.fqn = some name) ∨
      ∃ x ∈ d.ownBranches, x.2.name = name := by
  have hnone (hkind : d.kind ≠ .union) : ¬∃ x ∈ d.ownBranches, x.2.name = name := by
    rw [ownBranches_eq_nil hkind]
    exact fun ⟨_, hmem, _⟩ => nomatch hmem
  have hempty (hdeps : deps = []) (htypes : d.body.referredTypes = []) (hkind : d.kind ≠ .union) :
      name ∈ deps ↔ (∃ r ∈ d.references, r.resolved.bind result.fqn = some name) ∨
        ∃ x ∈ d.ownBranches, x.2.name = name := by
    rw [exists_reference_iff, htypes, or_iff_left (hnone hkind), hdeps]
    exact ⟨nofun, fun ⟨_, hmem, _⟩ => nomatch hmem⟩
  unfold collectBodyDeps at h
  cases hbody : d.body with
  | enum baseType members =>
    rw [hbody] at h
    cases h
    exact hempty rfl (by rw [hbody]; rfl) (by rw [Def.kind, hbody]; exact nofun)
  | struct isMutable fields =>
    rw [hbody] at h
    rw [exists_reference_iff, or_iff_left (hnone (by rw [Def.kind, hbody]; exact nofun)), hbody]
    exact mem_collectFields h name
  | message fields =>
    rw [hbody] at h
    rw [exists_reference_iff, or_iff_left (hnone (by rw [Def.kind, hbody]; exact nofun)), hbody]
    exact mem_collectFields h name
  | union branches =>
    rw [hbody] at h
    dsimp only at h
    have hbranch (deps : List Text) (branch : Branch) (out : List Text)
        (hout : result.collectBranchDeps d deps branch = some out) (name : Text) :
        name ∈ out ↔ name ∈ deps ∨ result.BranchPoints d branch name :=
      mem_collectBranchDeps hout name
    rw [Loops.foldlM_adds hbranch h, exists_reference_iff, hbody]
    unfold Def.ownBranches BranchPoints
    rw [hbody]
    dsimp only
    constructor
    · rintro (hnil | ⟨branch, hbranch, ⟨k, nested, hk, hnested, rfl⟩ | ⟨type, htype, hpoints⟩⟩)
      · cases hnil
      · refine .inr ⟨(k, nested), List.mem_filterMap.mpr ⟨branch, hbranch, ?_⟩, rfl⟩
        rw [hk, Option.bind_some, hnested, Option.map_some]
      · refine .inl ⟨(.branch, type), List.mem_flatMap.mpr ⟨branch, hbranch, ?_⟩, hpoints⟩
        rw [htype]
        exact List.mem_singleton.mpr rfl
    · rintro (⟨x, hx, hpoints⟩ | ⟨x, hx, rfl⟩)
      · obtain ⟨branch, hbranch, hx⟩ := List.mem_flatMap.mp hx
        obtain ⟨type, htype, rfl⟩ := List.mem_map.mp hx
        exact .inr ⟨branch, hbranch, .inr ⟨type, Option.mem_toList.mp htype, hpoints⟩⟩
      · obtain ⟨branch, hbranch, hx⟩ := List.mem_filterMap.mp hx
        obtain ⟨k, hk, hx⟩ := Option.bind_eq_some_iff.mp hx
        obtain ⟨nested, hnested, rfl⟩ := Option.map_eq_some_iff.mp hx
        exact .inr ⟨branch, hbranch, .inl ⟨k, nested, hk, hnested, rfl⟩⟩
  | service methods mixins =>
    rw [hbody] at h
    dsimp only at h
    obtain ⟨fromMethods, hmethods, h⟩ := Option.bind_eq_some_iff.mp h
    have hmethod (deps : List Text) (method : Method) (out : List Text)
        (hout : ((result.collectTypeDeps 0 method.requestType deps).bind
          (result.collectTypeDeps 0 method.responseType)) = some out) (name : Text) :
        name ∈ out ↔ name ∈ deps ∨ (result.Points method.requestType name ∨ result.Points method.responseType name) := by
      obtain ⟨next, hnext, hout⟩ := Option.bind_eq_some_iff.mp hout
      rw [mem_collectTypeDeps hout, mem_collectTypeDeps hnext, or_assoc]
    have hmixin (deps : List Text) (mixin : Ty) (out : List Text)
        (hout : result.collectTypeDeps 0 mixin deps = some out) (name : Text) :
        name ∈ out ↔ name ∈ deps ∨ result.Points mixin name :=
      mem_collectTypeDeps hout name
    rw [Loops.foldlM_adds hmixin h, Loops.foldlM_adds hmethod hmethods, exists_reference_iff,
      or_iff_left (hnone (by rw [Def.kind, hbody]; exact nofun)), hbody, Body.referredTypes]
    constructor
    · rintro ((hnil | ⟨method, hmem, hpoints | hpoints⟩) | ⟨mixin, hmem, hpoints⟩)
      · cases hnil
      · exact ⟨(.method, method.requestType), List.mem_append_left _
          (List.mem_flatMap.mpr ⟨method, hmem, List.mem_pair.mpr (.inl rfl)⟩), hpoints⟩
      · exact ⟨(.method, method.responseType), List.mem_append_left _
          (List.mem_flatMap.mpr ⟨method, hmem, List.mem_pair.mpr (.inr rfl)⟩), hpoints⟩
      · exact ⟨(.mixin, mixin), List.mem_append_right _ (List.mem_map.mpr ⟨mixin, hmem, rfl⟩), hpoints⟩
    · rintro ⟨x, hx, hpoints⟩
      rcases List.mem_append.mp hx with hx | hx
      · obtain ⟨method, hmem, hx⟩ := List.mem_flatMap.mp hx
        rcases List.mem_pair.mp hx with rfl | rfl
        · exact .inl (.inr ⟨method, hmem, .inl hpoints⟩)
        · exact .inl (.inr ⟨method, hmem, .inr hpoints⟩)
      · obtain ⟨mixin, hmem, rfl⟩ := List.mem_map.mp hx
        exact .inr ⟨mixin, hmem, hpoints⟩
  | const constType value =>
    rw [hbody] at h
    cases h
    exact hempty rfl (by rw [hbody]; rfl) (by rw [Def.kind, hbody]; exact nofun)
  | decorator =>
    rw [hbody] at h
    cases h
    exact hempty rfl (by rw [hbody]; rfl) (by rw [Def.kind, hbody]; exact nofun)

theorem mem_foldl_addResolved {decorators : List Decorator} {deps : List Text} {name : Text} :
    name ∈ decorators.foldl (fun deps decorator => result.addResolved deps decorator.resolved) deps ↔
      name ∈ deps ∨ ∃ x ∈ decorators, x.resolved.bind result.fqn = some name := by
  induction decorators generalizing deps with
  | nil => exact ⟨.inl, fun h => h.elim id fun ⟨_, hmem, _⟩ => nomatch hmem⟩
  | cons x decorators ih =>
    rw [List.foldl_cons, ih, mem_addResolved, or_assoc]
    refine or_congr_right ?_
    constructor
    · rintro (hname | ⟨y, hy, hname⟩)
      · exact ⟨x, List.mem_cons_self, hname⟩
      · exact ⟨y, List.mem_cons_of_mem _ hy, hname⟩
    · rintro ⟨y, hy, hname⟩
      rcases List.mem_cons.mp hy with rfl | hy
      · exact .inl hname
      · exact .inr ⟨y, hy, hname⟩

theorem mem_getDeps (ref : DefRef) {d : Def} {deps : List Text} (h : result.getDeps d = some deps) (name : Text) :
    name ∈ deps ↔ ∃ target, (name, target) ∈ result.recorded ref d := by
  have hpoints (resolved : Option DefRef) (target : DefRef) :
      (resolved.bind fun target => (result.fqn target).map fun fqn => (fqn, target)) = some (name, target) ↔
        resolved = some target ∧ result.fqn target = some name := by
    rw [Option.bind_eq_some_iff]
    constructor
    · rintro ⟨target', hresolved, htarget⟩
      obtain ⟨fqn, hfqn, heq⟩ := Option.map_eq_some_iff.mp htarget
      cases heq
      exact ⟨hresolved, hfqn⟩
    · rintro ⟨rfl, hfqn⟩
      exact ⟨target, rfl, by rw [hfqn, Option.map_some]⟩
  obtain ⟨body, hbody, rfl⟩ := Option.map_eq_some_iff.mp h
  rw [mem_foldl_addResolved, mem_collectBodyDeps hbody]
  unfold recorded
  constructor
  · rintro ((⟨r, hr, hname⟩ | ⟨x, hx, rfl⟩) | ⟨x, hx, hname⟩)
    · obtain ⟨target, htarget, hfqn⟩ := Option.bind_eq_some_iff.mp hname
      exact ⟨target, List.mem_append_left _ (List.mem_append_left _
        (List.mem_filterMap.mpr ⟨r, hr, (hpoints _ _).mpr ⟨htarget, hfqn⟩⟩))⟩
    · exact ⟨_, List.mem_append_left _ (List.mem_append_right _ (List.mem_map.mpr ⟨x, hx, rfl⟩))⟩
    · obtain ⟨target, htarget, hfqn⟩ := Option.bind_eq_some_iff.mp hname
      exact ⟨target, List.mem_append_right _
        (List.mem_filterMap.mpr ⟨x, hx, (hpoints _ _).mpr ⟨htarget, hfqn⟩⟩)⟩
  · rintro ⟨target, hmem⟩
    rcases List.mem_append.mp hmem with hmem | hmem
    · rcases List.mem_append.mp hmem with hmem | hmem
      · obtain ⟨r, hr, heq⟩ := List.mem_filterMap.mp hmem
        obtain ⟨hresolved, hfqn⟩ := (hpoints _ _).mp heq
        exact .inl (.inl ⟨r, hr, by rw [hresolved, Option.bind_some, hfqn]⟩)
      · obtain ⟨x, hx, heq⟩ := List.mem_map.mp hmem
        exact .inl (.inr ⟨x, hx, congrArg Prod.fst heq⟩)
    · obtain ⟨x, hx, heq⟩ := List.mem_filterMap.mp hmem
      obtain ⟨hresolved, hfqn⟩ := (hpoints _ _).mp heq
      exact .inr ⟨x, hx, by rw [hresolved, Option.bind_some, hfqn]⟩

/-! ## The edges -/

variable (result) in
/-- The definition that a name makes an edge from, if it makes one. -/
def edgeFrom (ref : DefRef) (name : Text) : Option DefRef :=
  (result.findDefIndex name).bind fun k => result.registered[k]?.filter fun dep => !result.isExempt ref dep

theorem edgeFrom_eq_some {ref dep : DefRef} {name : Text} :
    result.edgeFrom ref name = some dep ↔
      ∃ k, result.findDefIndex name = some k ∧ result.registered[k]? = some dep ∧ result.isExempt ref dep = false := by
  unfold edgeFrom
  rw [Option.bind_eq_some_iff]
  refine exists_congr fun k => and_congr_right fun _ => ?_
  rw [Option.filter_eq_some_iff, Bool.not_eq_true']

theorem mem_edgesOf {i j k : Nat} {ref : DefRef} {deps : List Text} :
    (k, j) ∈ result.edgesOf i ref deps ↔
      j = i ∧ ∃ name ∈ deps, result.findDefIndex name = some k ∧
        ∃ dep, result.registered[k]? = some dep ∧ result.isExempt ref dep = false := by
  unfold edgesOf
  rw [List.mem_filterMap]
  constructor
  · rintro ⟨name, hname, h⟩
    obtain ⟨k', hk', h⟩ := Option.bind_eq_some_iff.mp h
    obtain ⟨dep, hdep, h⟩ := Option.bind_eq_some_iff.mp h
    split at h
    · cases h
    · rename_i hexempt
      cases h
      exact ⟨rfl, name, hname, hk', dep, hdep, Bool.eq_false_iff.mpr hexempt⟩
  · rintro ⟨rfl, name, hname, hk, dep, hdep, hexempt⟩
    refine ⟨name, hname, ?_⟩
    rw [hk, Option.bind_some, hdep, Option.bind_some, if_neg (Bool.eq_false_iff.mp hexempt)]

theorem mem_dependencyEdges {edges : List (Nat × Nat)} (h : result.dependencyEdges = some edges) {k i : Nat} :
    (k, i) ∈ edges ↔
      ∃ ref d name target dep, result.registered[i]? = some ref ∧ result.def? ref = some d ∧
        (name, target) ∈ result.recorded ref d ∧ result.findDefIndex name = some k ∧
          result.registered[k]? = some dep ∧ result.isExempt ref dep = false := by
  obtain ⟨lists, hlists, rfl⟩ := Option.map_eq_some_iff.mp h
  obtain ⟨hto, hfrom⟩ := Loops.mapM_eq_some hlists
  rw [List.mem_flatten]
  constructor
  · rintro ⟨list, hlist, hmem⟩
    obtain ⟨⟨j, ref⟩, hmember, hlist⟩ := hfrom list hlist
    obtain ⟨d, hd, hlist⟩ := Option.bind_eq_some_iff.mp hlist
    obtain ⟨deps, hdeps, rfl⟩ := Option.map_eq_some_iff.mp hlist
    obtain ⟨rfl, name, hname, hk, dep, hdep, hexempt⟩ := mem_edgesOf.mp hmem
    obtain ⟨target, htarget⟩ := (mem_getDeps ref hdeps name).mp hname
    obtain ⟨i', hi', heq⟩ := List.mem_mapIdx.mp hmember
    cases heq
    exact ⟨_, d, name, target, dep, List.getElem?_eq_getElem hi', hd, htarget, hk, hdep, hexempt⟩
  · rintro ⟨ref, d, name, target, dep, hi, hd, htarget, hk, hdep, hexempt⟩
    obtain ⟨hlt, rfl⟩ := List.getElem?_eq_some_iff.mp hi
    obtain ⟨list, hlist, heq⟩ := hto (i, result.registered[i]) (List.mem_mapIdx.mpr ⟨i, hlt, rfl⟩)
    obtain ⟨d', hd', heq⟩ := Option.bind_eq_some_iff.mp heq
    obtain ⟨deps, hdeps, rfl⟩ := Option.map_eq_some_iff.mp heq
    rw [hd, Option.some.injEq] at hd'
    subst hd'
    have hname := (mem_getDeps _ hdeps name).mpr ⟨target, htarget⟩
    exact ⟨_, hlist, mem_edgesOf.mpr ⟨rfl, name, hname, hk, dep, hdep, hexempt⟩⟩

end ParseResult

end Bebop.Compiler
