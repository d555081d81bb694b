import Bebop.Compiler.Validate

/-!
# Bebop — what the later passes read

Services and the order of the definitions are made out from the definitions, with
the pointers in them, and their fully qualified names: two results that agree on
these agree on what the passes come to, whatever their imports are.
-/

namespace Bebop.Compiler

namespace ParseResult

/-- The same definitions and pointers, at the same places and under the same names. -/
structure SameDefinitions (result result' : ParseResult) : Prop where
  registered : result'.registered = result.registered
  def? : result'.def? = result.def?
  fqn : result'.fqn = result.fqn

namespace SameDefinitions

variable {result result' : ParseResult} (h : result.SameDefinitions result')

include h

theorem findDef (name : Text) : result'.findDef name = result.findDef name := by
  rw [findDef_eq, findDef_eq, h.registered, h.fqn]

/-! ## The order of the definitions -/

theorem findDefIndex : result'.findDefIndex = result.findDefIndex := by
  have hentries : result'.tableEntries = result.tableEntries := by
    unfold tableEntries
    rw [h.def?, h.fqn]
  unfold ParseResult.findDefIndex nameToIdx
  rw [hentries, h.registered]

theorem addResolved : result'.addResolved = result.addResolved := by
  unfold ParseResult.addResolved
  rw [h.fqn]

theorem collectTypeDeps : result'.collectTypeDeps = result.collectTypeDeps := by
  funext depth type deps
  induction type generalizing depth deps with
  | scalar span scalar => rw [ParseResult.collectTypeDeps, ParseResult.collectTypeDeps]
  | array span element ih => rw [ParseResult.collectTypeDeps, ParseResult.collectTypeDeps, ih]
  | fixedArray span element size ih => rw [ParseResult.collectTypeDeps, ParseResult.collectTypeDeps, ih]
  | map span key value ihKey ihValue =>
    have hvalue : result'.collectTypeDeps (depth + 1) value = result.collectTypeDeps (depth + 1) value :=
      funext fun deps => ihValue (depth + 1) deps
    rw [ParseResult.collectTypeDeps, ParseResult.collectTypeDeps, ihKey, hvalue]
  | defined span name resolved =>
    rw [ParseResult.collectTypeDeps, ParseResult.collectTypeDeps, h.addResolved]

theorem getDeps : result'.getDeps = result.getDeps := by
  have hbranch : result'.collectBranchDeps = result.collectBranchDeps := by
    unfold collectBranchDeps
    rw [h.collectTypeDeps]
  have hbody : result'.collectBodyDeps = result.collectBodyDeps := by
    unfold collectBodyDeps
    rw [h.collectTypeDeps, hbranch]
  unfold ParseResult.getDeps
  rw [hbody, h.addResolved]

theorem edgesOf : result'.edgesOf = result.edgesOf := by
  have hbranch : result'.isMessageBranchOf = result.isMessageBranchOf := by
    unfold isMessageBranchOf
    rw [h.def?]
  have hexempt : result'.isExempt = result.isExempt := by
    unfold isExempt
    rw [h.def?, hbranch]
  unfold ParseResult.edgesOf
  rw [h.findDefIndex, h.registered, hexempt]

theorem toposort : result'.toposort = result.toposort := by
  have hedges : result'.dependencyEdges = result.dependencyEdges := by
    unfold dependencyEdges
    rw [h.registered, h.def?, h.getDeps, h.edgesOf]
  have hpath : result'.findCyclePath = result.findCyclePath := by
    unfold findCyclePath
    rw [h.registered, h.def?]
  unfold ParseResult.toposort
  rw [hedges, h.registered, hpath]

theorem sortingReports : result'.sortingReports = result.sortingReports := by
  unfold ParseResult.sortingReports
  rw [h.def?]

/-! ## Services -/

theorem mixinService : result'.mixinService = result.mixinService := by
  unfold ParseResult.mixinService service?
  rw [h.def?]

theorem serviceHasMethod (name : Text) (depth : Nat) (ref : DefRef) :
    result'.serviceHasMethod name depth ref = result.serviceHasMethod name depth ref := by
  induction depth generalizing ref with
  | zero => rfl
  | succ depth ih =>
    have hservice : result'.service? = result.service? := by
      unfold service?
      rw [h.def?]
    have hdeeper : result'.serviceHasMethod name depth = result.serviceHasMethod name depth := funext ih
    rw [ParseResult.serviceHasMethod, ParseResult.serviceHasMethod, hservice, h.mixinService, hdeeper]

theorem mixinReports (methods : List Method) (mixins : List Ty) :
    result'.mixinReports methods mixins = result.mixinReports methods mixins := by
  have hmethod : result'.mixinMethodReports = result.mixinMethodReports := by
    have hsearch : result'.serviceHasMethod = result.serviceHasMethod := by
      funext name depth ref
      exact h.serviceHasMethod name depth ref
    unfold mixinMethodReports
    rw [h.mixinService, hsearch, h.registered, h.def?]
  have hservice : result'.service? = result.service? := by
    unfold service?
    rw [h.def?]
  induction mixins with
  | nil => rfl
  | cons mixin later ih =>
    unfold ParseResult.mixinReports
    rw [hservice, hmethod, h.def?, ih]

theorem serviceReports : result'.serviceReports = result.serviceReports := by
  have hmixins : result'.mixinReports = result.mixinReports := by
    funext methods mixins
    exact h.mixinReports methods mixins
  have htypes : result'.methodTypeReports = result.methodTypeReports := by
    unfold methodTypeReports targetKind
    rw [h.def?]
  have hservice : result'.validateService = result.validateService := by
    unfold validateService
    rw [hmixins, htypes]
  unfold ParseResult.serviceReports
  rw [h.registered, h.def?, hservice]

end SameDefinitions

end ParseResult

end Bebop.Compiler
