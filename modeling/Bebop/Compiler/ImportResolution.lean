import Bebop.Compiler.PathNormalize
import Bebop.Lib.SortedSearch

/-!
# Bebop — the schema behind an import

`bebop__validate_resolve_imports` of `bebop_validate.c` gives every import the schema that its
resolved path means. It looks in an index that `qsort` has ordered by the last component of the
paths, or, without memory for it, goes through the schemas in the order of their registration.
A schema is its place in the result. `qsort` is free in the order of equal keys.
-/

namespace Bebop.Compiler.ImportResolution

open SortedSearch

/-! ## Paths -/

/-- `strcmp` -/
def strcmp (a b : List UInt8) : Ordering := compare a b

/-- `bebop__validate_paths_equal` -/
def pathsEqual : Option (List UInt8) → Option (List UInt8) → Bool
  | some a, some b =>
    if strcmp a b = .eq then true
    else if a.length = 0 ∨ b.length = 0 then false
    else
      let shorter := if a.length < b.length then a else b
      let longer := if a.length < b.length then b else a
      let ls := shorter.length
      let ll := longer.length
      if ll > ls ∧ longer.getD (ll - ls - 1) 0 = slash then
        strcmp (longer.drop (ll - ls)) shorter = .eq
      else false
  | _, _ => false

/-- The loop of `bebop__validate_path_base`. -/
def pathBaseFrom (base : List UInt8) : List UInt8 → List UInt8
  | [] => base
  | c :: p => if c = slash then pathBaseFrom p p else pathBaseFrom base p

/-- `bebop__validate_path_base` -/
def pathBase (path : List UInt8) : List UInt8 := pathBaseFrom path path

/-! ## Schemas and their index -/

structure Import where
  resolved_path : Option (List UInt8)
  schema : Option Nat
  deriving DecidableEq

structure Schema where
  path : Option (List UInt8)
  imports : List Import
  deriving DecidableEq

/-- `bebop__schema_path_entry_t` -/
structure Entry where
  base : List UInt8
  schema : Nat
  deriving DecidableEq

variable (schemas : List (Option Schema))

def pathOf (s : Nat) : Option (List UInt8) := (schemas[s]?.join).bind Schema.path

/-- The index before `qsort`. -/
def entries : List Entry :=
  (List.range schemas.length).filterMap fun s => (pathOf schemas s).map fun path => ⟨pathBase path, s⟩

/-- What `qsort` may leave: the entries in any order that `strcmp` of the bases allows. -/
def QSorted (index : List Entry) : Prop :=
  index.Perm (entries schemas) ∧ index.Pairwise fun a b => (strcmp a.base b.base).isLE

/-- The scan of the index from the place that the binary search found. -/
def scanIndex (schema : Nat) (resolved : List UInt8) : List Entry → Option Nat
  | [] => none
  | entry :: index =>
    if strcmp entry.base (pathBase resolved) = .eq then
      if entry.schema ≠ schema ∧ pathsEqual (pathOf schemas entry.schema) (some resolved) then
        some entry.schema
      else scanIndex schema resolved index
    else none

def searchIndex (index : List Entry) (schema : Nat) (resolved : List UInt8) : Option Nat :=
  let lo := lowerBound (fun entry : Entry => strcmp entry.base (pathBase resolved) == .lt) index 0 index.length
  scanIndex schemas schema resolved (index.drop lo)

def searchSchemas (schema : Nat) (resolved : List UInt8) : Option Nat :=
  (List.range schemas.length).find? fun target =>
    target ≠ schema ∧ (pathOf schemas target).isSome ∧
      pathsEqual (pathOf schemas target) (some resolved)

/-! ## What both look for -/

/-- The same path, or one is the other from some separator on. -/
def SuffixMatch (a b : List UInt8) : Prop :=
  a = b ∨ (a ≠ [] ∧ ∃ front, b = front ++ slash :: a) ∨ (b ≠ [] ∧ ∃ front, a = front ++ slash :: b)

/-- A schema other than the importer that a resolved path may mean. -/
def Matches (schema : Nat) (resolved : List UInt8) (target : Nat) : Prop :=
  target ≠ schema ∧ ∃ path, pathOf schemas target = some path ∧ SuffixMatch path resolved

@[simp] theorem strcmp_eq {a b : List UInt8} : strcmp a b = .eq ↔ a = b := by
  unfold strcmp
  exact Std.LawfulEqCmp.compare_eq_iff_eq

theorem tail_iff (shorter longer : List UInt8) :
    ((longer.length > shorter.length ∧
        longer.getD (longer.length - shorter.length - 1) 0 = slash) ∧
        longer.drop (longer.length - shorter.length) = shorter) ↔
      ∃ front, longer = front ++ slash :: shorter := by
  constructor
  · rintro ⟨⟨hlen, hslash⟩, htail⟩
    have hlt : longer.length - shorter.length - 1 < longer.length := by omega
    refine ⟨longer.take (longer.length - shorter.length - 1), ?_⟩
    conv_lhs => rw [← List.take_append_drop (longer.length - shorter.length - 1) longer]
    rw [List.drop_eq_getElem_cons hlt, Nat.sub_add_cancel (by omega), htail]
    rw [List.getD_eq_getElem?_getD, List.getElem?_eq_getElem hlt, Option.getD_some] at hslash
    rw [hslash]
  · rintro ⟨front, rfl⟩
    have hlen : (front ++ slash :: shorter).length - shorter.length = front.length + 1 := by
      rw [List.length_append, List.length_cons]
      omega
    refine ⟨⟨?_, ?_⟩, ?_⟩
    · rw [List.length_append, List.length_cons]
      omega
    · rw [hlen, Nat.add_sub_cancel, List.getD_eq_getElem?_getD, List.getElem?_append_right (Nat.le_refl _),
        Nat.sub_self]
      rfl
    · rw [hlen, ← List.drop_drop, List.drop_left]
      rfl

theorem pathsEqual_iff {a b : List UInt8} : pathsEqual (some a) (some b) ↔ SuffixMatch a b := by
  unfold pathsEqual SuffixMatch
  simp only [strcmp_eq]
  by_cases hab : a = b
  · simp [hab]
  have hnot (front c d : List UInt8) (hle : c.length ≤ d.length) : c ≠ front ++ slash :: d := by
    intro h
    have hlen := congrArg List.length h
    rw [List.length_append, List.length_cons] at hlen
    omega
  rw [if_neg hab]
  by_cases hnil : a.length = 0 ∨ b.length = 0
  · rw [if_pos hnil]
    refine iff_of_false Bool.false_ne_true ?_
    rintro (h | ⟨hne, front, h⟩ | ⟨hne, front, h⟩)
    · exact hab h
    · rcases hnil with hnil | hnil
      · exact hne (List.length_eq_zero_iff.mp hnil)
      · exact hnot front b a (by omega) h
    · rcases hnil with hnil | hnil
      · exact hnot front a b (by omega) h
      · exact hne (List.length_eq_zero_iff.mp hnil)
  rw [if_neg hnil]
  rw [not_or, List.length_eq_zero_iff, List.length_eq_zero_iff] at hnil
  have hite (c d : Prop) [Decidable c] [Decidable d] : (if c then decide d else false) = true ↔ c ∧ d := by
    by_cases hc : c <;> simp [hc]
  by_cases hlt : a.length < b.length
  · simp only [if_pos hlt]
    rw [hite, tail_iff a b]
    constructor
    · intro h
      exact .inr (.inl ⟨hnil.1, h⟩)
    · rintro (h | ⟨-, h⟩ | ⟨-, front, h⟩)
      · exact absurd h hab
      · exact h
      · exact absurd h (hnot front a b (by omega))
  · simp only [if_neg hlt]
    rw [hite, tail_iff b a]
    constructor
    · intro h
      exact .inr (.inr ⟨hnil.2, h⟩)
    · rintro (h | ⟨-, front, h⟩ | ⟨-, h⟩)
      · exact absurd h hab
      · exact absurd h (hnot front b a (by omega))
      · exact h

theorem pathBaseFrom_append (base front s : List UInt8) :
    pathBaseFrom base (front ++ slash :: s) = pathBase s := by
  induction front generalizing base with
  | nil => rw [List.nil_append, pathBaseFrom, if_pos rfl, pathBase]
  | cons c front ih =>
    rw [List.cons_append, pathBaseFrom]
    split
    · exact ih _
    · exact ih _

theorem SuffixMatch.pathBase_eq {a b : List UInt8} (h : SuffixMatch a b) : pathBase a = pathBase b := by
  rcases h with rfl | ⟨-, front, rfl⟩ | ⟨-, front, rfl⟩
  · rfl
  · exact (pathBaseFrom_append _ front a).symm
  · exact pathBaseFrom_append _ front b

variable {schemas : List (Option Schema)} {schema : Nat} {resolved : List UInt8}

theorem matches_iff {target : Nat} : Matches schemas schema resolved target ↔
    target ≠ schema ∧ pathsEqual (pathOf schemas target) (some resolved) := by
  unfold Matches
  cases pathOf schemas target with
  | none => simp [pathsEqual]
  | some path => simp [pathsEqual_iff]

theorem lt_length_of_pathOf {s : Nat} {path : List UInt8} (h : pathOf schemas s = some path) :
    s < schemas.length := by
  by_contra hs
  rw [pathOf, List.getElem?_eq_none (by omega)] at h
  cases h

theorem mem_entries {entry : Entry} : entry ∈ entries schemas ↔
    ∃ path, pathOf schemas entry.schema = some path ∧ entry.base = pathBase path := by
  constructor
  · intro h
    obtain ⟨s, -, hentry⟩ := List.mem_filterMap.mp h
    obtain ⟨path, hpath, rfl⟩ := Option.map_eq_some_iff.mp hentry
    exact ⟨path, hpath, rfl⟩
  · rintro ⟨path, hpath, hbase⟩
    refine List.mem_filterMap.mpr ⟨entry.schema, List.mem_range.mpr (lt_length_of_pathOf hpath), ?_⟩
    rw [hpath, Option.map_some, ← hbase]

/-! ## The two searches -/

theorem searchSchemas_eq_some {target : Nat} :
    searchSchemas schemas schema resolved = some target ↔
      Matches schemas schema resolved target ∧
        ∀ t, t < target → ¬Matches schemas schema resolved t := by
  have htest (t : Nat) : (decide (t ≠ schema ∧ (pathOf schemas t).isSome ∧
      pathsEqual (pathOf schemas t) (some resolved)) = true) ↔ Matches schemas schema resolved t := by
    rw [matches_iff, decide_eq_true_iff]
    cases pathOf schemas t with
    | none => simp [pathsEqual]
    | some path => simp
  unfold searchSchemas
  rw [List.find?_range_eq_some, htest]
  constructor
  · rintro ⟨hmatch, -, hfirst⟩
    refine ⟨hmatch, fun t ht hearlier => ?_⟩
    have hnot := hfirst t ht
    rw [(htest t).mpr hearlier] at hnot
    cases hnot
  · rintro ⟨hmatch, hfirst⟩
    obtain ⟨-, path, hpath, -⟩ := id hmatch
    refine ⟨hmatch, List.mem_range.mpr (lt_length_of_pathOf hpath), fun t ht => ?_⟩
    rw [Bool.not_eq_true', Bool.eq_false_iff, Ne, htest]
    exact hfirst t ht

def isTarget (schemas : List (Option Schema)) (schema : Nat) (resolved : List UInt8) (entry : Entry) : Bool :=
  entry.schema ≠ schema ∧ pathsEqual (pathOf schemas entry.schema) (some resolved)

theorem isTarget_iff {entry : Entry} : isTarget schemas schema resolved entry ↔
    Matches schemas schema resolved entry.schema := by
  rw [isTarget, decide_eq_true_iff, matches_iff]

theorem scanIndex_eq (index : List Entry) : scanIndex schemas schema resolved index =
    ((index.takeWhile fun entry => strcmp entry.base (pathBase resolved) == .eq).find?
      (isTarget schemas schema resolved)).map Entry.schema := by
  induction index with
  | nil => rfl
  | cons entry index ih =>
    rw [scanIndex]
    by_cases hbase : strcmp entry.base (pathBase resolved) = .eq
    · rw [if_pos hbase, List.takeWhile_cons_of_pos (by simp [hbase])]
      by_cases hok : entry.schema ≠ schema ∧ pathsEqual (pathOf schemas entry.schema) (some resolved)
      · have htarget : isTarget schemas schema resolved entry := decide_eq_true hok
        rw [if_pos hok, List.find?_cons_of_pos htarget]
        rfl
      · rw [if_neg hok, List.find?_cons_of_neg (by simpa [isTarget] using hok), ih]
    · rw [if_neg hbase, List.takeWhile_cons_of_neg (by simpa using hbase)]
      rfl

theorem searchIndex_eq {index : List Entry} (h : QSorted schemas index) :
    searchIndex schemas index schema resolved =
      ((index.filter fun entry => strcmp entry.base (pathBase resolved) == .eq).find?
        (isTarget schemas schema resolved)).map Entry.schema := by
  have hsorted : Sorted Entry.base index := h.2
  have hrun := run_eq_filter hsorted (pathBase resolved)
  unfold searchIndex
  simp only [scanIndex_eq]
  congr 2

theorem matches_of_searchIndex {index : List Entry} (h : QSorted schemas index) {target : Nat}
    (hsearch : searchIndex schemas index schema resolved = some target) :
    Matches schemas schema resolved target := by
  rw [searchIndex_eq h] at hsearch
  obtain ⟨entry, hfind, rfl⟩ := Option.map_eq_some_iff.mp hsearch
  exact isTarget_iff.mp (List.find?_some hfind)

theorem searchIndex_isSome {index : List Entry} (h : QSorted schemas index) {target : Nat}
    (hmatch : Matches schemas schema resolved target) :
    ∃ t, searchIndex schemas index schema resolved = some t := by
  obtain ⟨-, path, hpath, hsuffix⟩ := id hmatch
  have hentry : ⟨pathBase path, target⟩ ∈ index := h.1.mem_iff.mpr (mem_entries.mpr ⟨path, hpath, rfl⟩)
  have hrow : strcmp (pathBase path) (pathBase resolved) == .eq := by simp [hsuffix.pathBase_eq]
  have hmem : ⟨pathBase path, target⟩ ∈
      index.filter fun entry => strcmp entry.base (pathBase resolved) == .eq :=
    List.mem_filter.mpr ⟨hentry, hrow⟩
  obtain ⟨entry, hfind⟩ := Option.isSome_iff_exists.mp
    (List.find?_isSome.mpr ⟨_, hmem, isTarget_iff.mpr hmatch⟩)
  rw [searchIndex_eq h, hfind]
  exact ⟨_, rfl⟩

theorem exists_qsorted {target : Nat} (hmatch : Matches schemas schema resolved target) :
    ∃ index, QSorted schemas index ∧ searchIndex schemas index schema resolved = some target := by
  obtain ⟨-, path, hpath, hsuffix⟩ := id hmatch
  have hentry : ⟨pathBase path, target⟩ ∈ entries schemas := mem_entries.mpr ⟨path, hpath, rfl⟩
  obtain ⟨index, hperm, hsorted, hfirst⟩ := exists_sorted_first Entry.base hentry
  have hqsorted : QSorted schemas index := ⟨hperm, hsorted⟩
  refine ⟨index, hqsorted, ?_⟩
  have hrow : (index.filter fun entry => strcmp entry.base (pathBase resolved) == .eq).head?
      = some ⟨pathBase path, target⟩ := by
    rw [← hsuffix.pathBase_eq]
    exact hfirst
  obtain ⟨rest, hrest⟩ := List.head?_eq_some_iff.mp hrow
  rw [searchIndex_eq hqsorted, hrest, List.find?_cons_of_pos (isTarget_iff.mpr hmatch)]
  rfl

theorem searches_agree_iff :
    (∀ index, QSorted schemas index →
        searchIndex schemas index schema resolved = searchSchemas schemas schema resolved) ↔
      ∀ t u, Matches schemas schema resolved t → Matches schemas schema resolved u → t = u := by
  constructor
  · intro hagree t u ht hu
    obtain ⟨index, hsorted, hsearch⟩ := exists_qsorted ht
    obtain ⟨index', hsorted', hsearch'⟩ := exists_qsorted hu
    have htu : some t = some u := by
      rw [← hsearch, hagree index hsorted, ← hagree index' hsorted', hsearch']
    exact Option.some.inj htu
  · intro hunique index hsorted
    cases hsearch : searchIndex schemas index schema resolved with
    | some t =>
      have ht := matches_of_searchIndex hsorted hsearch
      symm
      exact searchSchemas_eq_some.mpr ⟨ht, fun t' hlt ht' => Nat.ne_of_lt hlt (hunique t' t ht' ht)⟩
    | none =>
      cases hscan : searchSchemas schemas schema resolved with
      | none => rfl
      | some t =>
        obtain ⟨u, hu⟩ := searchIndex_isSome hsorted (searchSchemas_eq_some.mp hscan).1
        rw [hsearch] at hu
        cases hu

/-! ## The whole result -/

variable (schemas) in
/-- For every import with a resolved path the index, in any order that `qsort` may leave, gives
what the scan gives, and that is the first schema that matches. -/
def ResolvesAlike : Prop :=
  ∀ s schema, schemas[s]? = some (some schema) → ∀ imp ∈ schema.imports, ∀ resolved,
    imp.resolved_path = some resolved →
      (∀ index, QSorted schemas index →
        searchIndex schemas index s resolved = searchSchemas schemas s resolved) ∧
      ∀ target, searchSchemas schemas s resolved = some target ↔
        Matches schemas s resolved target ∧ ∀ t, t < target → ¬Matches schemas s resolved t

variable (schemas) in
def Unambiguous : Prop :=
  ∀ s schema, schemas[s]? = some (some schema) → ∀ imp ∈ schema.imports, ∀ resolved,
    imp.resolved_path = some resolved →
      ∀ t u, Matches schemas s resolved t → Matches schemas s resolved u → t = u

theorem resolvesAlike_iff (schemas : List (Option Schema)) : ResolvesAlike schemas ↔ Unambiguous schemas := by
  constructor
  · intro h s schema hschema imp himp resolved hresolved
    exact searches_agree_iff.mp (h s schema hschema imp himp resolved hresolved).1
  · intro h s schema hschema imp himp resolved hresolved
    exact ⟨searches_agree_iff.mpr (h s schema hschema imp himp resolved hresolved),
      fun _ => searchSchemas_eq_some⟩

/-- `x.bop` and `b/x.bop`, and a schema before them that imports the second. -/
def suffixSchemas : List (Option Schema) :=
  let outer : List UInt8 := [0x78, 0x2e, 0x62, 0x6f, 0x70]
  let inner := 0x62 :: slash :: outer
  [some ⟨some [0x6d], [⟨some inner, none⟩]⟩, some ⟨some outer, []⟩, some ⟨some inner, []⟩]

theorem suffixSchemas_not_resolvesAlike : ¬∀ schemas, ResolvesAlike schemas := by
  intro h
  have hagree := (h suffixSchemas 0 _ rfl _ List.mem_cons_self _ rfl).1
  have houter : Matches suffixSchemas 0 _ 1 :=
    ⟨by decide, _, rfl, .inr (.inl ⟨List.cons_ne_nil _ _, [0x62], rfl⟩)⟩
  have hinner : Matches suffixSchemas 0 _ 2 := ⟨by decide, _, rfl, .inl rfl⟩
  exact absurd (searches_agree_iff.mp hagree 1 2 houter hinner) (by decide)

end Bebop.Compiler.ImportResolution
