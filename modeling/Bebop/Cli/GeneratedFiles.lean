import Bebop.Lib.CString
import Bebop.Lib.Occurrences
import Mathlib.Data.List.DropRight
import Mathlib.Data.UInt

/-!
# Bebop — the files of a plugin response

`_write_generated_files` of `bebopc_runner.c`. First the files of a response are written,
then its insertions are made, each before the first place where the comment of its
insertion point stands by then. Memory and the file system do not fail here.
-/

namespace Bebop.Cli

open Bytes Occurrences

/-- `bebopc_error_code_t`, as far as it is used here. -/
inductive ErrorCode where
  | ok
  | invalidArg
  | io
  | notFound
  deriving DecidableEq, Repr

/-- An item of `files` in a response. -/
structure ResponseFile where
  name : Option CString
  content : Option CString
  insertionPoint : Option CString

inductive WriteError where
  /-- "refusing file path outside output directory" -/
  | unsafeName (name : CString)
  /-- "file not found", of `bebopc_file_read` -/
  | fileNotFound (path : List UInt8)
  /-- "insertion point target not found" -/
  | targetNotFound (name : CString)
  /-- "insertion point name too long" -/
  | pointTooLong (point : CString)
  /-- "insertion point not found" -/
  | pointNotFound (point name : CString)

/-- The files below their paths, the errors, and `result`. -/
structure Output where
  files : List UInt8 → Option (List UInt8)
  errors : List WriteError
  result : ErrorCode

namespace Output

def write (out : Output) (path content : List UInt8) : Output :=
  { out with files := fun other => if other = path then some content else out.files other }

def fail (out : Output) (errors : List WriteError) (code : ErrorCode) : Output :=
  { out with errors := out.errors ++ errors, result := code }

end Output

/-! ## Names -/

def isPathSeparator (c : UInt8) : Bool := c = '/'.toUInt8 || c = '\\'.toUInt8

def isLetter (c : UInt8) : Bool :=
  ('A'.toUInt8 ≤ c && c ≤ 'Z'.toUInt8) || ('a'.toUInt8 ≤ c && c ≤ 'z'.toUInt8)

/-- `_plugin_file_name_is_safe` -/
def pluginFileNameIsSafe (name : List UInt8) : Bool :=
  match name with
  | [] => false
  | c :: rest =>
    !isPathSeparator c && !(isLetter c && rest.head? = some ':'.toUInt8) &&
      !(name.splitOnP isPathSeparator).contains ['.'.toUInt8, '.'.toUInt8]

/-- `bebopc_path_join` -/
def pathJoin (dir file : List UInt8) : List UInt8 := dir.rdropWhile isPathSeparator ++ '/'.toUInt8 :: file

/-! ## Insertion points -/

/-- `"// @@bebop_insertion_point("` -/
def opening : List UInt8 := "// @@bebop_insertion_point(".toList.map Char.toUInt8

/-- `marker` -/
def marker (point : CString) : List UInt8 := opening ++ point.bytes ++ [')'.toUInt8]

/-- `sizeof(marker)` -/
def markerSize : Nat := 256

def writeFile (outDir : List UInt8) (out : Output) (file : ResponseFile) : Output :=
  match file.name, file.content, file.insertionPoint with
  | some name, some content, none =>
    if pluginFileNameIsSafe name.bytes then out.write (pathJoin outDir name.bytes) content.bytes
    else out.fail [.unsafeName name] .invalidArg
  | _, _, _ => out

/-- What the second loop does with a file that has an insertion point. -/
def insertContent (outDir : List UInt8) (out : Output) (name content point : CString) : Output :=
  if ¬pluginFileNameIsSafe name.bytes then out.fail [.unsafeName name] .invalidArg
  else
    match out.files (pathJoin outDir name.bytes) with
    | none => out.fail [.fileNotFound (pathJoin outDir name.bytes), .targetNotFound name] .io
    | some fileContent =>
      if markerSize ≤ (marker point).length then out.fail [.pointTooLong point] .invalidArg
      else
        -- `strstr` looks up to the first NUL
        match first (marker point) (cstr fileContent) with
        | none => out.fail [.pointNotFound point name] .notFound
        | some beforeLen =>
          if fileContent.length < beforeLen + (marker point).length then out.fail [] .invalidArg
          else out.write (pathJoin outDir name.bytes)
            (fileContent.take beforeLen ++ content.bytes ++ fileContent.drop beforeLen)

def insertFile (outDir : List UInt8) (out : Output) (file : ResponseFile) : Output :=
  match file.name, file.content, file.insertionPoint with
  | some name, some content, some point => insertContent outDir out name content point
  | _, _, _ => out

/-- `_write_generated_files` -/
def writeGeneratedFiles (outDir : List UInt8) (disk : List UInt8 → Option (List UInt8)) (response : List ResponseFile) :
    Output :=
  response.foldl (insertFile outDir) (response.foldl (writeFile outDir) ⟨disk, [], .ok⟩)

/-! ## What is meant -/

structure Insertion where
  name : CString
  content : CString
  point : CString

def ResponseFile.insertion (file : ResponseFile) : Option Insertion :=
  match file.name, file.content, file.insertionPoint with
  | some name, some content, some point => some ⟨name, content, point⟩
  | _, _, _ => none

namespace Insertion

def path (outDir : List UInt8) (i : Insertion) : List UInt8 := pathJoin outDir i.name.bytes

def marker (i : Insertion) : List UInt8 := Cli.marker i.point

end Insertion

def insertions (response : List ResponseFile) : List Insertion := response.filterMap ResponseFile.insertion

def addressed (outDir path : List UInt8) (insertions : List Insertion) : List Insertion :=
  insertions.filter fun i => i.path outDir = path

/-- The contents for the marker at a place of a file, in the order of the response. -/
def contentsAt (original : List UInt8) (insertions : List Insertion) (k : Nat) : List UInt8 :=
  (insertions.filter fun i => first i.marker original = some k).flatMap fun i => i.content.bytes

/-- The file, with the contents for each marker directly before it. -/
def inserted (original : List UInt8) (insertions : List Insertion) : List UInt8 :=
  weave (contentsAt original insertions) original

/-- The markers of insertions into a file stand in it once at most, do not begin in one another
and have room in `marker`; and no content has a marker, or makes one with what it stands by. -/
structure Undisturbed (original : List UInt8) (insertions : List Insertion) : Prop where
  text : 0 ∉ original
  fits : ∀ i ∈ insertions, 0 < count i.marker original → i.marker.length < markerSize
  apart : ∀ i ∈ insertions, '/'.toUInt8 ∉ i.point.bytes
  once : ∀ i ∈ insertions, count i.marker original ≤ 1
  unmade : ∀ done, done <+: insertions → ∀ i ∈ insertions,
    count i.marker (inserted original done) ≤ count i.marker original

/-! ## Markers -/

section

variable {p : CString}

theorem marker_ne_nil (p : CString) : marker p ≠ [] := by
  unfold marker
  simp

theorem twofold_marker (hslash : '/'.toUInt8 ∉ p.bytes) : Twofold '/'.toUInt8 (marker p) := by
  have hopening : ∀ j < opening.length, 2 ≤ j → opening[j]? ≠ some '/'.toUInt8 := by decide
  refine ⟨rfl, rfl, fun j hj h => ?_, ?_⟩
  · unfold marker at h
    rw [List.append_assoc] at h
    by_cases hlt : j < opening.length
    · rw [List.getElem?_append_left hlt] at h
      exact hopening j hlt hj h
    · rw [List.getElem?_append_right (Nat.le_of_not_lt hlt)] at h
      rcases List.mem_append.mp (List.mem_of_getElem? h) with hpoint | hend
      · exact hslash hpoint
      · exact absurd (List.mem_singleton.mp hend) (by decide)
  · have hlength : opening.length = 27 := by decide
    unfold marker
    simp only [List.length_append, hlength]
    omega

end

/-! ## An insertion -/

section

variable {outDir original : List UInt8} {done : List Insertion} {i : Insertion} {k : Nat} {out : Output}

theorem contentsAt_append (original : List UInt8) (done : List Insertion) (i : Insertion) (j : Nat) :
    contentsAt original (done ++ [i]) j =
      contentsAt original done j ++ if first i.marker original = some j then i.content.bytes else [] := by
  unfold contentsAt
  rw [List.filter_append, List.flatMap_append]
  refine congrArg (_ ++ ·) ?_
  by_cases hplace : first i.marker original = some j
  · simp [hplace]
  · simp [hplace]

theorem inserted_append (hplace : first i.marker original = some k) (hk : k < original.length) :
    inserted original (done ++ [i]) = front (contentsAt original done) original k ++ i.content.bytes ++
      back (contentsAt original done) original k := by
  rw [← weave_put (contentsAt original done) i.content.bytes hk]
  refine weave_congr fun j _ => ?_
  rw [contentsAt_append, hplace]
  by_cases hj : j = k
  · rw [hj, if_pos rfl, if_pos rfl]
  · rw [if_neg hj, if_neg fun h => hj (Option.some.inj h).symm, List.append_nil]

theorem inserted_append_none (hplace : first i.marker original = none) :
    inserted original (done ++ [i]) = inserted original done := by
  refine weave_congr fun j _ => ?_
  rw [contentsAt_append, hplace, if_neg fun h => (by cases h), List.append_nil]

theorem zero_not_mem_inserted (htext : 0 ∉ original) : 0 ∉ inserted original done := by
  intro h
  rcases mem_weave h with h | ⟨k, h⟩
  · exact htext h
  · obtain ⟨j, -, hj⟩ := List.mem_flatMap.mp h
    exact j.content.terminated hj

theorem at_inserted (hslash : '/'.toUInt8 ∉ i.point.bytes) (hothers : ∀ j ∈ done, '/'.toUInt8 ∉ j.point.bytes)
    (hplace : first i.marker original = some k)
    (hk : k < original.length) :
    At i.marker (inserted original done) (front (contentsAt original done) original k).length := by
  have hat := at_of_first hplace
  refine at_weave hat hk fun j hj hlt => ?_
  unfold contentsAt
  rw [List.flatMap_eq_nil_iff]
  intro other hother
  obtain ⟨hmem, hfirst⟩ := List.mem_filter.mp hother
  have hinside := at_of_first (of_decide_eq_true hfirst)
  exact absurd hinside ((twofold_marker hslash).apart (twofold_marker (hothers other hmem)) hat hj hlt)

theorem insertContent_found (hsafe : pluginFileNameIsSafe i.name.bytes)
    (hfile : out.files (i.path outDir) = some (inserted original done))
    (hplace : first i.marker original = some k) (htext : 0 ∉ original) (hfits : i.marker.length < markerSize)
    (hslash : '/'.toUInt8 ∉ i.point.bytes) (hothers : ∀ j ∈ done, '/'.toUInt8 ∉ j.point.bytes)
    (honce : count i.marker (inserted original done) ≤ 1) :
    insertContent outDir out i.name i.content i.point = out.write (i.path outDir) (inserted original (done ++ [i])) := by
  have hne := marker_ne_nil i.point
  have hk := (at_of_first hplace).lt_length hne
  have hat := at_inserted hslash hothers hplace hk
  have hroom := hat.add_length_le hne
  have hcstr : cstr (inserted original done) = inserted original done :=
    cstr_of_terminated (zero_not_mem_inserted htext)
  have hfirst := first_of_at hne hat honce
  have hsplit : inserted original done =
      front (contentsAt original done) original k ++ back (contentsAt original done) original k := weave_split _ hk
  unfold insertContent
  rw [if_neg (not_not.mpr hsafe)]
  unfold Insertion.path Insertion.marker at *
  rw [hfile]
  dsimp only
  rw [if_neg (Nat.not_le_of_lt hfits), hcstr, hfirst]
  dsimp only
  rw [if_neg (Nat.not_lt_of_le hroom), inserted_append hplace hk]
  refine congrArg (out.write _) ?_
  rw [hsplit, List.take_left, List.drop_left]

def WriteError.Reports (i : Insertion) : WriteError → Prop
  | .targetNotFound name => name = i.name
  | .pointTooLong point => point = i.point
  | .pointNotFound point name => point = i.point ∧ name = i.name
  | .unsafeName _ | .fileNotFound _ => False

theorem insertContent_missing (hsafe : pluginFileNameIsSafe i.name.bytes)
    (hmissing : ∀ text, out.files (i.path outDir) = some text → 0 ∉ text ∧ count i.marker text = 0) :
    ∃ errors code, code ≠ .ok ∧ (∃ e ∈ errors, e.Reports i) ∧
      insertContent outDir out i.name i.content i.point = out.fail errors code := by
  unfold insertContent
  rw [if_neg (not_not.mpr hsafe)]
  unfold Insertion.path at hmissing
  cases hfile : out.files (pathJoin outDir i.name.bytes) with
  | none => exact ⟨_, .io, (by decide), ⟨.targetNotFound i.name, List.mem_cons_of_mem _ List.mem_cons_self, rfl⟩, rfl⟩
  | some text =>
    obtain ⟨htext, hcount⟩ := hmissing text hfile
    have hfirst : first (marker i.point) (cstr text) = none := by
      rw [cstr_of_terminated htext]
      exact (first_eq_none_iff (marker_ne_nil i.point)).mpr hcount
    dsimp only
    split
    · exact ⟨_, .invalidArg, (by decide), ⟨.pointTooLong i.point, List.mem_cons_self, rfl⟩, rfl⟩
    · rw [hfirst]
      exact ⟨_, .notFound, (by decide), ⟨.pointNotFound i.point i.name, List.mem_cons_self, rfl, rfl⟩, rfl⟩

end

/-! ## All insertions -/

theorem foldl_insertFile (outDir : List UInt8) (response : List ResponseFile) (out : Output) :
    response.foldl (insertFile outDir) out =
      (insertions response).foldl (fun out i => insertContent outDir out i.name i.content i.point) out := by
  induction response generalizing out with
  | nil => rfl
  | cons file response ih =>
    rw [List.foldl_cons, ih]
    unfold insertions insertFile ResponseFile.insertion
    obtain ⟨_ | name, _ | content, _ | point⟩ := file <;> rfl

section

variable {outDir : List UInt8} {written : List UInt8 → Option (List UInt8)} {done all : List Insertion} {i : Insertion}
  {out : Output}

structure Made (outDir : List UInt8) (written : List UInt8 → Option (List UInt8)) (done : List Insertion) (out : Output) :
    Prop where
  files : ∀ path, out.files path = (written path).map fun original => inserted original (addressed outDir path done)
  reported : ∀ i ∈ done, (∀ original, written (i.path outDir) = some original → count i.marker original = 0) →
    out.result ≠ .ok ∧ ∃ e ∈ out.errors, e.Reports i

theorem addressed_append (path : List UInt8) : addressed outDir path (done ++ [i]) =
    addressed outDir path done ++ if i.path outDir = path then [i] else [] := by
  unfold addressed
  rw [List.filter_append]
  by_cases hpath : i.path outDir = path
  · simp [hpath]
  · simp [hpath]

theorem Made.write (h : Made outDir written done out) {original : List UInt8}
    (hfile : written (i.path outDir) = some original) (hthere : 0 < count i.marker original) :
    Made outDir written (done ++ [i])
      (out.write (i.path outDir) (inserted original (addressed outDir (i.path outDir) done ++ [i]))) := by
  constructor
  · intro path
    rw [addressed_append]
    show (if path = i.path outDir then _ else out.files path) = _
    by_cases hpath : path = i.path outDir
    · rw [if_pos hpath, hpath, if_pos rfl, hfile]
      rfl
    · rw [if_neg hpath, if_neg fun h => hpath h.symm, List.append_nil]
      exact h.files path
  · intro j hj hmissing
    rcases List.mem_append.mp hj with hold | hnew
    · exact h.reported j hold hmissing
    · obtain rfl := List.mem_singleton.mp hnew
      exact absurd (hmissing original hfile) (Nat.ne_of_gt hthere)

theorem Made.fail (h : Made outDir written done out) {errors : List WriteError} {code : ErrorCode} (hcode : code ≠ .ok)
    (hreports : ∃ e ∈ errors, e.Reports i)
    (hmissing : ∀ original, written (i.path outDir) = some original → count i.marker original = 0) :
    Made outDir written (done ++ [i]) (out.fail errors code) := by
  constructor
  · intro path
    show out.files path = _
    rw [h.files path]
    cases hwritten : written path with
    | none => rfl
    | some original =>
      refine congrArg some ?_
      rw [addressed_append]
      by_cases hpath : i.path outDir = path
      · subst hpath
        rw [if_pos rfl]
        exact (inserted_append_none ((first_eq_none_iff (marker_ne_nil i.point)).mpr (hmissing original hwritten))).symm
      · rw [if_neg hpath, List.append_nil]
  · intro j hj hnone
    refine ⟨hcode, ?_⟩
    rcases List.mem_append.mp hj with hold | hnew
    · obtain ⟨-, e, he, hreport⟩ := h.reported j hold hnone
      exact ⟨e, List.mem_append_left _ he, hreport⟩
    · obtain rfl := List.mem_singleton.mp hnew
      obtain ⟨e, he, hreport⟩ := hreports
      exact ⟨e, List.mem_append_right _ he, hreport⟩

theorem Made.step (h : Made outDir written done out) (hsafe : pluginFileNameIsSafe i.name.bytes)
    (hprior : done ++ [i] <+: all)
    (hundisturbed : ∀ path original, written path = some original → Undisturbed original (addressed outDir path all)) :
    Made outDir written (done ++ [i]) (insertContent outDir out i.name i.content i.point) := by
  have hmem : i ∈ addressed outDir (i.path outDir) all :=
    List.mem_filter.mpr ⟨hprior.subset (List.mem_append_right _ List.mem_cons_self), decide_eq_true rfl⟩
  have hdone : addressed outDir (i.path outDir) done <+: addressed outDir (i.path outDir) all :=
    ((List.prefix_append done [i]).trans hprior).filter _
  have hfile := h.files (i.path outDir)
  by_cases hthere : ∃ original, written (i.path outDir) = some original ∧ 0 < count i.marker original
  · obtain ⟨original, hwritten, hcount⟩ := hthere
    have hclean := hundisturbed _ _ hwritten
    rw [hwritten] at hfile
    have honce : count i.marker (inserted original (addressed outDir (i.path outDir) done)) ≤ 1 :=
      (hclean.unmade _ hdone i hmem).trans (hclean.once i hmem)
    cases hplace : first i.marker original with
    | none => exact absurd ((first_eq_none_iff (marker_ne_nil i.point)).mp hplace) (Nat.ne_of_gt hcount)
    | some k =>
      rw [insertContent_found hsafe hfile hplace hclean.text (hclean.fits i hmem hcount) (hclean.apart i hmem)
        (fun j hj => hclean.apart j (hdone.subset hj)) honce]
      exact h.write hwritten hcount
  · have hmissing (original : List UInt8) (hwritten : written (i.path outDir) = some original) : count i.marker original = 0 :=
      Nat.eq_zero_of_not_pos fun hcount => hthere ⟨original, hwritten, hcount⟩
    have hgone (text : List UInt8) (htext : out.files (i.path outDir) = some text) :
    0 ∉ text ∧ count i.marker text = 0 := by
      rw [hfile] at htext
      obtain ⟨original, hwritten, rfl⟩ := Option.map_eq_some_iff.mp htext
      have hclean := hundisturbed _ _ hwritten
      refine ⟨zero_not_mem_inserted hclean.text, Nat.le_zero.mp ?_⟩
      exact (hclean.unmade _ hdone i hmem).trans (Nat.le_of_eq (hmissing original hwritten))
    obtain ⟨errors, code, hcode, hreports, heq⟩ := insertContent_missing hsafe hgone
    rw [heq]
    exact h.fail hcode hreports hmissing

theorem Made.run (h : Made outDir written done out) {rest : List Insertion}
    (hsafe : ∀ i ∈ rest, pluginFileNameIsSafe i.name.bytes)
    (hundisturbed : ∀ path original, written path = some original → Undisturbed original (addressed outDir path (done ++ rest))) :
    Made outDir written (done ++ rest) (rest.foldl (fun out i => insertContent outDir out i.name i.content i.point) out) := by
  induction rest generalizing done out with
  | nil =>
    rw [List.append_nil]
    exact h
  | cons i rest ih =>
    have hassoc : done ++ i :: rest = done ++ [i] ++ rest := List.append_cons done i rest
    rw [hassoc] at hundisturbed ⊢
    have hnext := h.step (hsafe i List.mem_cons_self) (List.prefix_append _ _) hundisturbed
    exact ih hnext (fun j hj => hsafe j (List.mem_cons_of_mem _ hj)) hundisturbed

end

theorem insertions_land (outDir : List UInt8) (disk : List UInt8 → Option (List UInt8)) (response : List ResponseFile)
    (hsafe : ∀ i ∈ insertions response, pluginFileNameIsSafe i.name.bytes)
    (hundisturbed : ∀ path original, (response.foldl (writeFile outDir) ⟨disk, [], .ok⟩).files path = some original →
      Undisturbed original (addressed outDir path (insertions response))) :
    Made outDir (response.foldl (writeFile outDir) ⟨disk, [], .ok⟩).files (insertions response)
      (writeGeneratedFiles outDir disk response) := by
  unfold writeGeneratedFiles
  rw [foldl_insertFile]
  have hnone : Made outDir (response.foldl (writeFile outDir) ⟨disk, [], .ok⟩).files []
      (response.foldl (writeFile outDir) ⟨disk, [], .ok⟩) := by
    refine ⟨fun path => ?_, fun i hi => (by cases hi)⟩
    cases (response.foldl (writeFile outDir) ⟨disk, [], .ok⟩).files path with
    | none => rfl
    | some original => exact congrArg some (weave_nothing original).symm
  exact hnone.run hsafe hundisturbed

end Bebop.Cli
