import Bebop.Cli.GeneratedFiles
import Bebop.Lib.LexicalPath

/-!
# Bebop — the output directory of a plugin

`_plugin_file_name_is_safe` and `bebopc_path_join`, against where the written paths lead.
The join drops all separators at the end of the directory and puts one in front of the
name, so an empty directory, which is the current one, becomes the root, and so does a bare
drive on Windows. A name of dots alone passes the check and leads to the directory itself.
-/

namespace Bebop.Cli

open LexicalPath

/-! ## The code -/

variable (windows : Bool)

/-- `bebopc_path_join`, on both platforms. -/
def pathJoinOn (dir file : List UInt8) : List UInt8 :=
  dir.rdropWhile isPathSeparator ++ (if windows then '\\'.toUInt8 else '/'.toUInt8) :: file

theorem pathJoinOn_posix : pathJoinOn false = pathJoin := rfl

/-! ## Where a path leads -/

/-- `.` -/
def dot : UInt8 := '.'.toUInt8

/-- What stands between the separators, of which there are two. -/
def components (path : List UInt8) : List (List UInt8) := (path.splitOnP isPathSeparator).filter (· ≠ [])

/-- The drive in front of a path, and the path without it. -/
def splitDrive (path : List UInt8) : Option UInt8 × List UInt8 :=
  match path with
  | c :: colon :: rest =>
    if windows && isLetter c && colon = ':'.toUInt8 then (some c, rest) else (none, path)
  | _ => (none, path)

structure Place where
  drive : Option UInt8
  absolute : Bool
  resolved : Resolved UInt8
  deriving DecidableEq

def place (path : List UInt8) : Place where
  drive := (splitDrive windows path).1
  absolute := (splitDrive windows path).2.head?.any isPathSeparator
  resolved := Resolved.steps dot ⟨0, []⟩ (components (splitDrive windows path).2)

/-- The components of the one place are those of the other, and at least one more. -/
def Place.Within (inner outer : Place) : Prop :=
  inner.drive = outer.drive ∧ inner.absolute = outer.absolute ∧ inner.resolved.climbs = outer.resolved.climbs ∧
    ∃ names, names ≠ [] ∧ inner.resolved.names = outer.resolved.names ++ names

def HasName (name : List UInt8) : Prop := ∃ c ∈ components name, c ≠ [dot]

def HasPath (dir : List UInt8) : Prop := (splitDrive windows dir).2 ≠ []

/-- The path that is written for a name, if it can be opened, leads into the directory. -/
def StaysInside (opens : List UInt8 → Bool) (outDir name : List UInt8) : Prop :=
  pluginFileNameIsSafe name = true → opens (pathJoinOn windows outDir name) = true →
    (place windows (pathJoinOn windows outDir name)).Within (place windows outDir)

/-! ## The join -/

theorem isPathSeparator_join :
    isPathSeparator (if windows then '\\'.toUInt8 else '/'.toUInt8) = true := by
  cases windows <;> decide

theorem components_append {separator : UInt8} (h : isPathSeparator separator = true) (a b : List UInt8) :
    components (a ++ separator :: b) = components a ++ components b := by
  unfold components
  rw [List.splitOnP_append_cons a b h, List.filter_append]

theorem components_rdropWhile (dir : List UInt8) : components (dir.rdropWhile isPathSeparator) = components dir := by
  induction dir using List.reverseRecOn with
  | nil => rfl
  | append_singleton dir c ih =>
    by_cases hc : isPathSeparator c = true
    · rw [List.rdropWhile_concat_pos _ _ _ hc, ih, components_append hc]
      exact (List.append_nil _).symm
    · rw [List.rdropWhile_concat_neg _ _ _ hc]

theorem rdropWhile_cons_cons (c : UInt8) {d : UInt8} (hd : isPathSeparator d = false) (rest : List UInt8) :
    (c :: d :: rest).rdropWhile isPathSeparator = c :: d :: rest.rdropWhile isPathSeparator := by
  induction rest using List.reverseRecOn with
  | nil => exact List.rdropWhile_concat_neg _ [c] d (by simp [hd])
  | append_singleton rest x ih =>
    rw [← List.cons_append, ← List.cons_append]
    by_cases hx : isPathSeparator x = true
    · rw [List.rdropWhile_concat_pos _ _ _ hx, List.rdropWhile_concat_pos _ _ _ hx, ih]
    · rw [List.rdropWhile_concat_neg _ _ _ hx, List.rdropWhile_concat_neg _ _ _ hx]
      rfl

theorem splitDrive_of_not {windows : Bool} {path : List UInt8}
    (h : ∀ c rest, path = c :: ':'.toUInt8 :: rest → (windows && isLetter c) = false) :
    splitDrive windows path = (none, path) := by
  unfold splitDrive
  split
  · rename_i c colon rest
    split
    · rename_i hdrive
      rw [Bool.and_eq_true, decide_eq_true_eq] at hdrive
      obtain ⟨hletter, rfl⟩ := hdrive
      rw [h c rest rfl] at hletter
      cases hletter
    · rfl
  · rfl

theorem splitDrive_of {windows : Bool} {c : UInt8} (h : (windows && isLetter c) = true) (rest : List UInt8) :
    splitDrive windows (c :: ':'.toUInt8 :: rest) = (some c, rest) := by
  unfold splitDrive
  dsimp only
  rw [h]
  rfl

theorem isLetter_of_isPathSeparator {c : UInt8} (h : isPathSeparator c = true) : isLetter c = false := by
  unfold isPathSeparator at h
  rw [Bool.or_eq_true, decide_eq_true_eq, decide_eq_true_eq] at h
  rcases h with rfl | rfl <;> decide

theorem splitDrive_join (dir name : List UInt8) : splitDrive windows (pathJoinOn windows dir name) =
      ((splitDrive windows dir).1, pathJoinOn windows (splitDrive windows dir).2 name) := by
  by_cases hdrive : ∃ c rest, dir = c :: ':'.toUInt8 :: rest ∧ (windows && isLetter c) = true
  · obtain ⟨c, rest, rfl, hletter⟩ := hdrive
    have hjoin : pathJoinOn windows (c :: ':'.toUInt8 :: rest) name =
        c :: ':'.toUInt8 :: pathJoinOn windows rest name := by
      unfold pathJoinOn
      rw [rdropWhile_cons_cons c (by decide)]
      rfl
    rw [hjoin, splitDrive_of hletter, splitDrive_of hletter]
  · have hnone : ∀ c rest, dir = c :: ':'.toUInt8 :: rest → (windows && isLetter c) = false := by
      intro c rest hdir
      by_contra hletter
      exact hdrive ⟨c, rest, hdir, by simpa using hletter⟩
    rw [splitDrive_of_not hnone]
    apply splitDrive_of_not
    intro c rest hpath
    have hseparator := isPathSeparator_join windows
    unfold pathJoinOn at hpath
    generalize (if windows then '\\'.toUInt8 else '/'.toUInt8) = separator at hpath hseparator
    obtain ⟨tail, hdir⟩ := List.rdropWhile_prefix isPathSeparator (l := dir)
    -- what is left of the directory is nothing, one byte, or its first two
    match htrim : dir.rdropWhile isPathSeparator with
    | [] =>
      rw [htrim] at hpath
      obtain ⟨rfl, -⟩ := List.cons.inj hpath
      rw [isLetter_of_isPathSeparator hseparator, Bool.and_false]
    | [x] =>
      rw [htrim] at hpath
      obtain ⟨-, htail⟩ := List.cons.inj hpath
      obtain ⟨rfl, -⟩ := List.cons.inj htail
      exact absurd hseparator (by decide)
    | x :: y :: trimmed =>
      rw [htrim] at hpath hdir
      obtain ⟨rfl, htail⟩ := List.cons.inj hpath
      obtain ⟨rfl, -⟩ := List.cons.inj htail
      exact hnone x (trimmed ++ tail) hdir.symm

theorem place_join (dir name : List UInt8) (h : pluginFileNameIsSafe name = true) :
    place windows (pathJoinOn windows dir name) = { place windows dir with
      absolute := (place windows dir).absolute || (splitDrive windows dir).2 = [],
      resolved := { (place windows dir).resolved with
        names := (place windows dir).resolved.names ++ (components name).filter (· ≠ [dot]) } } := by
  have hseparator := isPathSeparator_join windows
  unfold place
  rw [splitDrive_join]
  generalize (splitDrive windows dir).2 = rest
  have hcomponents : components (pathJoinOn windows rest name) = components rest ++ components name := by
    unfold pathJoinOn
    rw [components_append hseparator, components_rdropWhile]
  have hdots : [dot, dot] ∉ components name := by
    intro hmem
    obtain ⟨hsplit, -⟩ := List.mem_filter.mp hmem
    unfold pluginFileNameIsSafe at h
    split at h
    · cases h
    · rw [Bool.and_eq_true, Bool.not_eq_true'] at h
      cases h.2.symm.trans (List.contains_iff_mem.mpr hsplit)
  have habsolute : (pathJoinOn windows rest name).head?.any isPathSeparator =
      (rest.head?.any isPathSeparator || decide (rest = [])) := by
    unfold pathJoinOn
    cases rest with
    | nil => simpa using hseparator
    | cons c rest =>
      cases htrim : (c :: rest).rdropWhile isPathSeparator with
      | nil =>
        -- the directory is made of separators, and the join begins with one as well
        have hall := List.rdropWhile_eq_nil_iff.mp htrim c List.mem_cons_self
        simp [hall, hseparator]
      | cons x trimmed =>
        obtain ⟨tail, hdir⟩ := List.rdropWhile_prefix isPathSeparator (l := c :: rest)
        rw [htrim] at hdir
        obtain ⟨rfl, -⟩ := List.cons.inj hdir
        simp
  rw [habsolute, hcomponents, Resolved.steps_append, Resolved.steps_of_noDots hdots]

theorem filter_components_ne_nil {name : List UInt8} :
    (components name).filter (· ≠ [dot]) ≠ [] ↔ HasName name := by
  rw [ne_eq, List.filter_eq_nil_iff, not_forall]
  unfold HasName
  refine exists_congr fun c => ?_
  simp

theorem staysInside_iff (opens : List UInt8 → Bool) (outDir name : List UInt8) :
    StaysInside windows opens outDir name ↔
      pluginFileNameIsSafe name = false ∨ opens (pathJoinOn windows outDir name) = false ∨
        HasPath windows outDir ∧ HasName name := by
  unfold StaysInside
  by_cases hsafe : pluginFileNameIsSafe name = true
  · by_cases hopens : opens (pathJoinOn windows outDir name) = true
    · simp only [hsafe, hopens, true_implies, Bool.true_eq_false, false_or]
      rw [place_join windows outDir name hsafe, ← filter_components_ne_nil]
      unfold Place.Within HasPath
      have habsolute : ((place windows outDir).absolute || decide ((splitDrive windows outDir).2 = [])) =
          (place windows outDir).absolute ↔ (splitDrive windows outDir).2 ≠ [] := by
        unfold place
        dsimp only
        cases (splitDrive windows outDir).2 with
        | nil => simp
        | cons c rest => simp
      constructor
      · rintro ⟨-, hroot, -, names, hne, hnames⟩
        exact ⟨habsolute.mp hroot, List.append_cancel_left hnames ▸ hne⟩
      · rintro ⟨hpath, hname⟩
        exact ⟨rfl, habsolute.mpr hpath, rfl, _, hname, rfl⟩
    · simp [hsafe, hopens]
  · simp [hsafe]

theorem pluginFileNameIsSafe_of {name : List UInt8} (hroot : name.head?.any isPathSeparator = false)
    (hdrive : (splitDrive true name).1 = none) (hdots : [dot, dot] ∉ components name) (hname : HasName name) :
    pluginFileNameIsSafe name = true := by
  cases name with
  | nil =>
    obtain ⟨c, hc, -⟩ := hname
    cases hc
  | cons c rest =>
    have hletter : (isLetter c && decide (rest.head? = some ':'.toUInt8)) = false := by
      rw [← Bool.not_eq_true, Bool.and_eq_true, decide_eq_true_eq]
      rintro ⟨hletter, hcolon⟩
      obtain ⟨rest, rfl⟩ := List.head?_eq_some_iff.mp hcolon
      rw [splitDrive_of (by rw [hletter]; rfl)] at hdrive
      cases hdrive
    have hsplit : ((c :: rest).splitOnP isPathSeparator).contains ['.'.toUInt8, '.'.toUInt8] = false := by
      refine Bool.eq_false_of_not_eq_true fun hmem => ?_
      exact hdots (List.mem_filter.mpr ⟨List.contains_iff_mem.mp hmem, by decide⟩)
    have hseparator : isPathSeparator c = false := by simpa using hroot
    unfold pluginFileNameIsSafe
    dsimp only
    rw [hseparator, hletter, hsplit]
    rfl

/-! ## The paths that are written -/

def Addressed (outDir : List UInt8) (response : List ResponseFile) (path : List UInt8) : Prop :=
  ∃ file ∈ response, ∃ name, file.name = some name ∧ pluginFileNameIsSafe name.bytes = true ∧
    path = pathJoin outDir name.bytes

theorem write_files_of_ne {out : Output} {path other content : List UInt8} (h : other ≠ path) :
    (out.write path content).files other = out.files other := if_neg h

theorem writeFile_files (outDir : List UInt8) (out : Output) (file : ResponseFile) {path : List UInt8}
    (h : ¬Addressed outDir [file] path) : (writeFile outDir out file).files path = out.files path := by
  unfold writeFile
  split
  · rename_i name content hname hcontent hpoint
    split
    · rename_i hsafe
      exact write_files_of_ne fun hpath => h ⟨file, List.mem_singleton_self file, name, hname, hsafe, hpath⟩
    · rfl
  · rfl

theorem insertFile_files (outDir : List UInt8) (out : Output) (file : ResponseFile) {path : List UInt8}
    (h : ¬Addressed outDir [file] path) : (insertFile outDir out file).files path = out.files path := by
  unfold insertFile
  split
  · rename_i name content point hname hcontent hpoint
    unfold insertContent
    split
    · rfl
    · rename_i hsafe
      have hne : path ≠ pathJoin outDir name.bytes := fun hpath =>
        h ⟨file, List.mem_singleton_self file, name, hname, not_not.mp hsafe, hpath⟩
      split
      · rfl
      · split
        · rfl
        · split
          · rfl
          · split
            · rfl
            · exact write_files_of_ne hne
  · rfl

theorem foldl_files {outDir path : List UInt8} {step : Output → ResponseFile → Output}
    (hstep : ∀ out file, ¬Addressed outDir [file] path → (step out file).files path = out.files path)
    {response : List ResponseFile} (h : ¬Addressed outDir response path) (out : Output) :
    (response.foldl step out).files path = out.files path := by
  induction response generalizing out with
  | nil => rfl
  | cons file response ih =>
    have hfile : ¬Addressed outDir [file] path := by
      rintro ⟨file', hmem, hrest⟩
      exact h ⟨file', List.mem_cons.mpr (.inl (List.mem_singleton.mp hmem)), hrest⟩
    have hresponse : ¬Addressed outDir response path := by
      rintro ⟨file', hmem, hrest⟩
      exact h ⟨file', List.mem_cons_of_mem _ hmem, hrest⟩
    rw [List.foldl_cons, ih hresponse, hstep out file hfile]

theorem writeGeneratedFiles_files {outDir path : List UInt8} (disk : List UInt8 → Option (List UInt8))
    {response : List ResponseFile} (h : ¬Addressed outDir response path) :
    (writeGeneratedFiles outDir disk response).files path = disk path := by
  unfold writeGeneratedFiles
  rw [foldl_files (fun out file => insertFile_files outDir out file) h,
    foldl_files (fun out file => writeFile_files outDir out file) h]

/-- Only paths of names that pass the check are written; a name that passes leads into the
directory exactly if it has a component and the directory is not empty. -/
theorem pluginOutput_inside_iff (outDir : List UInt8) : (∀ disk response path, ¬Addressed outDir response path →
      (writeGeneratedFiles outDir disk response).files path = disk path) ∧
    (∀ windows opens name, StaysInside windows opens outDir name ↔
      pluginFileNameIsSafe name = false ∨ opens (pathJoinOn windows outDir name) = false ∨
        HasPath windows outDir ∧ HasName name) ∧
    ∀ name : List UInt8, name.head?.any isPathSeparator = false → (splitDrive true name).1 = none →
      [dot, dot] ∉ components name → HasName name → pluginFileNameIsSafe name = true := by
  refine ⟨?_, fun windows opens name => staysInside_iff windows opens outDir name, ?_⟩
  · intro disk response path h
    exact writeGeneratedFiles_files disk h
  · intro name hroot hdrive hdots hname
    exact pluginFileNameIsSafe_of hroot hdrive hdots hname

/-- The name `a` in the current directory, written `""`, is written as `/a`. -/
theorem pluginOutput_leaves : ¬∀ windows opens outDir name, StaysInside windows opens outDir name := by
  intro h
  obtain ⟨-, hroot, -⟩ := h false (fun _ => true) [] ['a'.toUInt8] (by decide) rfl
  exact absurd hroot (by decide)

end Bebop.Cli
