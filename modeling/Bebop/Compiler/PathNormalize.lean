import Bebop.Lib.CString
import Bebop.Lib.LexicalPath

/-!
# Bebop — paths as keys of the work list

`bebop__normalize_path`, `bebop__path_normalize_into` and `bebop__path_mark` of `bebop.c`. The
normaliser works in place: its first loop ends every part of the path with a zero and keeps
where the parts start, its second moves them together. `max` is `PATH_MAX`.
-/

namespace Bebop.Compiler

open Bytes LexicalPath

def slash : UInt8 := 0x2f

def dot : UInt8 := 0x2e

theorem slash_ne_zero : slash ≠ 0 := by decide

theorem zero_ne_slash : 0 ≠ slash := slash_ne_zero.symm

theorem zero_ne_dot : 0 ≠ dot := by decide

theorem slash_ne_dot : slash ≠ dot := by decide

/-! ## `bebop__normalize_path` -/

structure PathScan where
  path : List UInt8
  p : Nat
  parts : List Nat
  escapes : Nat

/-- `while (*p == '/') p++` -/
def skipSlashes (path : List UInt8) (p : Nat) : Nat :=
  p + ((path.drop p).takeWhile (· = slash)).length

/-- `while (*p && *p != '/') p++` -/
def componentEnd (path : List UInt8) (p : Nat) : Nat :=
  p + ((path.drop p).takeWhile fun c => c ≠ 0 ∧ c ≠ slash).length

/-- The rest of one pass of the first loop, for the component at `start`. -/
def scanComponent (st : PathScan) (start : Nat) : Option PathScan :=
  let p := componentEnd st.path start
  let len := p - start
  let next := if charAt st.path p = slash then p + 1 else p
  if len = 1 ∧ charAt st.path start = dot then some { st with p := next }
  else if len = 2 ∧ charAt st.path start = dot ∧ charAt st.path (start + 1) = dot then
    if 0 < st.parts.length then some { st with p := next, parts := st.parts.dropLast }
    else some { st with p := next, escapes := st.escapes + 1 }
  else do
    -- the separator behind a part becomes its terminator
    let path ← (if charAt st.path p = slash then store st.path p 0 else some st.path : Option _)
    return { st with path, p := next, parts := st.parts ++ [start] }

theorem charAt_skipSlashes (path : List UInt8) (p : Nat) :
    charAt path (skipSlashes path p) ≠ slash := by
  have hsplit := List.takeWhile_append_dropWhile (p := fun c => decide (c = slash)) (l := path.drop p)
  rw [skipSlashes, charAt_of_drop hsplit.symm]
  cases hrest : (path.drop p).dropWhile fun c => decide (c = slash) with
  | nil => decide
  | cons c rest =>
    have hhead := List.head_dropWhile_not (fun c => decide (c = slash)) (l := path.drop p)
    simp only [hrest] at hhead
    have hc := hhead (List.cons_ne_nil c rest)
    exact of_decide_eq_false hc

theorem lt_componentEnd {path : List UInt8} {p : Nat} (h0 : charAt path p ≠ 0)
    (hslash : charAt path p ≠ slash) : p < componentEnd path p := by
  have hp := lt_length_of_charAt h0
  have hget : charAt path p = path[p] := by simp [charAt, hp]
  rw [hget] at h0 hslash
  rw [componentEnd, List.drop_eq_getElem_cons hp, List.takeWhile_cons_of_pos (by simp [h0, hslash]),
    List.length_cons]
  omega

theorem scanComponent_progress {st st' : PathScan} {start : Nat} (h0 : charAt st.path start ≠ 0)
    (hslash : charAt st.path start ≠ slash) (h : scanComponent st start = some st') :
    st'.path.length - st'.p < st.path.length - start := by
  have hstart := lt_length_of_charAt h0
  have hend := lt_componentEnd h0 hslash
  have hnext : componentEnd st.path start ≤
      (if charAt st.path (componentEnd st.path start) = slash then componentEnd st.path start + 1
        else componentEnd st.path start) := by
    split <;> omega
  unfold scanComponent at h
  simp only at h
  split at h
  · cases h
    simp only
    omega
  · split at h
    · split at h <;> cases h <;> simp only <;> omega
    · obtain ⟨path, hpath, h⟩ := Option.bind_eq_some_iff.mp h
      cases h
      have hlen : path.length = st.path.length := by
        split at hpath
        · exact store_length hpath
        · cases hpath
          rfl
      simp only [hlen]
      omega

def scanLoop (max : Nat) (st : PathScan) : Option PathScan :=
  if charAt st.path st.p = 0 ∨ max / 2 ≤ st.parts.length then some st
  else
    let start := skipSlashes st.path st.p
    if h0 : charAt st.path start = 0 then some { st with p := start }
    else
      match h : scanComponent st start with
      | none => none
      | some st' => scanLoop max st'
termination_by st.path.length - st.p
decreasing_by
  have hstep := scanComponent_progress h0 (charAt_skipSlashes _ _) h
  have hstart : st.p ≤ start := Nat.le_add_right _ _
  omega

/-- The second loop, from some part on; `first` says that nothing was written yet. -/
def copyParts (first : Bool) (path : List UInt8) (out : Nat) : List Nat → Option (List UInt8 × Nat)
  | [] => some (path, out)
  | part :: parts => do
    let (path, out) ←
      (if first then some (path, out)
      else (store path out slash).map fun path => (path, out + 1) : Option _)
    let len := strlen path part
    let path ← memmove path out part len
    copyParts false path (out + len) parts

/-- What `bebop__normalize_path` returns, what it leaves at `escape_count`, and the buffer. -/
structure Normalized where
  ok : Bool
  escapeCount : Option Nat
  path : List UInt8

/-- `bebop__normalize_path`; `none` where it writes outside the buffer. -/
def normalizePath (max : Nat) (path : List UInt8) (size : Nat) : Option Normalized :=
  if size = 0 ∨ charAt path 0 = 0 then some ⟨false, none, path⟩
  else do
    let is_absolute := charAt path 0 == slash
    let st ← scanLoop max ⟨path, 0, [], 0⟩
    let (path, out) ←
      (if is_absolute then (store st.path 0 slash).map fun path => (path, 1)
      else some (st.path, 0) : Option _)
    let (path, out) ← copyParts true path out st.parts
    let (path, out) ←
      (if out = 0 then
        (store path out (if is_absolute then slash else dot)).map fun path => (path, out + 1)
      else some (path, out) : Option _)
    let path ← store path out 0
    return ⟨true, some st.escapes, path⟩

/-! ## `bebop__path_mark` -/

/-- `bebop__path_normalize_into`, whose caller gets no escapes. -/
def pathNormalizeInto (max : Nat) (path : List UInt8) (size : Nat) : Option (List UInt8) := do
  let norm := path.take (size - 1) ++ [0]
  let normalized ← normalizePath max norm size
  return normalized.path

/-- `bebop__path_mark`; `stored` says that a new path could be allocated. -/
def pathMark (max : Nat) (seen : List (List UInt8)) (path : CString) (stored : Bool) :
    Option (Bool × List (List UInt8)) := do
  let norm ← pathNormalizeInto max path.bytes max
  let key := cstr norm
  if key ∈ seen then some (true, seen)
  else some (false, if stored then key :: seen else seen)

/-! ## Parts in the buffer -/

/-- Parts from `lo` on, each with its text and a terminator, all before `hi`. -/
inductive Laid (buf : List UInt8) : Nat → List Nat → List (List UInt8) → Nat → Prop
  | nil {lo hi} : lo ≤ hi → Laid buf lo [] [] hi
  | cons {lo i c parts names hi} : lo ≤ i → TextAt buf i c →
      Laid buf (i + c.length + 1) parts names hi → Laid buf lo (i :: parts) (c :: names) hi

namespace Laid

variable {buf buf' : List UInt8} {lo hi : Nat} {parts : List Nat} {names : List (List UInt8)}

theorem le (h : Laid buf lo parts names hi) : lo ≤ hi := by
  induction h with
  | nil h => exact h
  | cons hlo _ _ ih => omega

theorem mono (h : Laid buf lo parts names hi) {hi' : Nat} (hhi : hi ≤ hi') :
    Laid buf lo parts names hi' := by
  induction h with
  | nil h => exact .nil (Nat.le_trans h hhi)
  | cons hlo htext _ ih => exact .cons hlo htext (ih hhi)

theorem length_eq (h : Laid buf lo parts names hi) : parts.length = names.length := by
  induction h with
  | nil => rfl
  | cons _ _ _ ih => rw [List.length_cons, List.length_cons, ih]

theorem zero_not_mem (h : Laid buf lo parts names hi) : ∀ c ∈ names, 0 ∉ c := by
  induction h with
  | nil => nofun
  | cons _ htext _ ih => exact List.forall_mem_cons.mpr ⟨htext.1, ih⟩

theorem concat (h : Laid buf lo parts names hi) {i : Nat} {c : List UInt8} (hi' : hi ≤ i)
    (htext : TextAt buf i c) : Laid buf lo (parts ++ [i]) (names ++ [c]) (i + c.length + 1) := by
  induction h with
  | nil h => exact .cons (Nat.le_trans h hi') htext (.nil (Nat.le_refl _))
  | cons hlo htext' _ ih => exact .cons hlo htext' (ih hi')

theorem dropLast (h : Laid buf lo parts names hi) : Laid buf lo parts.dropLast names.dropLast hi := by
  induction h with
  | nil h => exact .nil h
  | @cons lo i c parts names hi hlo htext hrest ih =>
    cases hrest with
    | nil h => exact .nil (by omega)
    | cons hlo' htext' hrest' =>
      rw [List.dropLast_cons_cons, List.dropLast_cons_cons]
      exact .cons hlo htext ih

theorem of_store (h : Laid buf lo parts names hi) {j : Nat} (hj : hi ≤ j) {v : UInt8}
    (hstore : store buf j v = some buf') : Laid buf' lo parts names hi := by
  unfold store at hstore
  split at hstore
  · cases hstore
    induction h with
    | nil h => exact .nil h
    | cons hlo htext hrest ih =>
      have hle := hrest.le
      exact .cons hlo (htext.set (by omega) v) (ih hj)
  · cases hstore

theorem of_drop (h : Laid buf lo parts names hi) {k : Nat} (hk : k ≤ lo)
    (hdrop : buf'.drop k = buf.drop k) : Laid buf' lo parts names hi := by
  induction h with
  | nil h => exact .nil h
  | cons hlo htext _ ih => exact .cons hlo (htext.of_drop (by omega) hdrop) (ih (by omega))

end Laid

/-! ## The first loop -/

theorem skipSlashes_eq {path front u : List UInt8} {p : Nat} (hdrop : path.drop p = front ++ u)
    (hfront : ∀ a ∈ front, a = slash) (hu : u.headD 0 ≠ slash) :
    skipSlashes path p = p + front.length := by
  have htake : u.takeWhile (fun a => decide (a = slash)) = [] := by
    cases u with
    | nil => rfl
    | cons a u => exact List.takeWhile_cons_of_neg (by simpa using hu)
  rw [skipSlashes, hdrop, List.takeWhile_append_of_pos (by simpa using hfront), htake, List.append_nil]

theorem componentEnd_eq {path c u : List UInt8} {start : Nat} (hdrop : path.drop start = c ++ u)
    (hzero : 0 ∉ c) (hslash : slash ∉ c) (hu : u.headD 0 = 0 ∨ u.headD 0 = slash) :
    componentEnd path start = start + c.length := by
  have hc : ∀ a ∈ c, decide (a ≠ 0 ∧ a ≠ slash) = true := by
    intro a ha
    apply decide_eq_true
    constructor
    · rintro rfl
      exact hzero ha
    · rintro rfl
      exact hslash ha
  have htake : u.takeWhile (fun a => decide (a ≠ 0 ∧ a ≠ slash)) = [] := by
    cases u with
    | nil => rfl
    | cons a u =>
      apply List.takeWhile_cons_of_neg
      rcases hu with hu | hu <;> simp only [List.headD_cons] at hu <;> simp [hu]
  rw [componentEnd, hdrop, List.takeWhile_append_of_pos hc, htake, List.append_nil]

theorem isDot_iff {path c u : List UInt8} {start : Nat} (hdrop : path.drop start = c ++ u) :
    (c.length = 1 ∧ charAt path start = dot) ↔ c = [dot] := by
  have hread : charAt path start = (c ++ u).headD 0 := charAt_of_drop (a := []) hdrop
  rw [hread]
  match c with
  | [] => simp
  | [a] => simp
  | _ :: _ :: _ => simp

theorem isDots_iff {path c u : List UInt8} {start : Nat} (hdrop : path.drop start = c ++ u) :
    (c.length = 2 ∧ charAt path start = dot ∧ charAt path (start + 1) = dot) ↔ c = [dot, dot] := by
  have hread : charAt path start = (c ++ u).headD 0 := charAt_of_drop (a := []) hdrop
  rw [hread]
  match c with
  | [] => simp
  | [_] => simp
  | [a, b] =>
    have hread' : charAt path (start + 1) = b := charAt_of_drop (a := [a]) hdrop
    simp [hread']
  | _ :: _ :: _ :: _ => simp

/-- What the first loop leaves: the lexical path so far, its names in the buffer before `hi`,
and the bytes from `next` on as they were. -/
structure Scanned (st : PathScan) (lo : Nat) (r : Resolved UInt8) (next hi : Nat)
    (st' : PathScan) : Prop where
  length : st'.path.length = st.path.length
  rest : st'.path.drop next = st.path.drop next
  escapes : st'.escapes = r.climbs
  laid : Laid st'.path lo st'.parts r.names hi

theorem Scanned.rest_of_le {st st' : PathScan} {lo next hi : Nat} {r : Resolved UInt8}
    (h : Scanned st lo r next hi st') {k : Nat} (hk : next ≤ k) :
    st'.path.drop k = st.path.drop k :=
  drop_eq_of_le h.rest hk

theorem Scanned.trans {st st' st'' : PathScan} {lo next hi next' hi' : Nat} {r r' : Resolved UInt8}
    (h : Scanned st lo r next hi st') (h' : Scanned st' lo r' next' hi' st'') (hle : next ≤ next') :
    Scanned st lo r' next' hi' st'' where
  length := h'.length.trans h.length
  rest := h'.rest.trans (h.rest_of_le hle)
  escapes := h'.escapes
  laid := h'.laid

theorem scanComponent_spec {st : PathScan} {start lo hi next : Nat} {c back : List UInt8} {sep : UInt8}
    {names : List (List UInt8)} (hdrop : st.path.drop start = c ++ sep :: back) (hzero : 0 ∉ c)
    (hslash : slash ∉ c) (hsep : sep = 0 ∨ sep = slash) (hlaid : Laid st.path lo st.parts names hi)
    (hhi : hi ≤ start) (hnext : next = if sep = slash then start + c.length + 1 else start + c.length) :
    ∃ st', scanComponent st start = some st' ∧ st'.p = next ∧
      st'.parts.length ≤ st.parts.length + 1 ∧
      Scanned st lo (Resolved.step dot ⟨st.escapes, names⟩ c) next (start + c.length + 1) st' := by
  have hend := componentEnd_eq hdrop hzero hslash hsep
  have hread : charAt st.path (start + c.length) = sep := charAt_of_drop hdrop
  have hlonger : hi ≤ start + c.length + 1 := by omega
  unfold scanComponent Resolved.step
  simp only [hend, hread, ← hnext, Nat.add_sub_cancel_left, isDot_iff hdrop, isDots_iff hdrop]
  by_cases hdot : c = [dot]
  · simp only [if_pos hdot]
    exact ⟨_, rfl, rfl, Nat.le_succ _, rfl, rfl, rfl, hlaid.mono hlonger⟩
  by_cases hdots : c = [dot, dot]
  · simp only [if_neg hdot, if_pos hdots]
    by_cases hparts : 0 < st.parts.length
    · -- the last name goes, its bytes stay where they are
      have hnames : names ≠ [] := by
        intro hnil
        rw [hlaid.length_eq, hnil] at hparts
        exact absurd hparts (Nat.lt_irrefl 0)
      simp only [if_pos hparts, if_neg hnames]
      refine ⟨_, rfl, rfl, ?_, rfl, rfl, rfl, hlaid.dropLast.mono hlonger⟩
      simp only [List.length_dropLast]
      omega
    · have hnames : names = [] := by
        rw [hlaid.length_eq] at hparts
        exact List.length_eq_zero_iff.mp (by omega)
      simp only [if_neg hparts, if_pos hnames]
      exact ⟨_, rfl, rfl, Nat.le_succ _, rfl, rfl, rfl, hlaid.mono hlonger⟩
  simp only [if_neg hdot, if_neg hdots]
  have hadded : (st.parts ++ [start]).length ≤ st.parts.length + 1 := by simp
  rcases hsep with rfl | rfl
  · -- the component ends the path, its terminator is there
    have htext : TextAt st.path start c := ⟨hzero, back, hdrop⟩
    rw [if_neg zero_ne_slash]
    exact ⟨_, rfl, rfl, hadded, rfl, rfl, rfl, hlaid.concat hhi htext⟩
  · have hlt : start + c.length < st.path.length := by
      apply lt_length_of_charAt
      rw [hread]
      exact slash_ne_zero
    obtain ⟨path, hstore, hlen, -, hrest⟩ := store_eq hlt 0
    have htext := TextAt.of_store hzero hdrop hstore
    have hlaid' := (hlaid.of_store (by omega) hstore).concat hhi htext
    rw [if_pos rfl] at hnext ⊢
    rw [hstore]
    refine ⟨_, rfl, rfl, hadded, hlen, ?_, rfl, hlaid'⟩
    rw [hnext]
    exact hrest

theorem headD_append_ne {c : List UInt8} {a : UInt8} (hne : c ≠ []) (h : a ∉ c) (u : List UInt8) :
    (c ++ u).headD 0 ≠ a := by
  cases c with
  | nil => exact absurd rfl hne
  | cons b c =>
    rintro rfl
    exact h List.mem_cons_self

theorem scanLoop_end (max : Nat) (st : PathScan) (h : charAt st.path st.p = 0) :
    scanLoop max st = some st := by
  rw [scanLoop, if_pos (.inl h)]

theorem scanLoop_step {max : Nat} (st : PathScan) {front u : List UInt8}
    (hdrop : st.path.drop st.p = front ++ u) (hfront : ∀ a ∈ front, a = slash)
    (hu : u.headD 0 ≠ slash) (h0 : (front ++ u).headD 0 ≠ 0) (hroom : 2 * st.parts.length + 1 < max) :
    scanLoop max st =
      if u.headD 0 = 0 then some { st with p := st.p + front.length }
      else (scanComponent st (st.p + front.length)).bind (scanLoop max) := by
  have hread : charAt st.path st.p = (front ++ u).headD 0 := charAt_of_drop (a := []) hdrop
  have hread' := charAt_of_drop hdrop
  have hstart := skipSlashes_eq hdrop hfront hu
  have hgo : ¬(charAt st.path st.p = 0 ∨ max / 2 ≤ st.parts.length) := by
    rw [hread]
    rintro (h | h)
    · exact h0 h
    · omega
  rw [scanLoop, if_neg hgo]
  simp only [hstart, hread']
  split
  · rfl
  · split <;> next h =>
      rw [hstart] at h
      rw [h]
      rfl

theorem scanLoop_spec {max lo : Nat} (s : List UInt8) (hzero : 0 ∉ s) (st : PathScan) {junk : List UInt8}
    {names : List (List UInt8)} (hdrop : st.path.drop st.p = s ++ 0 :: junk)
    (hlaid : Laid st.path lo st.parts names st.p) (hparts : 2 * st.parts.length ≤ st.p)
    (hmax : st.p + s.length < max) :
    ∃ st', scanLoop max st = some st' ∧
      Scanned st lo (Resolved.steps dot ⟨st.escapes, names⟩ (pieces slash s))
        (st.p + s.length + 1) (st.p + s.length + 1) st' := by
  induction s using pieces_induction slash generalizing st names with
  | nil front hfront =>
    have hpieces : pieces slash front = [] := by
      rw [← List.append_nil front, pieces_slashes hfront, pieces_nil]
    have hlaid' := hlaid.mono (show st.p ≤ st.p + front.length + 1 by omega)
    rw [hpieces]
    cases front with
    | nil => exact ⟨st, scanLoop_end max st (charAt_of_drop (a := []) hdrop), rfl, rfl, rfl, hlaid'⟩
    | cons a front =>
      have ha : a = slash := hfront a List.mem_cons_self
      have hroom : 2 * st.parts.length + 1 < max := by
        rw [List.length_cons] at hmax
        omega
      rw [scanLoop_step st hdrop hfront zero_ne_slash (by rw [ha]; exact slash_ne_zero) hroom]
      exact ⟨_, rfl, rfl, rfl, rfl, hlaid'⟩
  | last front c hfront hne hslash =>
    have hc0 : 0 ∉ c := fun h => hzero (List.mem_append_right _ h)
    have hfront0 := headD_append_ne (List.append_ne_nil_of_right_ne_nil front hne) hzero (0 :: junk)
    rw [List.append_assoc] at hdrop hfront0
    rw [List.length_append] at hmax ⊢
    have hpos := List.length_pos_iff.mpr hne
    obtain ⟨st', hscan, hp, -, hscanned⟩ := scanComponent_spec (drop_of_drop hdrop) hc0 hslash
      (.inl rfl) hlaid (Nat.le_add_right _ _) rfl
    rw [if_neg zero_ne_slash] at hp hscanned
    -- the next pass finds the terminator
    have hend : charAt st'.path st'.p = 0 := by
      have hrest : st'.path.drop st'.p = [] ++ 0 :: junk := by
        rw [hp, hscanned.rest]
        exact drop_of_drop (drop_of_drop hdrop)
      exact charAt_of_drop hrest
    rw [scanLoop_step st hdrop hfront (headD_append_ne hne hslash _) hfront0 (by omega),
      if_neg (headD_append_ne hne hc0 _), hscan, Option.bind_some, scanLoop_end max st' hend,
      pieces_slashes hfront, pieces_last hne hslash, ← Nat.add_assoc]
    exact ⟨st', rfl, hscanned.length, hscanned.rest_of_le (Nat.le_succ _), hscanned.escapes,
      hscanned.laid⟩
  | cons front c s hfront hne hslash ih =>
    have hc0 : 0 ∉ c := fun h => hzero (List.mem_append_right _ (List.mem_append_left _ h))
    have hs0 : 0 ∉ s := fun h =>
      hzero (List.mem_append_right _ (List.mem_append_right _ (List.mem_cons_of_mem _ h)))
    have hpath : st.path.drop st.p = front ++ (c ++ slash :: (s ++ 0 :: junk)) := by
      rw [hdrop]
      simp
    have hfront0 : (front ++ (c ++ slash :: (s ++ 0 :: junk))).headD 0 ≠ 0 := by
      have h := headD_append_ne (List.append_ne_nil_of_right_ne_nil front (by simp)) hzero (0 :: junk)
      simpa using h
    have hpos := List.length_pos_iff.mpr hne
    simp only [List.length_append, List.length_cons] at hmax ⊢
    obtain ⟨st', hscan, hp, hcount, hscanned⟩ := scanComponent_spec (drop_of_drop hpath) hc0 hslash
      (.inr rfl) hlaid (Nat.le_add_right _ _) rfl
    rw [if_pos rfl] at hp hscanned
    have hnext : st'.path.drop st'.p = s ++ 0 :: junk := by
      rw [hp, hscanned.rest]
      exact drop_of_drop (a := [slash]) (drop_of_drop (drop_of_drop hpath))
    have hlaid' := hscanned.laid
    rw [← hp] at hlaid'
    obtain ⟨st'', hloop, hscanned'⟩ := ih hs0 st' hnext hlaid' (by omega) (by omega)
    rw [scanLoop_step st hpath hfront (headD_append_ne hne hslash _) hfront0 (by omega),
      if_neg (headD_append_ne hne hc0 _), hscan, Option.bind_some, hloop, pieces_slashes hfront,
      pieces_cons hne hslash]
    have hposition : st'.p + s.length + 1 = st.p + (front.length + (c.length + (s.length + 1))) + 1 := by
      omega
    rw [hposition, hscanned.escapes] at hscanned'
    exact ⟨st'', rfl, hscanned.trans hscanned' (by omega)⟩

/-! ## The second loop -/

theorem intercalate_cons (a : UInt8) (c : List UInt8) (names : List (List UInt8)) :
    [a].intercalate (c :: names) = c ++ names.flatMap (a :: ·) := by
  induction names generalizing c with
  | nil => simp
  | cons name names ih =>
    rw [List.intercalate_cons_cons, ih, List.flatMap_cons]
    simp

/-- What the second loop leaves: the text behind what was there, and the bytes behind it as they were. -/
structure Copied (buf : List UInt8) (out : Nat) (text : List UInt8) (hi : Nat)
    (result : List UInt8 × Nat) : Prop where
  length : result.1.length = buf.length
  out_eq : result.2 = out + text.length
  room : result.2 < hi
  text_eq : result.1.take result.2 = buf.take out ++ text
  rest : result.1.drop result.2 = buf.drop result.2

theorem separator_eq (first : Bool) {buf : List UInt8} {lo out : Nat} (hlo : lo < buf.length)
    (hout : if first then out ≤ lo else out < lo) :
    ∃ buf' out', (if first then some (buf, out)
        else (store buf out slash).map fun path => (path, out + 1) : Option _) = some (buf', out') ∧
      buf'.length = buf.length ∧ out' ≤ lo ∧ out' = out + (if first then [] else [slash]).length ∧
      buf'.take out' = buf.take out ++ (if first then [] else [slash]) ∧
      buf'.drop out' = buf.drop out' := by
  cases first with
  | true => exact ⟨buf, out, rfl, rfl, hout, rfl, (List.append_nil _).symm, rfl⟩
  | false =>
    have hlt : out < lo := hout
    obtain ⟨buf', hstore, hlen, htake, hdrop⟩ := store_eq (Nat.lt_trans hlt hlo) slash
    refine ⟨buf', out + 1, ?_, hlen, hlt, rfl, htake, hdrop⟩
    rw [hstore]
    rfl

theorem copyParts_spec (first : Bool) {buf : List UInt8} {lo hi out : Nat} {parts : List Nat}
    {names : List (List UInt8)} (h : Laid buf lo parts names hi)
    (hout : if first then out ≤ lo else out < lo) (hhi : out < hi) :
    ∃ result, copyParts first buf out parts = some result ∧
      Copied buf out (if first then [slash].intercalate names else names.flatMap (slash :: ·)) hi
        result := by
  induction parts generalizing first buf lo out names with
  | nil =>
    cases h
    refine ⟨(buf, out), rfl, rfl, ?_, hhi, ?_, rfl⟩ <;> cases first <;> simp
  | cons i parts ih =>
    cases h with
    | @cons _ _ c _ names _ hlo htext hrest =>
    have hlt : i < buf.length := Nat.lt_of_le_of_lt (Nat.le_add_right _ _) htext.lt_length
    have houti : if first then out ≤ i else out < i := by
      cases first with
      | true => exact Nat.le_trans hout hlo
      | false => exact Nat.lt_of_lt_of_le hout hlo
    obtain ⟨buf₁, out₁, hsep, hlen₁, hle₁, hout₁, htake₁, hdrop₁⟩ := separator_eq first hlt houti
    have htext₁ := htext.of_drop hle₁ hdrop₁
    obtain ⟨buf₂, hmove, hlen₂, htake₂, hdrop₂⟩ := memmove_eq htext₁ hle₁
    have hdrop : buf₂.drop (out₁ + c.length) = buf.drop (out₁ + c.length) := by
      rw [hdrop₂, drop_eq_of_le hdrop₁ (Nat.le_add_right _ _)]
    -- what is moved ends before the terminator of its part
    have hrest₂ := hrest.of_drop (by omega) hdrop
    have hle := hrest.le
    obtain ⟨result, hcopy, hcopied⟩ := ih false hrest₂
      (show out₁ + c.length < i + c.length + 1 by omega) (by omega)
    have hcopied : Copied buf₂ (out₁ + c.length) (names.flatMap (slash :: ·)) hi result := hcopied
    have htext : (if first then [slash].intercalate (c :: names) else (c :: names).flatMap (slash :: ·))
        = (if first then [] else [slash]) ++ (c ++ names.flatMap (slash :: ·)) := by
      cases first with
      | true => exact intercalate_cons slash c names
      | false => rfl
    refine ⟨result, ?_, ?_⟩
    · simp only [copyParts, hsep, Option.bind_eq_bind, Option.bind_some, htext₁.strlen, hmove, hcopy]
    rw [htext]
    constructor
    · rw [hcopied.length, hlen₂, hlen₁]
    · rw [hcopied.out_eq, hout₁, List.length_append, List.length_append]
      omega
    · exact hcopied.room
    · rw [hcopied.text_eq, htake₂, htake₁]
      simp only [List.append_assoc]
    · have hle : out₁ + c.length ≤ result.2 := by
        rw [hcopied.out_eq]
        exact Nat.le_add_right _ _
      rw [hcopied.rest, drop_eq_of_le hdrop hle]

/-! ## The normalized path -/

theorem scanLoop_slash {max : Nat} {s : List UInt8} (hmax : 1 < max) :
    scanLoop max ⟨slash :: s, 0, [], 0⟩ = scanLoop max ⟨slash :: s, 1, [], 0⟩ := by
  obtain ⟨front, u, hs, hfront, hu⟩ := exists_front slash s
  have hu' : u.headD 0 ≠ slash := by
    cases u with
    | nil => exact zero_ne_slash
    | cons a u => simpa using hu
  have hfront' : ∀ a ∈ slash :: front, a = slash := List.forall_mem_cons.mpr ⟨rfl, hfront⟩
  have hdrop : (slash :: s).drop 0 = (slash :: front) ++ u := by rw [hs]; rfl
  rw [scanLoop_step ⟨slash :: s, 0, [], 0⟩ hdrop hfront' hu' slash_ne_zero hmax]
  by_cases h0 : (front ++ u).headD 0 = 0
  · -- there is nothing behind the separator
    have hread : charAt (slash :: s) 1 = 0 := by
      rw [hs]
      exact (charAt_of_drop (a := []) (p := 1) rfl).trans h0
    have hnil : front = [] := by
      cases front with
      | nil => rfl
      | cons a front =>
        have ha : a = 0 := h0
        exact absurd (ha ▸ hfront a List.mem_cons_self) zero_ne_slash
    rw [hnil, List.nil_append] at h0
    rw [if_pos h0, scanLoop_end max ⟨slash :: s, 1, [], 0⟩ hread, hnil]
    rfl
  · have hdrop' : (slash :: s).drop 1 = front ++ u := hs
    rw [scanLoop_step ⟨slash :: s, 1, [], 0⟩ hdrop' hfront hu' h0 hmax]
    simp only [List.length_cons, Nat.zero_add, Nat.add_comm front.length 1]
    rfl

theorem scanLoop_whole {max : Nat} {s : List UInt8} (hne : s ≠ []) (hzero : 0 ∉ s)
    (hmax : s.length < max) (junk : List UInt8) :
    ∃ st, scanLoop max ⟨s ++ 0 :: junk, 0, [], 0⟩ = some st ∧
      Scanned ⟨s ++ 0 :: junk, 0, [], 0⟩ (if isAbsolute slash s then 1 else 0) (resolve slash dot s)
        (s.length + 1) (s.length + 1) st := by
  by_cases habs : s.head? = some slash
  · obtain ⟨t, rfl⟩ : ∃ t, s = slash :: t := List.head?_eq_some_iff.mp habs
    have ht : 0 ∉ t := fun h => hzero (List.mem_cons_of_mem _ h)
    rw [List.length_cons] at hmax ⊢
    obtain ⟨st, hloop, hscanned⟩ := scanLoop_spec t ht ⟨slash :: (t ++ 0 :: junk), 1, [], 0⟩
      rfl (.nil (Nat.le_refl 1)) (Nat.zero_le 1) (show 1 + t.length < max by omega)
    have hresolve : resolve slash dot (slash :: t) = Resolved.steps dot ⟨0, []⟩ (pieces slash t) := by
      rw [resolve, pieces_slash]
    have hend : 1 + t.length + 1 = t.length + 1 + 1 := by omega
    rw [hend, ← hresolve] at hscanned
    refine ⟨st, (scanLoop_slash (by omega)).trans hloop, ?_⟩
    rw [if_pos (by simp [isAbsolute])]
    exact ⟨hscanned.length, hscanned.rest, hscanned.escapes, hscanned.laid⟩
  · obtain ⟨st, hloop, hscanned⟩ := scanLoop_spec s hzero ⟨s ++ 0 :: junk, 0, [], 0⟩ rfl
      (.nil (Nat.le_refl 0)) (Nat.le_refl 0) (show 0 + s.length < max by omega)
    rw [Nat.zero_add] at hscanned
    refine ⟨st, hloop, ?_⟩
    rw [if_neg (by simpa [isAbsolute] using habs)]
    exact hscanned

theorem root_eq (absolute : Bool) (path : List UInt8) (hpath : path ≠ []) :
    ∃ path' out', (if absolute then (store path 0 slash).map fun path => (path, 1)
        else some (path, 0) : Option _) = some (path', out') ∧
      path'.length = path.length ∧ out' = (if absolute then 1 else 0) ∧
      path'.take out' = (if absolute then [slash] else []) ∧ path'.drop out' = path.drop out' := by
  cases absolute with
  | false => exact ⟨path, 0, rfl, rfl, rfl, rfl, rfl⟩
  | true =>
    obtain ⟨path', hstore, hlen, htake, hdrop⟩ := store_eq (List.length_pos_iff.mpr hpath) slash
    refine ⟨path', 1, ?_, hlen, rfl, htake, hdrop⟩
    rw [hstore]
    rfl

theorem dot_eq {absolute : Bool} {names : List (List UInt8)} {path : List UInt8} {out n : Nat}
    (hnames : ∀ c ∈ names, IsName slash dot c)
    (hout : out = (if absolute then 1 else 0) + ([slash].intercalate names).length)
    (htake : path.take out = (if absolute then [slash] else []) ++ [slash].intercalate names)
    (hroom : out < n + 1) (hn : 0 < n) (hlen : n < path.length) :
    ∃ path' out', (if out = 0 then (store path out (if absolute then slash else dot)).map
          fun path => (path, out + 1)
        else some (path, out) : Option _) = some (path', out') ∧
      path'.length = path.length ∧ out' < n + 1 ∧ path'.take out' = render slash dot absolute names ∧
      path'.drop (n + 1) = path.drop (n + 1) := by
  cases absolute with
  | true =>
    have hne : out ≠ 0 := by
      rw [hout, if_pos rfl]
      omega
    exact ⟨path, out, if_neg hne, rfl, hroom, htake, rfl⟩
  | false =>
    have hout : out = ([slash].intercalate names).length := by simpa using hout
    by_cases hnil : names = []
    · have hzero : out = 0 := by
        rw [hout, hnil]
        rfl
      obtain ⟨path', hstore, hlen', htake', hdrop'⟩ := store_eq (show 0 < path.length by omega) dot
      refine ⟨path', 1, ?_, hlen', by omega, ?_, ?_⟩
      · rw [if_pos hzero, hzero, if_neg Bool.false_ne_true, hstore]
        rfl
      · rw [htake', hnil]
        rfl
      · exact drop_eq_of_le hdrop' (by omega)
    · have hne : out ≠ 0 := by
        rw [hout]
        intro hzero
        exact hnil ((intercalate_eq_nil hnames).mp (List.length_eq_zero_iff.mp hzero))
      refine ⟨path, out, if_neg hne, rfl, hroom, ?_, rfl⟩
      rw [htake, render, if_neg Bool.false_ne_true, if_neg hnil]
      rfl

theorem normalizePath_spec {max size : Nat} {s : List UInt8} (hne : s ≠ []) (hzero : 0 ∉ s)
    (hmax : s.length < max) (hsize : size ≠ 0) (junk : List UInt8) :
    ∃ path back, normalizePath max (s ++ 0 :: junk) size
        = some ⟨true, some (resolve slash dot s).climbs, path⟩ ∧
      path = render slash dot (isAbsolute slash s) (resolve slash dot s).names ++ 0 :: back ∧
      0 ∉ render slash dot (isAbsolute slash s) (resolve slash dot s).names ∧
      (render slash dot (isAbsolute slash s) (resolve slash dot s).names).length ≤ s.length ∧
      path.drop (s.length + 1) = junk := by
  have h0 : charAt (s ++ 0 :: junk) 0 ≠ 0 := by
    rw [charAt_eq]
    exact headD_append_ne hne hzero _
  have habs : (charAt (s ++ 0 :: junk) 0 == slash) = isAbsolute slash s := by
    cases s with
    | nil => exact absurd rfl hne
    | cons a s => simp [charAt, isAbsolute, Bool.beq_eq_decide_eq]
  have hpos := List.length_pos_iff.mpr hne
  have hlen : (s ++ 0 :: junk).length = s.length + 1 + junk.length := by
    simp only [List.length_append, List.length_cons]
    omega
  obtain ⟨st, hscan, hscanned⟩ := scanLoop_whole hne hzero hmax junk
  have hlen₁ : st.path.length = (s ++ 0 :: junk).length := hscanned.length
  have hne₁ : st.path ≠ [] := by
    intro hnil
    rw [hnil] at hlen₁
    simp at hlen₁
  obtain ⟨path₂, out₂, hroot, hlen₂, hout₂, htake₂, hdrop₂⟩ :=
    root_eq (isAbsolute slash s) st.path hne₁
  have hlaid₂ := hscanned.laid.of_drop (Nat.le_of_eq hout₂) hdrop₂
  have hend₂ : out₂ < s.length + 1 := by
    rw [hout₂]
    split <;> omega
  obtain ⟨⟨path₃, out₃⟩, hcopy, hcopied⟩ := copyParts_spec true hlaid₂ (Nat.le_of_eq hout₂) hend₂
  have hcopied : Copied path₂ out₂ ([slash].intercalate (resolve slash dot s).names) (s.length + 1)
      (path₃, out₃) := hcopied
  obtain ⟨hlen₃, hout₃, hroom₃, htake₃, hdrop₃⟩ := hcopied
  simp only at hlen₃ hout₃ hroom₃ htake₃ hdrop₃
  have hnames : ∀ c ∈ (resolve slash dot s).names, IsName slash dot c := resolve_isName s
  rw [hout₂] at hout₃
  rw [htake₂] at htake₃
  obtain ⟨path₄, out₄, hdot, hlen₄, hroom₄, htake₄, hdrop₄⟩ :=
    dot_eq hnames hout₃ htake₃ hroom₃ hpos (by omega)
  obtain ⟨path₅, back, hend, htext, hdrop₅⟩ := store_terminator (by omega) htake₄
  refine ⟨path₅, back, ?_, htext, ?_, ?_, ?_⟩
  · simp only [normalizePath, hsize, h0, false_or, if_false, habs, hscan, hroot, hcopy, hdot, hend,
      Option.bind_eq_bind, Option.bind_some, hscanned.escapes]
    rfl
  · intro hmem
    rcases mem_render hmem with h | h | ⟨c, hc, h⟩
    · exact zero_ne_slash h
    · exact zero_ne_dot h
    · exact hscanned.laid.zero_not_mem c hc h
  · rw [← htake₄, List.length_take]
    omega
  · -- nothing behind the terminator of the string was touched
    have hfrom₂ := drop_eq_of_le hdrop₂ (Nat.le_of_lt hend₂)
    have hfrom₃ := drop_eq_of_le hdrop₃ (Nat.le_of_lt hroom₃)
    rw [hdrop₅ _ hroom₄, hdrop₄, hfrom₃, hfrom₂, hscanned.rest]
    show (s ++ 0 :: junk).drop (s.length + 1) = junk
    rw [List.append_cons, List.drop_left' (by simp)]

end Bebop.Compiler
