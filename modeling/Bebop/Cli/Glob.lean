import Bebop.Lib.Wildcard
import Mathlib.Data.UInt

/-!
# Bebop — the glob patterns of `bebopc`

`bebopc_glob.c`, as far as it decides whether a path is one of a pattern. A path and a
pattern are the bytes of a string before its NUL. What the matcher walks along with
pointers it has here as the bytes that are left, and the segments of a path by their
numbers.
-/

namespace Bebop.Cli

open Wildcard

abbrev Segment := List UInt8

def star : UInt8 := '*'.toUInt8

def questionMark : UInt8 := '?'.toUInt8

/-! ## Inside a segment -/

/-- `BEBOPC_TOLOWER` -/
def tolower (c : UInt8) : UInt8 := if 'A'.toUInt8 ≤ c ∧ c ≤ 'Z'.toUInt8 then c + 32 else c

/-- `_glob_char_eq` -/
def globCharEq (a b : UInt8) (caseSensitive : Bool) : Bool :=
  if caseSensitive then a == b else tolower a == tolower b

/-- The pointers of `_glob_match_segment_n`: what is left of the pattern and of the name,
and both from the last star on (`star_p + 1` and `star_n`), which is not behind the name. -/
structure SegmentCursor where
  p : List UInt8
  n : List UInt8
  last : Option (List UInt8 × List UInt8)
  behind : ∀ from' ∈ last, n.length ≤ from'.2.length

namespace SegmentCursor

/-- The run of the last star has one more byte, and what is behind is tried again. -/
def retry : Option (List UInt8 × List UInt8) → SegmentCursor ⊕ Bool
  | some (starP, _ :: starN) => .inl ⟨starP, starN, some (starP, starN), fun _ h => Option.some.inj h ▸ Nat.le_refl _⟩
  | _ => .inr false

/-- A round of the loop of `_glob_match_segment_n`, or the answer behind it. -/
def step (caseSensitive : Bool) : SegmentCursor → SegmentCursor ⊕ Bool
  | ⟨p, [], _, _⟩ => .inr (p.dropWhile (· == star)).isEmpty
  | ⟨p, b :: n, last, behind⟩ =>
    if p.head? = some star then
      .inl ⟨p.tail, b :: n, some (p.tail, b :: n), fun _ h => Option.some.inj h ▸ Nat.le_refl _⟩
    else if p.head?.any fun a => a == questionMark || globCharEq a b caseSensitive then
      .inl ⟨p.tail, n, last, fun from' h => Nat.le_of_succ_le (behind from' h)⟩
    else retry last

def nameLeft (c : SegmentCursor) : Nat := c.last.elim (c.n.length + 1) fun from' => from'.2.length

theorem step_decreases {caseSensitive : Bool} {c c' : SegmentCursor} (h : c.step caseSensitive = .inl c') :
    Prod.Lex (· < ·) (· < ·) (c'.nameLeft, c'.p.length) (c.nameLeft, c.p.length) := by
  obtain ⟨p, n, last, behind⟩ := c
  cases n with
  | nil => cases h
  | cons b n =>
    rw [step] at h
    split at h
    · -- the star is the last one now
      rename_i hstar
      obtain ⟨p, rfl⟩ := List.head?_eq_some_iff.mp hstar
      cases h
      cases last with
      | none => exact .left _ _ (Nat.lt_succ_self _)
      | some from' =>
        rcases Nat.lt_or_eq_of_le (behind from' rfl) with hlt | heq
        · exact .left _ _ hlt
        · show Prod.Lex _ _ ((b :: n).length, p.length) (from'.2.length, p.length + 1)
          rw [heq]
          exact .right _ (Nat.lt_succ_self _)
    · split at h
      · rename_i htakes
        cases h
        cases p with
        | nil => cases htakes
        | cons a p =>
          cases last with
          | none => exact .left _ _ (Nat.lt_succ_self _)
          | some from' => exact .right _ (Nat.lt_succ_self _)
      · -- one byte less is left from the last star on
        match last, h with
        | some (starP, _ :: starN), h =>
          cases h
          exact .left _ _ (Nat.lt_succ_self _)
        | some (_, []), h => cases h
        | none, h => cases h

end SegmentCursor

/-- The loop of `_glob_match_segment_n`. -/
def globMatchSegmentLoop (caseSensitive : Bool) (c : SegmentCursor) : Bool :=
  match _h : c.step caseSensitive with
  | .inr matched => matched
  | .inl c' => globMatchSegmentLoop caseSensitive c'
termination_by (c.nameLeft, c.p.length)
decreasing_by exact SegmentCursor.step_decreases _h

/-- `_glob_match_segment_n` -/
def globMatchSegment (caseSensitive : Bool) (pattern name : List UInt8) : Bool :=
  globMatchSegmentLoop caseSensitive ⟨pattern, name, none, nofun⟩

/-! ## Segments -/

/-- `_glob_is_double_star` -/
def globIsDoubleStar (segment : Segment) : Bool := segment == [star, star]

def isSeparator (c : UInt8) : Bool := c == '/'.toUInt8 || c == '\\'.toUInt8

/-- The segments from `start` on, of which the bytes before `p` have been passed. -/
def globSplitLoop (passed : List UInt8) : List UInt8 → List Segment
  | [] => [passed]
  | c :: p => if isSeparator c then passed :: globSplitLoop [] p else globSplitLoop (passed ++ [c]) p

/-- `_glob_split_path` -/
def globSplitPath (path : List UInt8) : List Segment :=
  if path.isEmpty then [] else (globSplitLoop [] path).filter fun segment => !segment.isEmpty

/-- The loops of `_glob_match_segments`, up to the answer, or to a double star. -/
def globWalk (caseSensitive : Bool) (steps : Nat) : List Segment → List Segment → Bool ⊕ Nat
  | pattern :: patterns, segment :: segments =>
    if globIsDoubleStar pattern then .inr steps
    else if !globMatchSegment caseSensitive pattern segment then .inl false
    else globWalk caseSensitive (steps + 1) patterns segments
  | patterns, segments => .inl ((patterns.dropWhile globIsDoubleStar).isEmpty && segments.isEmpty)

def memoAnswer (memo : Option (List UInt8)) (i : Nat) : Option Bool :=
  match memo with
  | none => none
  | some entries => if entries.getD i 0 ≠ 0 then some (entries.getD i 0 == 1) else none

def memoStore (memo : Option (List UInt8)) (i : Nat) (matched : Bool) : Option (List UInt8) :=
  memo.map fun entries => entries.set i (if matched then 1 else 2)

theorem globWalk_bounds {caseSensitive : Bool} {steps k : Nat} {patterns segments : List Segment}
    (h : globWalk caseSensitive steps patterns segments = .inr k) :
    ∃ i, k = steps + i ∧ i < patterns.length ∧ i < segments.length := by
  induction patterns generalizing segments steps with
  | nil => cases h
  | cons pattern patterns ih =>
    cases segments with
    | nil => cases h
    | cons segment segments =>
      unfold globWalk at h
      split at h
      · cases h
        exact ⟨0, rfl, Nat.succ_pos _, Nat.succ_pos _⟩
      · split at h
        · cases h
        · obtain ⟨i, rfl, hpattern, hsegment⟩ := ih h
          exact ⟨i + 1, by omega, Nat.succ_lt_succ hpattern, Nat.succ_lt_succ hsegment⟩

/-- `_glob_match_segments`, with the table it leaves. -/
def globMatchSegments (caseSensitive : Bool) (patterns segments : List Segment) (pi si : Nat)
    (memo : Option (List UInt8)) : Bool × Option (List UInt8) :=
  let entry := pi * (segments.length + 1) + si
  match memoAnswer memo entry with
  | some matched => (matched, memo)
  | none =>
    let (matched, memo) :=
      match _h : globWalk caseSensitive 0 (patterns.drop pi) (segments.drop si) with
      | .inl matched => (matched, memo)
      | .inr k =>
        -- the double star has no segments, or one more
        let (matched, memo) := globMatchSegments caseSensitive patterns segments (pi + k + 1) (si + k) memo
        if matched then (true, memo)
        else globMatchSegments caseSensitive patterns segments (pi + k) (si + k + 1) memo
    (matched, memoStore memo entry matched)
termination_by (patterns.length - pi) + (segments.length - si)
decreasing_by
  all_goals
    obtain ⟨i, rfl, hpattern, hsegment⟩ := globWalk_bounds _h
    rw [List.length_drop] at hpattern hsegment
    omega

/-- `bebopc_glob_config_t`, as far as the matcher reads it. -/
structure GlobConfig where
  caseSensitive : Bool

/-- `bebopc_glob_match`, without a matcher or with the one of a configuration. -/
def globMatch (glob : Option GlobConfig) (pattern path : List UInt8) : Bool :=
  let patterns := globSplitPath pattern
  let segments := globSplitPath path
  let memo := List.replicate ((patterns.length + 1) * (segments.length + 1)) (0 : UInt8)
  (globMatchSegments (glob.elim false GlobConfig.caseSensitive) patterns segments 0 0 (some memo)).1

/-! ## What a pattern means -/

/-- The bytes that are one byte, up to their case where that does not count. -/
def SameByte (caseSensitive : Bool) (a b : UInt8) : Prop := a = b ∨ caseSensitive = false ∧ tolower a = tolower b

/-- `*` is any run of bytes, `?` is one byte, and any other byte is itself. -/
def byteItem (caseSensitive : Bool) (a : UInt8) : Item UInt8 :=
  if a = star then .many
  else if a = questionMark then .one fun _ => True
  else .one (SameByte caseSensitive a)

def GlobsSegment (caseSensitive : Bool) (pattern name : Segment) : Prop :=
  Matches (pattern.map (byteItem caseSensitive)) name

/-- `**` is any run of segments, and any other segment of a pattern is one segment. -/
def segmentItem (caseSensitive : Bool) (pattern : Segment) : Item Segment :=
  if pattern = [star, star] then .many else .one (GlobsSegment caseSensitive pattern)

/-- The segments between slashes and backslashes, without the empty ones. -/
def segmentsOf (path : List UInt8) : List Segment := (path.splitOnP isSeparator).filter fun segment => !segment.isEmpty

def Globs (caseSensitive : Bool) (pattern path : List UInt8) : Prop :=
  Matches ((segmentsOf pattern).map (segmentItem caseSensitive)) (segmentsOf path)

variable {caseSensitive : Bool}

/-! ## Inside a segment -/

theorem globCharEq_iff {a b : UInt8} : globCharEq a b caseSensitive = true ↔ SameByte caseSensitive a b := by
  unfold globCharEq SameByte
  cases caseSensitive
  · rw [if_neg Bool.false_ne_true, beq_iff_eq]
    exact ⟨fun h => .inr ⟨rfl, h⟩, fun h => h.elim (congrArg tolower) And.right⟩
  · rw [if_pos rfl, beq_iff_eq]
    exact ⟨.inl, fun h => h.elim id fun h => nomatch h.1⟩

theorem byteItem_star : byteItem caseSensitive star = .many := if_pos rfl

theorem byteItem_one {a : UInt8} (hstar : a ≠ star) : ∃ q, byteItem caseSensitive a = .one q ∧
    ∀ b, q b ↔ (a == questionMark || globCharEq a b caseSensitive) = true := by
  unfold byteItem
  rw [if_neg hstar]
  by_cases hmark : a = questionMark
  · rw [if_pos hmark, hmark]
    exact ⟨_, rfl, fun b => iff_of_true trivial rfl⟩
  · rw [if_neg hmark]
    refine ⟨_, rfl, fun b => ?_⟩
    rw [beq_eq_false_iff_ne.mpr hmark, Bool.false_or, globCharEq_iff]

theorem globsSegment_nil {p : List UInt8} :
    GlobsSegment caseSensitive p [] ↔ (p.dropWhile (· == star)).isEmpty = true := by
  unfold GlobsSegment
  induction p with
  | nil => exact iff_of_true .nil rfl
  | cons a p ih =>
    rw [List.map_cons]
    by_cases hstar : a = star
    · rw [hstar, byteItem_star, matches_many_nil, ih, @List.dropWhile_cons_of_pos _ (· == star) _ _ (beq_self_eq_true _)]
    · obtain ⟨q, hq, -⟩ := @byteItem_one caseSensitive a hstar
      rw [hq, @List.dropWhile_cons_of_neg _ (· == star) _ _ fun h => hstar (beq_iff_eq.mp h)]
      exact iff_of_false not_matches_one_nil Bool.false_ne_true

theorem not_globsSegment {p n : List UInt8} {b : UInt8} (hstar : p.head? ≠ some star)
    (htakes : ¬(p.head?.any fun a => a == questionMark || globCharEq a b caseSensitive) = true) :
    ¬GlobsSegment caseSensitive p (b :: n) := by
  unfold GlobsSegment
  cases p with
  | nil =>
    rw [List.map_nil, matches_nil]
    exact List.cons_ne_nil b n
  | cons a p =>
    obtain ⟨q, hq, hb⟩ := @byteItem_one caseSensitive a fun ha => hstar (congrArg some ha)
    rw [List.map_cons, hq, matches_one, hb]
    exact fun h => htakes h.1

namespace SegmentCursor

/-- The answer to a question that the cursor has still to find: what is left of the pattern is
one of what is left of the name, or the last star has a longer run. -/
def Asks (caseSensitive : Bool) (question : Prop) (c : SegmentCursor) : Prop :=
  match c.last with
  | none => question ↔ GlobsSegment caseSensitive c.p c.n
  | some (starP, starN) =>
    (question ↔ Matches (.many :: starP.map (byteItem caseSensitive)) starN) ∧
      -- between the star and here, the pattern has taken one byte with each of its own
      ∃ block matched, starP.map (byteItem caseSensitive) = block ++ c.p.map (byteItem caseSensitive) ∧
        starN = matched ++ c.n ∧ Each block matched

theorem Asks.at_star {question : Prop} {p n : List UInt8} {last : Option (List UInt8 × List UInt8)}
    {behind : ∀ from' ∈ last, n.length ≤ from'.2.length} (h : Asks caseSensitive question ⟨star :: p, n, last, behind⟩) :
    question ↔ Matches (.many :: p.map (byteItem caseSensitive)) n := by
  cases last with
  | none =>
    refine Iff.trans h ?_
    unfold GlobsSegment
    rw [List.map_cons, byteItem_star]
  | some from' =>
    obtain ⟨hquestion, block, matched, hblock, hmatched, heach⟩ := h
    rw [hblock, hmatched, List.map_cons, byteItem_star, matches_later_run heach] at hquestion
    exact hquestion

theorem Asks.at_longer_run {question : Prop} {p n starP starN : List UInt8} {b c : UInt8}
    {behind : ∀ from' ∈ some (starP, c :: starN), (b :: n).length ≤ from'.2.length}
    (h : Asks caseSensitive question ⟨p, b :: n, some (starP, c :: starN), behind⟩)
    (hstuck : ¬GlobsSegment caseSensitive p (b :: n)) :
    question ↔ Matches (.many :: starP.map (byteItem caseSensitive)) starN := by
  obtain ⟨hquestion, block, matched, hblock, hmatched, heach⟩ := h
  rw [matches_many_cons] at hquestion
  refine hquestion.trans (or_iff_right ?_)
  -- what was tried took a byte with each of its own, up to here
  dsimp only at hblock hmatched
  rw [hblock, hmatched, matches_each heach]
  exact hstuck

theorem Asks.step {question : Prop} {c c' : SegmentCursor} (h : c.Asks caseSensitive question)
    (hstep : c.step caseSensitive = .inl c') : c'.Asks caseSensitive question := by
  obtain ⟨p, n, last, behind⟩ := c
  cases n with
  | nil => cases hstep
  | cons b n =>
    rw [SegmentCursor.step] at hstep
    split at hstep
    · rename_i hstar
      obtain ⟨p, rfl⟩ := List.head?_eq_some_iff.mp hstar
      cases hstep
      exact ⟨h.at_star, [], [], rfl, rfl, each_nil⟩
    · rename_i hstar
      split at hstep
      · rename_i htakes
        cases hstep
        cases p with
        | nil => cases htakes
        | cons a p =>
          obtain ⟨q, hq, hb⟩ := @byteItem_one caseSensitive a fun ha => hstar (congrArg some ha)
          have hqb := (hb b).mpr htakes
          cases last with
          | none =>
            refine Iff.trans h ?_
            unfold GlobsSegment
            rw [List.map_cons, hq, matches_one, and_iff_right hqb]
            rfl
          | some from' =>
            obtain ⟨hquestion, block, matched, hblock, hmatched, heach⟩ := h
            refine ⟨hquestion, block ++ [.one q], matched ++ [b], ?_, ?_, heach.snoc hqb⟩
            · rw [hblock, List.map_cons, hq, List.append_assoc]
              rfl
            · rw [hmatched, List.append_assoc]
              rfl
      · rename_i htakes
        have hstuck := not_globsSegment (n := n) hstar htakes
        match last, hstep with
        | some (starP, _ :: starN), hstep =>
          cases hstep
          exact ⟨h.at_longer_run hstuck, [], [], rfl, rfl, each_nil⟩
        | some (_, []), hstep => cases hstep
        | none, hstep => cases hstep

theorem Asks.answer {question : Prop} {c : SegmentCursor} (h : c.Asks caseSensitive question) {matched : Bool}
    (hstep : c.step caseSensitive = .inr matched) : matched = true ↔ question := by
  obtain ⟨p, n, last, behind⟩ := c
  cases n with
  | nil =>
    cases hstep
    cases last with
    | none => exact (h.trans globsSegment_nil).symm
    | some from' =>
      obtain ⟨hquestion, block, matched, hblock, hmatched, heach⟩ := h
      rw [hblock, hmatched, List.append_nil, matches_at_end heach] at hquestion
      exact (hquestion.trans globsSegment_nil).symm
  | cons b n =>
    rw [SegmentCursor.step] at hstep
    split at hstep
    · cases hstep
    · rename_i hstar
      split at hstep
      · cases hstep
      · rename_i htakes
        have hstuck := not_globsSegment (n := n) hstar htakes
        match last, hstep with
        | some (starP, _ :: starN), hstep => cases hstep
        | some (starP, []), hstep =>
          -- a star is not behind the name
          exact absurd (behind _ rfl) (Nat.not_succ_le_zero _)
        | none, hstep =>
          cases hstep
          exact iff_of_false Bool.false_ne_true fun hquestion => hstuck (h.mp hquestion)

end SegmentCursor

theorem globMatchSegmentLoop_iff {question : Prop} (c : SegmentCursor) (h : c.Asks caseSensitive question) :
    globMatchSegmentLoop caseSensitive c = true ↔ question := by
  induction c using globMatchSegmentLoop.induct caseSensitive with
  | case1 c matched hstep =>
    unfold globMatchSegmentLoop
    rw [hstep]
    exact h.answer hstep
  | case2 c c' hstep ih =>
    unfold globMatchSegmentLoop
    rw [hstep]
    exact ih (h.step hstep)

theorem globMatchSegment_iff {pattern name : Segment} :
    globMatchSegment caseSensitive pattern name = true ↔ GlobsSegment caseSensitive pattern name :=
  globMatchSegmentLoop_iff ⟨pattern, name, none, nofun⟩ Iff.rfl

/-! ## Segments -/

theorem globSplitLoop_eq (passed p : List UInt8) :
    globSplitLoop passed p = List.splitOnPPrepend isSeparator p passed.reverse := by
  induction p generalizing passed with
  | nil =>
    rw [List.splitOnPPrepend_nil, List.reverse_reverse]
    rfl
  | cons c p ih =>
    unfold globSplitLoop
    rw [List.splitOnPPrepend_cons_eq_if, List.reverse_reverse]
    split
    · rw [ih]
      rfl
    · rw [ih, List.reverse_append]
      rfl

theorem globSplitPath_eq (path : List UInt8) : globSplitPath path = segmentsOf path := by
  unfold globSplitPath segmentsOf
  cases path with
  | nil => rfl
  | cons c path =>
    rw [globSplitLoop_eq]
    rfl

/-- The segments from some places on are those of the items from there on. -/
def GlobsFrom (caseSensitive : Bool) (patterns segments : List Segment) (pi si : Nat) : Prop :=
  Matches ((patterns.drop pi).map (segmentItem caseSensitive)) (segments.drop si)

theorem globIsDoubleStar_iff {pattern : Segment} :
    globIsDoubleStar pattern = true ↔ pattern = [star, star] := beq_iff_eq

theorem segmentItem_many {pattern : Segment} (h : globIsDoubleStar pattern = true) :
    segmentItem caseSensitive pattern = .many := if_pos (globIsDoubleStar_iff.mp h)

theorem segmentItem_one {pattern : Segment} (h : ¬globIsDoubleStar pattern = true) :
    segmentItem caseSensitive pattern = .one (GlobsSegment caseSensitive pattern) :=
  if_neg fun heq => h (globIsDoubleStar_iff.mpr heq)

theorem matches_no_segments {patterns : List Segment} :
    Matches (patterns.map (segmentItem caseSensitive)) [] ↔ (patterns.dropWhile globIsDoubleStar).isEmpty = true := by
  induction patterns with
  | nil => exact iff_of_true .nil rfl
  | cons pattern patterns ih =>
    rw [List.map_cons]
    by_cases hstar : globIsDoubleStar pattern = true
    · rw [segmentItem_many hstar, matches_many_nil, ih, List.dropWhile_cons_of_pos hstar]
    · rw [segmentItem_one hstar, List.dropWhile_cons_of_neg hstar]
      exact iff_of_false not_matches_one_nil Bool.false_ne_true

theorem globWalk_answer {steps : Nat} {patterns segments : List Segment} {matched : Bool}
    (h : globWalk caseSensitive steps patterns segments = .inl matched) :
    matched = true ↔ Matches (patterns.map (segmentItem caseSensitive)) segments := by
  induction patterns generalizing segments steps with
  | nil =>
    cases h
    rw [List.map_nil, matches_nil, List.dropWhile_nil, List.isEmpty_nil, Bool.true_and, List.isEmpty_iff]
  | cons pattern patterns ih =>
    cases segments with
    | nil =>
      cases h
      rw [List.isEmpty_nil, Bool.and_true, matches_no_segments]
    | cons segment segments =>
      unfold globWalk at h
      split at h
      · cases h
      · rename_i hstar
        rw [List.map_cons, segmentItem_one hstar, matches_one, ← globMatchSegment_iff]
        split at h
        · rename_i hsegment
          rw [Bool.not_eq_true'] at hsegment
          cases h
          rw [hsegment]
          exact iff_of_false Bool.false_ne_true fun h => Bool.false_ne_true h.1
        · rename_i hsegment
          rw [Bool.not_eq_true', Bool.not_eq_false] at hsegment
          rw [and_iff_right hsegment]
          exact ih h

theorem globWalk_star {steps k : Nat} {patterns segments : List Segment}
    (h : globWalk caseSensitive steps patterns segments = .inr k) :
    ∃ i rest segment, k = steps + i ∧ patterns.drop i = [star, star] :: rest ∧ segments[i]? = some segment ∧
      (Matches (patterns.map (segmentItem caseSensitive)) segments ↔ GlobsFrom caseSensitive patterns segments i i) := by
  induction patterns generalizing segments steps with
  | nil => cases h
  | cons pattern patterns ih =>
    cases segments with
    | nil => cases h
    | cons segment segments =>
      unfold globWalk at h
      split at h
      · rename_i hstar
        cases h
        exact ⟨0, patterns, segment, rfl, by rw [globIsDoubleStar_iff.mp hstar]; rfl, rfl, Iff.rfl⟩
      · rename_i hstar
        split at h
        · cases h
        · rename_i hsegment
          rw [Bool.not_eq_true', Bool.not_eq_false, globMatchSegment_iff] at hsegment
          obtain ⟨i, rest, segment', rfl, hdrop, hat, hiff⟩ := ih h
          refine ⟨i + 1, rest, segment', by omega, hdrop, hat, ?_⟩
          rw [List.map_cons, segmentItem_one hstar, matches_one, and_iff_right hsegment]
          exact hiff

/-! ## The table -/

variable {patterns segments : List Segment} {memo : Option (List UInt8)} {pi si : Nat}

def MemoSound (caseSensitive : Bool) (patterns segments : List Segment) (memo : Option (List UInt8)) : Prop :=
  ∀ pi si matched, si ≤ segments.length → memoAnswer memo (pi * (segments.length + 1) + si) = some matched →
    (matched = true ↔ GlobsFrom caseSensitive patterns segments pi si)

theorem memoSound_none : MemoSound caseSensitive patterns segments none := nofun

theorem memoSound_zeros (size : Nat) : MemoSound caseSensitive patterns segments (some (List.replicate size 0)) := by
  intro pi si matched _ h
  unfold memoAnswer at h
  dsimp only at h
  have hzero : (List.replicate size (0 : UInt8)).getD (pi * (segments.length + 1) + si) 0 = 0 := by
    rw [List.getD_eq_getElem?_getD, List.getElem?_replicate]
    split
    · rfl
    · rfl
  rw [if_neg (not_not_intro hzero)] at h
  cases h

theorem entry_inj {m si' pi' : Nat} (hsi : si ≤ m) (hsi' : si' ≤ m) (h : pi * (m + 1) + si = pi' * (m + 1) + si') :
    pi = pi' ∧ si = si' := by
  have hdiv {a b : Nat} (hb : b ≤ m) : (a * (m + 1) + b) / (m + 1) = a := by
    rw [Nat.mul_comm, Nat.mul_add_div (Nat.succ_pos m), Nat.div_eq_of_lt (Nat.lt_succ_of_le hb), Nat.add_zero]
  have hpi : pi = pi' := by
    rw [← @hdiv pi si hsi, h, hdiv hsi']
  subst hpi
  exact ⟨rfl, Nat.add_left_cancel h⟩

theorem MemoSound.store (h : MemoSound caseSensitive patterns segments memo) (hsi : si ≤ segments.length)
    {matched : Bool}
    (hmatched : matched = true ↔ GlobsFrom caseSensitive patterns segments pi si) :
    MemoSound caseSensitive patterns segments (memoStore memo (pi * (segments.length + 1) + si) matched) := by
  cases memo with
  | none => exact memoSound_none
  | some entries =>
    intro pi' si' matched' hsi' hanswer
    unfold memoStore memoAnswer at hanswer
    rw [Option.map_some] at hanswer
    dsimp only at hanswer
    rw [List.getD_eq_getElem?_getD, List.getElem?_set] at hanswer
    by_cases hentry : pi * (segments.length + 1) + si = pi' * (segments.length + 1) + si'
    · obtain ⟨rfl, rfl⟩ := entry_inj hsi hsi' hentry
      rw [if_pos rfl] at hanswer
      split at hanswer
      · -- the entry is the one that was stored
        have heq : matched' = matched := by
          cases matched
          all_goals exact (Option.some.inj hanswer).symm
        rw [heq]
        exact hmatched
      · cases hanswer
    · rw [if_neg hentry, ← List.getD_eq_getElem?_getD] at hanswer
      exact h pi' si' matched' hsi' hanswer

theorem globsFrom_star {rest : List Segment} {segment : Segment} (hpattern : patterns.drop pi = [star, star] :: rest)
    (hsegment : segments[si]? = some segment) :
    GlobsFrom caseSensitive patterns segments pi si ↔
      GlobsFrom caseSensitive patterns segments (pi + 1) si ∨ GlobsFrom caseSensitive patterns segments pi (si + 1) := by
  obtain ⟨hlt, rfl⟩ := List.getElem?_eq_some_iff.mp hsegment
  have hrest : patterns.drop (pi + 1) = rest := by
    rw [← List.drop_drop, hpattern]
    rfl
  unfold GlobsFrom
  rw [hrest, hpattern, List.map_cons, segmentItem_many rfl, List.drop_eq_getElem_cons hlt, matches_many_cons]

theorem globMatchSegments_iff (hpi : pi ≤ patterns.length) (hsi : si ≤ segments.length)
    (hmemo : MemoSound caseSensitive patterns segments memo) :
    ((globMatchSegments caseSensitive patterns segments pi si memo).1 = true ↔
      GlobsFrom caseSensitive patterns segments pi si) ∧
    MemoSound caseSensitive patterns segments (globMatchSegments caseSensitive patterns segments pi si memo).2 := by
  induction hleft : (patterns.length - pi) + (segments.length - si) using Nat.strong_induction_on
    generalizing pi si memo with
  | h left ih =>
  rw [globMatchSegments]
  dsimp only
  cases hanswer : memoAnswer memo (pi * (segments.length + 1) + si) with
  | some matched => exact ⟨hmemo pi si matched hsi hanswer, hmemo⟩
  | none =>
    dsimp only
    split
    · rename_i matched hwalk
      have hiff := globWalk_answer hwalk
      exact ⟨hiff, hmemo.store hsi hiff⟩
    · rename_i k hwalk
      obtain ⟨i, rest, segment, hk, hpattern, hsegment, hiff⟩ := globWalk_star hwalk
      rw [Nat.zero_add] at hk
      subst hk
      have hpattern' : patterns.drop (pi + k) = [star, star] :: rest := by
        rw [← List.drop_drop]
        exact hpattern
      have hsegment' : segments[si + k]? = some segment := by
        rw [← List.getElem?_drop]
        exact hsegment
      have hpk : pi + k < patterns.length := by
        have hlength := congrArg List.length hpattern'
        rw [List.length_drop, List.length_cons] at hlength
        omega
      have hsk : si + k < segments.length := (List.getElem?_eq_some_iff.mp hsegment').1
      -- the walk leaves the question at the double star, which is a question with two parts
      have hparts := @globsFrom_star caseSensitive _ _ _ _ _ _ hpattern' hsegment'
      rw [GlobsFrom, List.drop_drop, List.drop_drop] at hiff
      obtain ⟨hfirst, hmemo₁⟩ := ih _ (by omega) hpk (Nat.le_of_lt hsk) hmemo rfl
      cases hrun₁ : globMatchSegments caseSensitive patterns segments (pi + k + 1) (si + k) memo with
      | mk matched₁ memo₁ =>
      rw [hrun₁] at hfirst hmemo₁
      dsimp only at hfirst hmemo₁ ⊢
      cases matched₁ with
      | true =>
        rw [if_pos rfl]
        have hmatched : true = true ↔ GlobsFrom caseSensitive patterns segments pi si :=
          iff_of_true rfl (hiff.mpr (hparts.mpr (.inl (hfirst.mp rfl))))
        exact ⟨hmatched, hmemo₁.store hsi hmatched⟩
      | false =>
        rw [if_neg Bool.false_ne_true]
        obtain ⟨hsecond, hmemo₂⟩ := ih _ (by omega) (Nat.le_of_lt hpk) hsk hmemo₁ rfl
        have hmatched := hsecond.trans
          ((or_iff_right fun h => Bool.false_ne_true (hfirst.mpr h)).symm.trans (hparts.symm.trans hiff.symm))
        exact ⟨hmatched, hmemo₂.store hsi hmatched⟩

/-! ## Result -/

theorem globMatchSegments_memo {memo' : Option (List UInt8)} (hpi : pi ≤ patterns.length) (hsi : si ≤ segments.length)
    (hmemo : MemoSound caseSensitive patterns segments memo) (hmemo' : MemoSound caseSensitive patterns segments memo') :
    (globMatchSegments caseSensitive patterns segments pi si memo).1 =
      (globMatchSegments caseSensitive patterns segments pi si memo').1 := by
  rw [Bool.eq_iff_iff, (globMatchSegments_iff hpi hsi hmemo).1, (globMatchSegments_iff hpi hsi hmemo').1]

/-- The matcher answers what the pattern means, and so does the recursion. -/
theorem globMatch_iff (glob : Option GlobConfig) (pattern path : List UInt8) :
    (globMatch glob pattern path = true ↔ Globs (glob.elim false GlobConfig.caseSensitive) pattern path) ∧
      globMatch glob pattern path =
        (globMatchSegments (glob.elim false GlobConfig.caseSensitive) (globSplitPath pattern) (globSplitPath path) 0 0
          none).1 := by
  constructor
  · unfold globMatch Globs
    rw [(globMatchSegments_iff (Nat.zero_le _) (Nat.zero_le _) (memoSound_zeros _)).1, globSplitPath_eq, globSplitPath_eq]
    rfl
  · exact globMatchSegments_memo (Nat.zero_le _) (Nat.zero_le _) (memoSound_zeros _) memoSound_none

end Bebop.Cli
