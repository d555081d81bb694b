import Bebop.Compiler.Scanner
import Mathlib.Data.List.DropRight
import Mathlib.Data.List.Forall2

/-!
# Bebop — the comments of a location

What `_desc_extract_comments` takes from the trivia in front of a token for a `Location`. A
string that is not there has no bytes. Blank lines separate the groups of comments
(`commentGroups`): the last is the leading comment and the others are detached. The code
keeps one comment of a group, and drops a group without a text and those behind the
thirty-second.
-/

namespace Bebop.Compiler

/-- `BEBOP_IS_BLANK` -/
def isBlank (c : UInt8) : Bool := isWhitespace c || isNewline c

/-- `_desc_extract_comment`: the text of a comment of the source. -/
def extractComment (source : List UInt8) (t : Trivia) : List UInt8 :=
  let src := (source.drop t.span.off).take t.span.len
  let slash := '/'.toUInt8
  let text :=
    if t.kind = .docComment ∧ src.take 3 = [slash, slash, slash] then src.drop 3
    else if t.kind = .lineComment ∧ src.take 2 = [slash, slash] then src.drop 2
    else if t.kind = .blockComment ∧ src.length ≥ 4 then (src.drop 2).take (src.length - 4)
    else src
  (text.dropWhile isWhitespace).rdropWhile isBlank

def isComment (t : Trivia) : Bool := t.kind = .lineComment || t.kind = .docComment || t.kind = .blockComment

/-- The room for groups on the stack of `_desc_extract_comments`. -/
def maxGroups : Nat := 32

/-- The variables of the loop of `_desc_extract_comments`. -/
structure GroupState where
  groups : List (List UInt8)
  startNewGroup : Bool
  consecutiveNewlines : Nat
  deriving DecidableEq

namespace GroupState

/-- A comment with its text: a new group, or it replaces the comment of one. -/
def comment (state : GroupState) (text : List UInt8) : GroupState :=
  if text.length > 0 ∧ state.groups.length < maxGroups then
    if state.startNewGroup then ⟨state.groups ++ [text], false, 0⟩
    else ⟨state.groups.dropLast ++ [text], false, 0⟩
  else { state with consecutiveNewlines := 0 }

/-- A round of the loop of `_desc_extract_comments`. -/
def next (source : List UInt8) (state : GroupState) (t : Trivia) : GroupState :=
  if t.kind = .newline then
    { state with
      consecutiveNewlines := state.consecutiveNewlines + 1
      startNewGroup := state.startNewGroup ||
        (state.consecutiveNewlines + 1 ≥ 2 && decide (state.groups.length > 0)) }
  else if isComment t then state.comment (extractComment source t)
  else if t.kind ≠ .whitespace then { state with consecutiveNewlines := 0 }
  else state

end GroupState

/-- `_desc_extract_comments`: the leading comment, and the detached ones. -/
def extractComments (source : List UInt8) (tok : Option Token) : List UInt8 × List (List UInt8) :=
  match tok with
  | none => ([], [])
  | some tok =>
    let groups := (tok.leading.foldl (GroupState.next source) ⟨[], true, 0⟩).groups
    (groups.getLast?.getD [], groups.dropLast)

/-! ## The groups -/

/-- A comment in front of groups that have newlines in front of them. -/
def withComment (t : Trivia) (newlines : Nat) : List (List Trivia) → List (List Trivia)
  | [] => [[t]]
  | group :: groups => if newlines < 2 then (t :: group) :: groups else [t] :: group :: groups

/-- The groups of the comments, and how many newlines there are in front of the first. A
comment is in one group with the next one unless there is a blank line between the two. -/
def commentGroups : List Trivia → Nat × List (List Trivia)
  | [] => (0, [])
  | t :: trivia =>
    let behind := commentGroups trivia
    if t.kind = .newline then (behind.1 + 1, behind.2)
    else if isComment t then (0, withComment t behind.1 behind.2)
    else behind

/-- The text of all comments of a group, one in a line. -/
def groupText (source : List UInt8) (group : List Trivia) : List UInt8 :=
  ['\n'.toUInt8].intercalate (group.map (extractComment source))

/-- The leading comment is the text of the last group, the detached ones are the others. -/
def CommentsKept (source : List UInt8) (tok : Token) : Prop :=
  let texts := (commentGroups tok.leading).2.map (groupText source)
  extractComments source (some tok) = (texts.getLast?.getD [], texts.dropLast)

/-- Each group is one comment with a text and has room; or one comment without, or none. -/
def PlainGroups (source : List UInt8) (groups : List (List Trivia)) : Prop :=
  ((∀ group ∈ groups, ∃ t, group = [t] ∧ extractComment source t ≠ []) ∧ groups.length ≤ maxGroups) ∨
    ∃ t, groups = [[t]] ∧ extractComment source t = []

/-! ## The groups that the code keeps -/

variable {source : List UInt8}

def addGroup (source : List UInt8) (groups : List (List UInt8)) (group : List Trivia) : List (List UInt8) :=
  (group.foldl (fun state t => state.comment (extractComment source t)) (⟨groups, true, 0⟩ : GroupState)).groups

/-- A group begins at the start, and behind a blank line. -/
def GroupState.Steady (state : GroupState) : Prop :=
  (state.groups = [] → state.startNewGroup = true) ∧ (state.consecutiveNewlines ≥ 2 → state.startNewGroup = true)

theorem GroupState.Steady.comment {state : GroupState} (h : state.Steady) (text : List UInt8) :
    (state.comment text).Steady := by
  unfold GroupState.comment
  split
  · split
    · exact ⟨fun hnil => absurd hnil (List.append_ne_nil_of_right_ne_nil _ (List.cons_ne_nil _ _)), nofun⟩
    · exact ⟨fun hnil => absurd hnil (List.append_ne_nil_of_right_ne_nil _ (List.cons_ne_nil _ _)), nofun⟩
  · exact ⟨h.1, nofun⟩

/-- The groups behind the loop: the first may go on with the one under way. -/
def groupsBehind (source : List UInt8) (state : GroupState) (newlines : Nat) : List (List Trivia) → List (List UInt8)
  | [] => state.groups
  | group :: groups =>
    if state.consecutiveNewlines + newlines < 2 then
      groups.foldl (addGroup source)
        (group.foldl (fun state t => state.comment (extractComment source t)) state).groups
    else (group :: groups).foldl (addGroup source) state.groups

theorem groupsBehind_start {state : GroupState} (hstart : state.startNewGroup = true) (newlines : Nat)
    (groups : List (List Trivia)) :
    groupsBehind source state newlines groups = groups.foldl (addGroup source) state.groups := by
  cases groups with
  | nil => rfl
  | cons group groups =>
    rw [groupsBehind]
    split
    · rw [List.foldl_cons]
      congr 1
      unfold addGroup
      obtain ⟨kept, start, newlines'⟩ := state
      cases hstart
      cases group with
      | nil => rfl
      | cons t group => rfl
    · rfl

theorem groupsBehind_newline {state : GroupState} (hsteady : state.Steady) (start : Bool) (newlines : Nat)
    (groups : List (List Trivia))
    (hstart : start = (state.startNewGroup || (state.consecutiveNewlines + 1 ≥ 2 && decide (state.groups.length > 0)))) :
    groupsBehind source ⟨state.groups, start, state.consecutiveNewlines + 1⟩ newlines groups =
      groupsBehind source state (newlines + 1) groups := by
  obtain ⟨kept, start', newlines'⟩ := state
  dsimp only at hstart ⊢
  by_cases hblank : newlines' + 1 ≥ 2
  · have hnew : start = true := by
      rw [hstart, decide_eq_true hblank, Bool.true_and]
      cases kept with
      | nil => exact Bool.or_eq_true_iff.mpr (.inl (hsteady.1 rfl))
      | cons text kept => exact Bool.or_eq_true_iff.mpr (.inr rfl)
    rw [groupsBehind_start hnew]
    cases groups with
    | nil => rfl
    | cons group groups =>
      rw [groupsBehind, if_neg]
      show ¬newlines' + (newlines + 1) < 2
      omega
  · rw [decide_eq_false hblank, Bool.false_and, Bool.or_false] at hstart
    rw [hstart]
    cases groups with
    | nil => rfl
    | cons group groups =>
      rw [groupsBehind, groupsBehind]
      dsimp only
      rw [Nat.add_assoc, Nat.add_comm 1]
      -- the comments of the group set the newlines to none
      cases group with
      | nil => rfl
      | cons t group => rfl

theorem groupsBehind_comment {state : GroupState} (hsteady : state.Steady) (t : Trivia) (newlines : Nat)
    (groups : List (List Trivia)) :
    groupsBehind source (state.comment (extractComment source t)) newlines groups =
      groupsBehind source state 0 (withComment t newlines groups) := by
  have hnone : (state.comment (extractComment source t)).consecutiveNewlines = 0 := by
    unfold GroupState.comment
    split
    · split
      · rfl
      · rfl
    · rfl
  -- the comment is the first of a group, or one more of the group under way
  have hgroups (comments : List Trivia) (later : List (List Trivia)) :
      groupsBehind source state 0 ((t :: comments) :: later) = later.foldl (addGroup source)
        (comments.foldl (fun state t => state.comment (extractComment source t))
          (state.comment (extractComment source t))).groups := by
    by_cases hblank : state.consecutiveNewlines ≥ 2
    · rw [groupsBehind_start (hsteady.2 hblank), List.foldl_cons]
      obtain ⟨kept, start, newlines⟩ := state
      cases hsteady.2 hblank
      rfl
    · rw [groupsBehind, Nat.add_zero, if_pos (Nat.not_le.mp hblank)]
      rfl
  cases groups with
  | nil =>
    rw [withComment, hgroups]
    rfl
  | cons group groups =>
    rw [withComment, groupsBehind, hnone, Nat.zero_add]
    by_cases hclose : newlines < 2
    · rw [if_pos hclose, if_pos hclose, hgroups]
    · rw [if_neg hclose, if_neg hclose, hgroups]
      rfl

theorem foldl_next (trivia : List Trivia) (state : GroupState) (hsteady : state.Steady) :
    (trivia.foldl (GroupState.next source) state).groups =
      groupsBehind source state (commentGroups trivia).1 (commentGroups trivia).2 := by
  induction trivia generalizing state with
  | nil => rfl
  | cons t trivia ih =>
    rw [List.foldl_cons, commentGroups, GroupState.next]
    by_cases hnewline : t.kind = .newline
    · rw [if_pos hnewline, if_pos hnewline]
      have hsteady' : GroupState.Steady ⟨state.groups,
          state.startNewGroup || (state.consecutiveNewlines + 1 ≥ 2 && decide (state.groups.length > 0)),
          state.consecutiveNewlines + 1⟩ := by
        refine ⟨fun hnil => Bool.or_eq_true_iff.mpr (.inl (hsteady.1 hnil)), fun hblank => ?_⟩
        cases hgroups : state.groups with
        | nil => exact Bool.or_eq_true_iff.mpr (.inl (hsteady.1 hgroups))
        | cons text kept =>
          refine Bool.or_eq_true_iff.mpr (.inr ?_)
          rw [decide_eq_true hblank]
          rfl
      rw [ih _ hsteady']
      exact groupsBehind_newline hsteady _ _ _ rfl
    · rw [if_neg hnewline, if_neg hnewline]
      by_cases hcomment : isComment t = true
      · rw [if_pos hcomment, if_pos hcomment, ih _ (hsteady.comment _)]
        exact groupsBehind_comment hsteady _ _ _
      · -- what is neither is white space
        rw [if_neg hcomment, if_neg hcomment, if_neg, ih _ hsteady]
        unfold isComment at hcomment
        cases hkind : t.kind
        all_goals simp_all

/-! ## What is kept of a group -/

theorem foldl_comment_started (group : List Trivia) (kept : List (List UInt8)) (text : List UInt8) (newlines : Nat) :
    ∃ text', (text' = text ∨ text' ≠ [] ∧ ∃ t ∈ group, extractComment source t = text') ∧
      (group.foldl (fun state t => state.comment (extractComment source t))
        (⟨kept ++ [text], false, newlines⟩ : GroupState)).groups = kept ++ [text'] := by
  induction group generalizing text newlines with
  | nil => exact ⟨text, .inl rfl, rfl⟩
  | cons t group ih =>
    rw [List.foldl_cons, GroupState.comment]
    by_cases htext : (extractComment source t).length > 0 ∧ (kept ++ [text]).length < maxGroups
    · rw [if_pos htext, if_neg Bool.false_ne_true]
      dsimp only
      rw [List.dropLast_concat]
      obtain ⟨text', hfrom, hgroups⟩ := ih (extractComment source t) 0
      refine ⟨text', .inr ?_, hgroups⟩
      rcases hfrom with rfl | ⟨hne, t', ht', heq⟩
      · exact ⟨List.ne_nil_of_length_pos htext.1, t, List.mem_cons_self, rfl⟩
      · exact ⟨hne, t', List.mem_cons_of_mem _ ht', heq⟩
    · rw [if_neg htext]
      obtain ⟨text', hfrom, hgroups⟩ := ih text 0
      refine ⟨text', hfrom.imp_right fun ⟨hne, t', ht', heq⟩ => ⟨hne, t', List.mem_cons_of_mem _ ht', heq⟩, hgroups⟩

theorem addGroup_cases (kept : List (List UInt8)) (group : List Trivia) :
    addGroup source kept group = kept ∨
      ∃ text, addGroup source kept group = kept ++ [text] ∧ kept.length < maxGroups ∧
        text ≠ [] ∧ ∃ t ∈ group, extractComment source t = text := by
  unfold addGroup
  -- the newlines before the comments do not count
  generalize 0 = newlines
  induction group generalizing newlines with
  | nil => exact .inl rfl
  | cons t group ih =>
    rw [List.foldl_cons, GroupState.comment]
    by_cases htext : (extractComment source t).length > 0 ∧ kept.length < maxGroups
    · rw [if_pos htext, if_pos rfl]
      obtain ⟨text', hfrom, hgroups⟩ := @foldl_comment_started source group kept (extractComment source t) 0
      refine .inr ⟨text', hgroups, htext.2, ?_⟩
      rcases hfrom with rfl | ⟨hne, t', ht', heq⟩
      · exact ⟨List.ne_nil_of_length_pos htext.1, t, List.mem_cons_self, rfl⟩
      · exact ⟨hne, t', List.mem_cons_of_mem _ ht', heq⟩
    · rw [if_neg htext]
      refine (ih 0).imp_right ?_
      rintro ⟨text, hgroups, hroom, hne, t', ht', heq⟩
      exact ⟨text, hgroups, hroom, hne, t', List.mem_cons_of_mem _ ht', heq⟩

theorem addGroup_single {kept : List (List UInt8)} {t : Trivia} (htext : extractComment source t ≠ [])
    (hroom : kept.length < maxGroups) : addGroup source kept [t] = kept ++ [extractComment source t] := by
  unfold addGroup
  rw [List.foldl_cons, List.foldl_nil, GroupState.comment, if_pos ⟨List.length_pos_iff.mpr htext, hroom⟩, if_pos rfl]

theorem foldl_addGroup (groups : List (List Trivia)) (kept : List (List UInt8)) :
    ∃ texts, groups.foldl (addGroup source) kept = kept ++ texts ∧ texts.length ≤ groups.length ∧
      (kept.length ≤ maxGroups → (kept ++ texts).length ≤ maxGroups) ∧
      (texts.length = groups.length →
        List.Forall₂ (fun group text => text ≠ [] ∧ ∃ t ∈ group, extractComment source t = text) groups texts) := by
  induction groups generalizing kept with
  | nil => exact ⟨[], (List.append_nil _).symm, Nat.le_refl _, fun h => by rwa [List.append_nil], fun _ => .nil⟩
  | cons group groups ih =>
    rw [List.foldl_cons]
    rcases @addGroup_cases source kept group with hnone | ⟨text, hadd, hroom, htext⟩
    · rw [hnone]
      obtain ⟨texts, hfold, hlength, hmax, -⟩ := ih kept
      exact ⟨texts, hfold, Nat.le_succ_of_le hlength, hmax, fun h => absurd hlength (h ▸ Nat.not_succ_le_self _)⟩
    · rw [hadd]
      obtain ⟨texts, hfold, hlength, hmax, hall⟩ := ih (kept ++ [text])
      rw [List.append_assoc] at hfold hmax
      refine ⟨text :: texts, hfold, Nat.succ_le_succ hlength, fun _ => hmax ?_, fun h => ?_⟩
      · rw [List.length_append]
        exact hroom
      · exact .cons htext (hall (Nat.succ.inj h))

theorem groupText_single (t : Trivia) : groupText source [t] = extractComment source t := List.intercalate_singleton

theorem foldl_addGroup_single {groups : List (List Trivia)} {kept : List (List UInt8)}
    (hsingle : ∀ group ∈ groups, ∃ t, group = [t] ∧ extractComment source t ≠ [])
    (hroom : kept.length + groups.length ≤ maxGroups) :
    groups.foldl (addGroup source) kept = kept ++ groups.map (groupText source) := by
  induction groups generalizing kept with
  | nil => exact (List.append_nil _).symm
  | cons group groups ih =>
    obtain ⟨⟨t, rfl, htext⟩, hothers⟩ := List.forall_mem_cons.mp hsingle
    rw [List.length_cons] at hroom
    rw [List.foldl_cons, addGroup_single htext (by omega), ih hothers, List.append_assoc, List.map_cons,
      groupText_single]
    · rfl
    · rw [List.length_append, List.length_singleton]
      omega

/-! ## Result -/

theorem ne_nil_of_mem_commentGroups {trivia : List Trivia} {group : List Trivia}
    (h : group ∈ (commentGroups trivia).2) : group ≠ [] := by
  induction trivia generalizing group with
  | nil => cases h
  | cons t trivia ih =>
    rw [commentGroups] at h
    split at h
    · exact ih h
    · split at h
      · dsimp only at h
        cases hbehind : (commentGroups trivia).2 with
        | nil =>
          rw [hbehind] at h
          exact List.mem_singleton.mp h ▸ List.cons_ne_nil _ _
        | cons group' groups =>
          rw [hbehind] at ih h
          rw [withComment] at h
          split at h
          · rcases List.mem_cons.mp h with rfl | h
            · exact List.cons_ne_nil _ _
            · exact ih (List.mem_cons_of_mem _ h)
          · rcases List.mem_cons.mp h with rfl | h
            · exact List.cons_ne_nil _ _
            · exact ih h
      · exact ih h

theorem length_lt_groupText {group : List Trivia} {t t' : Trivia} (h : t ∈ t' :: group) (hne : group ≠ []) :
    (extractComment source t).length < (groupText source (t' :: group)).length := by
  induction group generalizing t' with
  | nil => exact absurd rfl hne
  | cons t'' group ih =>
    have hlength : (groupText source (t' :: t'' :: group)).length =
        (extractComment source t').length + 1 + (groupText source (t'' :: group)).length := by
      unfold groupText
      rw [List.map_cons, List.map_cons, List.intercalate_cons_cons, ← List.map_cons, List.length_append,
        List.length_append]
      rfl
    rw [hlength]
    rcases List.mem_cons.mp h with rfl | h
    · omega
    · by_cases hlast : group = []
      · subst hlast
        rw [List.mem_singleton.mp h, groupText_single]
        omega
      · have := ih h hlast
        omega

theorem extractComments_eq (tok : Token) : extractComments source (some tok) =
    (((commentGroups tok.leading).2.foldl (addGroup source) []).getLast?.getD [],
      ((commentGroups tok.leading).2.foldl (addGroup source) []).dropLast) := by
  unfold extractComments
  dsimp only
  rw [foldl_next tok.leading ⟨[], true, 0⟩ ⟨fun _ => rfl, nofun⟩, groupsBehind_start rfl]

theorem eq_of_last_others {xs ys : List (List UInt8)} (hxs : xs ≠ []) (hys : ys ≠ [])
    (hlast : xs.getLast?.getD [] = ys.getLast?.getD []) (hothers : xs.dropLast = ys.dropLast) : xs = ys := by
  rw [List.getLast?_eq_some_getLast hxs, List.getLast?_eq_some_getLast hys, Option.getD_some, Option.getD_some] at hlast
  rw [← List.dropLast_concat_getLast hxs, ← List.dropLast_concat_getLast hys, hlast, hothers]

/-- No group has more than one, or one without a text, and they are thirty-two at most. -/
theorem commentsKept_iff (source : List UInt8) (tok : Token) :
    CommentsKept source tok ↔ PlainGroups source (commentGroups tok.leading).2 := by
  unfold CommentsKept
  rw [extractComments_eq]
  have hcomments : ∀ group ∈ (commentGroups tok.leading).2, group ≠ [] := fun group => ne_nil_of_mem_commentGroups
  generalize (commentGroups tok.leading).2 = groups at hcomments ⊢
  constructor
  · intro hkept
    obtain ⟨hlast, hothers⟩ := Prod.mk.inj hkept
    obtain ⟨texts, hfold, hlength, hmax, hall⟩ := @foldl_addGroup source groups []
    rw [List.nil_append] at hfold hmax
    rw [hfold] at hlast hothers
    by_cases hnone : texts = []
    · -- nothing was kept, so that there is nothing but perhaps a comment without a text
      subst hnone
      match groups, hcomments, hlast, hothers with
      | [], _, _, _ => exact .inl ⟨nofun, Nat.zero_le _⟩
      | [group], hcomments, hlast, _ =>
        refine .inr ?_
        obtain ⟨t, rest, rfl⟩ := List.exists_cons_of_ne_nil (hcomments group List.mem_cons_self)
        have htext : groupText source (t :: rest) = [] := hlast.symm
        by_cases hrest : rest = []
        · subst hrest
          rw [groupText_single] at htext
          exact ⟨t, rfl, htext⟩
        · have hlonger := @length_lt_groupText source _ t t List.mem_cons_self hrest
          rw [htext] at hlonger
          exact absurd hlonger (Nat.not_lt_zero _)
      | _ :: _ :: _, _, _, hothers => cases hothers
    · have hgroups : groups.map (groupText source) ≠ [] := by
        intro h
        rw [List.map_eq_nil_iff.mp h] at hlength
        exact hnone (List.eq_nil_of_length_eq_zero (Nat.le_zero.mp hlength))
      have heq := eq_of_last_others hnone hgroups hlast hothers
      have hcount : texts.length = groups.length := by rw [heq, List.length_map]
      refine .inl ⟨fun group hmem => ?_, hcount ▸ hmax (Nat.zero_le _)⟩
      have hall := hall hcount
      rw [heq, List.forall₂_map_right_iff, List.forall₂_same] at hall
      obtain ⟨hne, t, ht, htext⟩ := hall group hmem
      obtain ⟨t', rest, rfl⟩ := List.exists_cons_of_ne_nil (hcomments group hmem)
      by_cases hrest : rest = []
      · subst hrest
        rw [List.mem_singleton.mp ht] at htext
        exact ⟨t', rfl, htext ▸ hne⟩
      · have hlonger := @length_lt_groupText source _ t t' ht hrest
        rw [htext] at hlonger
        exact absurd hlonger (Nat.lt_irrefl _)
  · rintro (⟨hsingle, hroom⟩ | ⟨t, rfl, htext⟩)
    · rw [foldl_addGroup_single hsingle (by rw [List.length_nil, Nat.zero_add]; exact hroom), List.nil_append]
    · have hnone : addGroup source [] [t] = [] := by
        rcases @addGroup_cases source [] [t] with hnone | ⟨_, -, -, hne, t', ht', rfl⟩
        · exact hnone
        · rw [List.mem_singleton.mp ht'] at hne
          exact absurd htext hne
      rw [List.map_cons, groupText_single, htext, List.foldl_cons, hnone]
      rfl

namespace Sample

def twoLines : List UInt8 := ['/', '/', 'a', '\n', '/', '/', 'b', '\n', ';'].map Char.toUInt8

def behindTwoLines : Token where
  kind := .semicolon
  span := ⟨8, 1, 3, 1, 3, 2⟩
  leading := [⟨.lineComment, ⟨0, 3, 1, 1, 1, 4⟩⟩, ⟨.newline, ⟨3, 1, 1, 4, 2, 1⟩⟩, ⟨.lineComment, ⟨4, 3, 2, 1, 2, 4⟩⟩,
    ⟨.newline, ⟨7, 1, 2, 4, 3, 1⟩⟩]

end Sample

/-- Of a comment of two lines only the last is kept. -/
theorem two_lines_lost : (scanWithSchema Sample.twoLines).tokens.head? = some Sample.behindTwoLines ∧
    ¬CommentsKept Sample.twoLines Sample.behindTwoLines ∧
    extractComments Sample.twoLines (some Sample.behindTwoLines) = (['b'.toUInt8], []) := by
  unfold CommentsKept
  decide

end Bebop.Compiler
