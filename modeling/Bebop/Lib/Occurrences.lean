import Mathlib.Data.List.TakeDrop
import Mathlib.Data.List.Infix
import Mathlib.Algebra.Ring.Nat

/-!
# Occurrences of a pattern in a text

Where a pattern stands in a text (`At`), how often (`count`), and where first (`first`).
In a text of lines a pattern that has no line end occurs in the lines. A `Twofold` pattern,
as a comment is, begins in no other such pattern. `weave` puts texts before the places of
a text. A pattern stays where it was, unless something is put into it (`at_weave`).
-/

namespace Occurrences

variable {α : Type} {pattern text : List α} {k : Nat}

/-- `pattern` stands in `text` at the place `k`. -/
def At (pattern text : List α) (k : Nat) : Prop := pattern <+: text.drop k

/-- How often `pattern` stands in a text. -/
def count [DecidableEq α] (pattern : List α) : List α → Nat
  | [] => if pattern = [] then 1 else 0
  | a :: text => (if pattern <+: a :: text then 1 else 0) + count pattern text

/-- The first place where `pattern` stands in a text. -/
def first [DecidableEq α] (pattern : List α) : List α → Option Nat
  | [] => if pattern = [] then some 0 else none
  | a :: text => if pattern <+: a :: text then some 0 else (first pattern text).map (· + 1)

theorem at_succ {a : α} : At pattern (a :: text) (k + 1) ↔ At pattern text k := Iff.rfl

theorem At.lt_length (h : At pattern text k) (hne : pattern ≠ []) : k < text.length := by
  by_contra hge
  unfold At at h
  rw [List.drop_eq_nil_of_le (Nat.le_of_not_lt hge)] at h
  exact hne (List.prefix_nil.mp h)

theorem At.add_length_le (h : At pattern text k) (hne : pattern ≠ []) : k + pattern.length ≤ text.length := by
  have hlt := h.lt_length hne
  have hle := h.length_le
  rw [List.length_drop] at hle
  omega

theorem count_eq_zero_iff [DecidableEq α] (hne : pattern ≠ []) : count pattern text = 0 ↔ ∀ k, ¬At pattern text k := by
  induction text with
  | nil =>
    rw [count, if_neg hne]
    exact iff_of_true rfl fun k h => absurd (h.lt_length hne) (Nat.not_lt_zero k)
  | cons a text ih =>
    rw [count, Nat.add_eq_zero_iff, ih]
    constructor
    · rintro ⟨hhead, htail⟩ k h
      cases k with
      | zero =>
        rw [if_pos (show pattern <+: a :: text from h)] at hhead
        cases hhead
      | succ k => exact htail k h
    · intro h
      exact ⟨if_neg (h 0), fun k => h (k + 1)⟩

theorem count_pos [DecidableEq α] (h : At pattern text k) (hne : pattern ≠ []) : 0 < count pattern text :=
  Nat.pos_of_ne_zero fun hzero => (count_eq_zero_iff hne).mp hzero k h

theorem first_eq_none_iff [DecidableEq α] (hne : pattern ≠ []) :
    first pattern text = none ↔ count pattern text = 0 := by
  induction text with
  | nil => rw [first, count, if_neg hne, if_neg hne]; exact iff_of_true rfl rfl
  | cons a text ih =>
    rw [first, count]
    split
    · exact iff_of_false (fun h => (by cases h)) (by omega)
    · rw [Option.map_eq_none_iff, ih, Nat.zero_add]

theorem at_of_first [DecidableEq α] (h : first pattern text = some k) : At pattern text k := by
  induction text generalizing k with
  | nil =>
    rw [first] at h
    split at h
    · rename_i hnil
      rw [hnil]
      exact List.nil_prefix
    · cases h
  | cons a text ih =>
    rw [first] at h
    split at h
    · rename_i hhead
      obtain rfl := Option.some.inj h
      exact hhead
    · obtain ⟨j, hj, rfl⟩ := Option.map_eq_some_iff.mp h
      exact ih hj

theorem first_of_at [DecidableEq α] (hne : pattern ≠ []) (h : At pattern text k) (honce : count pattern text ≤ 1) :
    first pattern text = some k := by
  induction text generalizing k with
  | nil => exact absurd (h.lt_length hne) (Nat.not_lt_zero k)
  | cons a text ih =>
    rw [count] at honce
    rw [first]
    cases k with
    | zero => exact if_pos h
    | succ k =>
      have hlater := count_pos (at_succ.mp h) hne
      have hhead : ¬pattern <+: a :: text := by
        intro hhead
        rw [if_pos hhead] at honce
        omega
      rw [if_neg hhead] at honce ⊢
      rw [ih (at_succ.mp h) (by omega)]
      rfl

/-! ## Lines -/

theorem count_cons_of_ne [DecidableEq α] {a : α} (hne : pattern ≠ []) (h : pattern.head? ≠ some a) :
    count pattern (a :: text) = count pattern text := by
  have hhead : ¬pattern <+: a :: text := by
    cases pattern with
    | nil => exact absurd rfl hne
    | cons b rest =>
      intro hprefix
      exact h (congrArg some (List.cons_prefix_cons.mp hprefix).1)
  rw [count, if_neg hhead, Nat.zero_add]

theorem prefix_append_sep {sep : α} (hsep : sep ∉ pattern) (x y : List α) :
    pattern <+: x ++ sep :: y ↔ pattern <+: x := by
  induction x generalizing pattern with
  | nil =>
    cases pattern with
    | nil => exact iff_of_true List.nil_prefix List.nil_prefix
    | cons b rest =>
      refine iff_of_false (fun h => ?_) (fun h => by cases List.prefix_nil.mp h)
      exact hsep ((List.cons_prefix_cons.mp h).1 ▸ List.mem_cons_self)
  | cons a x ih =>
    cases pattern with
    | nil => exact iff_of_true List.nil_prefix List.nil_prefix
    | cons b rest =>
      rw [List.cons_append, List.cons_prefix_cons, List.cons_prefix_cons, ih fun h => hsep (List.mem_cons_of_mem _ h)]

theorem count_append_sep [DecidableEq α] {sep : α} (hne : pattern ≠ []) (hsep : sep ∉ pattern) (x y : List α) :
    count pattern (x ++ sep :: y) = count pattern x + count pattern y := by
  induction x with
  | nil =>
    have hhead : pattern.head? ≠ some sep := fun h => hsep (List.mem_of_mem_head? h)
    rw [List.nil_append, count_cons_of_ne hne hhead, count, if_neg hne, Nat.zero_add]
  | cons a x ih =>
    have hhead := prefix_append_sep hsep (a :: x) y
    rw [List.cons_append] at hhead ⊢
    rw [count, count, ih, if_congr hhead rfl rfl, Nat.add_assoc]

/-- A pattern without a line end occurs in the lines of a text. -/
theorem count_intercalate [DecidableEq α] {sep : α} (hne : pattern ≠ []) (hsep : sep ∉ pattern)
    (lines : List (List α)) :
    count pattern ([sep].intercalate lines) = (lines.map (count pattern)).sum := by
  induction lines with
  | nil => exact if_neg hne
  | cons line lines ih =>
    cases lines with
    | nil => rw [List.intercalate_singleton]; rfl
    | cons next lines =>
      rw [List.intercalate_cons_cons, List.append_assoc, List.singleton_append, count_append_sep hne hsep, ih]
      rfl

/-! ## Patterns that begin with an element twice -/

/-- The pattern begins with two `s`, and has no other. -/
structure Twofold (s : α) (pattern : List α) : Prop where
  zero : pattern[0]? = some s
  one : pattern[1]? = some s
  later : ∀ j, 2 ≤ j → pattern[j]? ≠ some s
  long : 2 < pattern.length

section

variable {s : α} {other : List α} {j : Nat}

theorem getElem?_of_at (h : At pattern text k) (hj : j < pattern.length) : text[k + j]? = pattern[j]? := by
  obtain ⟨rest, hrest⟩ := h
  rw [← List.getElem?_drop, ← hrest, List.getElem?_append_left hj]

theorem Twofold.ne_nil (h : Twofold s pattern) : pattern ≠ [] := by
  intro hnil
  have hlong := h.long
  rw [hnil] at hlong
  exact absurd hlong (Nat.not_lt_zero _)

theorem Twofold.apart (h : Twofold s pattern) (hother : Twofold s other) (hat : At pattern text k) (hj : 0 < j)
    (hlt : j < pattern.length) : ¬At other text (k + j) := by
  intro hinside
  have hlong := hother.long
  have hfirst : pattern[j]? = some s := by
    rw [← getElem?_of_at hat hlt, ← hother.zero]
    exact getElem?_of_at (j := 0) hinside (by omega)
  -- it would begin with the second `s`, and there is no third
  obtain rfl : j = 1 := by
    by_contra hne
    exact h.later j (by omega) hfirst
  refine h.later 2 (Nat.le_refl 2) ?_
  rw [← getElem?_of_at hat h.long, ← hother.one]
  exact getElem?_of_at (j := 1) hinside (by omega)

theorem Twofold.count_eq [DecidableEq α] (h : Twofold s pattern) (hother : Twofold s other) :
    count other pattern = if other <+: pattern then 1 else 0 := by
  cases hpattern : pattern with
  | nil => exact absurd hpattern h.ne_nil
  | cons a rest =>
    rw [count, Nat.add_eq_left, count_eq_zero_iff hother.ne_nil]
    intro k hk
    have hwhole : At pattern pattern 0 := List.prefix_rfl
    have hinside : At other pattern (0 + (k + 1)) := by
      rw [Nat.zero_add, hpattern]
      exact hk
    have hlt := hinside.lt_length hother.ne_nil
    rw [Nat.zero_add] at hlt
    exact h.apart hother hwhole (Nat.succ_pos k) hlt hinside

end

/-! ## Insertions -/

/-- The text, with `before k` put before its place `k`. -/
def weave (before : Nat → List α) : List α → List α
  | [] => []
  | a :: text => before 0 ++ a :: weave (fun k => before (k + 1)) text

theorem weave_nothing (text : List α) : weave (fun _ => []) text = text := by
  induction text with
  | nil => rfl
  | cons a text ih => exact congrArg (a :: ·) ih

theorem weave_append (before : Nat → List α) (x y : List α) :
    weave before (x ++ y) = weave before x ++ weave (fun k => before (x.length + k)) y := by
  induction x generalizing before with
  | nil => exact congrArg (fun f => weave f y) (funext fun k => congrArg before (Nat.zero_add k).symm)
  | cons a x ih =>
    rw [List.cons_append, weave, weave, ih, List.append_assoc, List.cons_append, List.length_cons]
    simp only [Nat.add_right_comm, Nat.add_assoc]

theorem weave_congr {before before' : Nat → List α} (h : ∀ k < text.length, before k = before' k) :
    weave before text = weave before' text := by
  induction text generalizing before before' with
  | nil => rfl
  | cons a text ih =>
    rw [weave, weave, h 0 (Nat.zero_lt_succ _), ih fun k hk => h (k + 1) (Nat.succ_lt_succ hk)]

theorem mem_weave {before : Nat → List α} {a : α} (h : a ∈ weave before text) : a ∈ text ∨ ∃ k, a ∈ before k := by
  induction text generalizing before with
  | nil => cases h
  | cons b text ih =>
    rcases List.mem_append.mp h with hhere | hrest
    · exact .inr ⟨0, hhere⟩
    · rcases List.mem_cons.mp hrest with rfl | hrest
      · exact .inl List.mem_cons_self
      · rcases ih hrest with htext | ⟨k, hk⟩
        · exact .inl (List.mem_cons_of_mem _ htext)
        · exact .inr ⟨k + 1, hk⟩

/-- What comes before the place `k`. -/
def front (before : Nat → List α) (text : List α) (k : Nat) : List α := weave before (text.take k) ++ before k

/-- The place `k` and what comes behind it. -/
def back (before : Nat → List α) (text : List α) (k : Nat) : List α :=
  weave (fun j => if j = 0 then [] else before (k + j)) (text.drop k)

theorem weave_split (before : Nat → List α) (hk : k < text.length) :
    weave before text = front before text k ++ back before text k := by
  have hlength : (text.take k).length = k := List.length_take_of_le (Nat.le_of_lt hk)
  have hwhole := weave_append before (text.take k) (text.drop k)
  rw [List.take_append_drop, hlength] at hwhole
  rw [hwhole, front, back, List.append_assoc]
  refine congrArg (weave before (text.take k) ++ ·) ?_
  cases hdrop : text.drop k with
  | nil => exact absurd (List.drop_eq_nil_iff.mp hdrop) (Nat.not_le_of_lt hk)
  | cons a rest => rfl

/-- One text more at a place. -/
theorem weave_put (before : Nat → List α) (content : List α) (hk : k < text.length) :
    weave (fun j => if j = k then before k ++ content else before j) text =
      front before text k ++ content ++ back before text k := by
  rw [weave_split _ hk]
  have hfront : front (fun j => if j = k then before k ++ content else before j) text k = front before text k ++ content := by
    have hput : (if k = k then before k ++ content else before k) = before k ++ content := if_pos rfl
    have hsame : weave (fun j => if j = k then before k ++ content else before j) (text.take k) =
        weave before (text.take k) := by
      refine weave_congr fun j hj => if_neg ?_
      rw [List.length_take_of_le (Nat.le_of_lt hk)] at hj
      exact Nat.ne_of_lt hj
    exact (congrArg₂ (· ++ ·) hsame hput).trans (List.append_assoc ..).symm
  have hback : back (fun j => if j = k then before k ++ content else before j) text k = back before text k := by
    unfold back
    refine weave_congr fun j _ => ?_
    by_cases hj : j = 0
    · rw [if_pos hj, if_pos hj]
    · rw [if_neg hj, if_neg hj]
      exact if_neg (by omega)
  rw [hfront, hback]

theorem prefix_back {before : Nat → List α} (h : At pattern text k)
    (hnothing : ∀ j, 0 < j → j < pattern.length → before (k + j) = []) : pattern <+: back before text k := by
  obtain ⟨rest, hrest⟩ := h
  unfold back
  rw [← hrest, weave_append]
  refine ⟨_, congrArg (· ++ _) ?_⟩
  have hsame : weave (fun j => if j = 0 then [] else before (k + j)) pattern = weave (fun _ => []) pattern := by
    refine weave_congr fun j hj => ?_
    by_cases hzero : j = 0
    · rw [if_pos hzero]
    · rw [if_neg hzero]
      exact hnothing j (Nat.pos_of_ne_zero hzero) hj
  exact (hsame.trans (weave_nothing pattern)).symm

theorem at_weave {before : Nat → List α} (h : At pattern text k) (hk : k < text.length)
    (hnothing : ∀ j, 0 < j → j < pattern.length → before (k + j) = []) :
    At pattern (weave before text) (front before text k).length := by
  unfold At
  rw [weave_split before hk, List.drop_left]
  exact prefix_back h hnothing

end Occurrences
