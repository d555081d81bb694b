import Mathlib.Data.List.Forall2

/-!
# Wildcards

A pattern is a list of items, each of which is one element that a predicate takes
(`Item.one`) or any run of elements (`Item.many`). A matcher that tries the runs from the
shortest on need not try the earlier ones again behind a later one (`matches_later_run`).
-/

namespace Wildcard

variable {α : Type} {p : α → Prop}

inductive Item (α : Type) where
  | many
  | one (p : α → Prop)

inductive Matches : List (Item α) → List α → Prop
  | nil : Matches [] []
  | one {p : α → Prop} {a : α} {items : List (Item α)} {as : List α} :
      p a → Matches items as → Matches (.one p :: items) (a :: as)
  | many {items : List (Item α)} (run : List α) {rest : List α} :
      Matches items rest → Matches (.many :: items) (run ++ rest)

variable {items block : List (Item α)} {a : α} {as matched rest : List α}

/-! ## One item -/

theorem matches_nil : Matches [] as ↔ as = [] := by
  constructor
  · intro h
    cases h
    rfl
  · rintro rfl
    exact .nil

theorem not_matches_one_nil : ¬Matches (.one p :: items) [] := nofun

theorem matches_one : Matches (.one p :: items) (a :: as) ↔ p a ∧ Matches items as := by
  constructor
  · intro h
    cases h with
    | one hp hrest => exact ⟨hp, hrest⟩
  · rintro ⟨hp, hrest⟩
    exact .one hp hrest

theorem matches_many : Matches (.many :: items) as ↔ ∃ run rest, as = run ++ rest ∧ Matches items rest := by
  constructor
  · intro h
    generalize hpattern : Item.many :: items = pattern at h
    cases h with
    | nil => cases hpattern
    | one => cases hpattern
    | many run hrest =>
      cases hpattern
      exact ⟨run, _, rfl, hrest⟩
  · rintro ⟨run, rest, rfl, hrest⟩
    exact .many run hrest

theorem matches_many_nil : Matches (.many :: items) [] ↔ Matches items [] := by
  rw [matches_many]
  constructor
  · rintro ⟨run, rest, hnil, hrest⟩
    obtain ⟨-, rfl⟩ := List.append_eq_nil_iff.mp hnil.symm
    exact hrest
  · exact fun h => ⟨[], [], rfl, h⟩

theorem matches_many_cons : Matches (.many :: items) (a :: as) ↔
    Matches items (a :: as) ∨ Matches (.many :: items) as := by
  rw [matches_many, matches_many]
  constructor
  · rintro ⟨run, rest, hsplit, hrest⟩
    cases run with
    | nil => exact .inl (hsplit ▸ hrest)
    | cons b run =>
      obtain ⟨rfl, rfl⟩ := List.cons.inj hsplit
      exact .inr ⟨run, rest, rfl, hrest⟩
  · rintro (h | ⟨run, rest, rfl, hrest⟩)
    · exact ⟨[], _, rfl, h⟩
    · exact ⟨a :: run, rest, rfl, hrest⟩

theorem Matches.grow (h : Matches (.many :: items) rest) (run : List α) : Matches (.many :: items) (run ++ rest) := by
  obtain ⟨run', rest, rfl, hrest⟩ := matches_many.mp h
  rw [← List.append_assoc]
  exact .many _ hrest

/-! ## Items for one element each -/

def Each (block : List (Item α)) (matched : List α) : Prop :=
  List.Forall₂ (fun item a => ∃ p, item = .one p ∧ p a) block matched

theorem each_nil : Each ([] : List (Item α)) [] := .nil

theorem Each.snoc (h : Each block matched) (hp : p a) : Each (block ++ [.one p]) (matched ++ [a]) :=
  List.rel_append h (.cons ⟨p, rfl, hp⟩ .nil)

theorem matches_each (h : Each block matched) : Matches (block ++ items) (matched ++ as) ↔ Matches items as := by
  induction h with
  | nil => rfl
  | cons hitem _ ih =>
    obtain ⟨p, rfl, hp⟩ := hitem
    rw [List.cons_append, List.cons_append, matches_one, and_iff_right hp, ih]

theorem Each.passed (h : Each block matched) (hmatches : Matches (block ++ items) as) :
    ∃ taken rest, as = taken ++ rest ∧ taken.length = matched.length ∧ Matches items rest := by
  induction h generalizing as with
  | nil => exact ⟨[], as, rfl, rfl, hmatches⟩
  | cons hitem _ ih =>
    obtain ⟨p, rfl, -⟩ := hitem
    cases hmatches with
    | one _ hrest =>
      obtain ⟨taken, rest, rfl, hlength, hmatches⟩ := ih hrest
      exact ⟨_ :: taken, rest, rfl, congrArg (· + 1) hlength, hmatches⟩

/-! ## The runs before -/

/-- Where the items between two runs take elements, the second run is all that is left to
be tried: what an earlier place leaves to it is the most. -/
theorem matches_later_run (h : Each block matched) :
    Matches (.many :: (block ++ .many :: items)) (matched ++ as) ↔ Matches (.many :: items) as := by
  constructor
  · intro hwhole
    obtain ⟨run, behind, hsplit, hbehind⟩ := matches_many.mp hwhole
    obtain ⟨taken, rest, rfl, hlength, hrest⟩ := h.passed hbehind
    -- what is left behind the items is an end of what was left here
    obtain ⟨more, rfl⟩ : ∃ more, as = more ++ rest := by
      rw [← List.append_assoc] at hsplit
      obtain ⟨more, -, hmore⟩ | ⟨more, hbefore, rfl⟩ := List.append_eq_append_iff.mp hsplit
      · exact ⟨more, hmore⟩
      · refine ⟨[], ?_⟩
        have hlengths := congrArg List.length hbefore
        rw [List.length_append, List.length_append, hlength] at hlengths
        rw [List.eq_nil_of_length_eq_zero (by omega : more.length = 0)]
        rfl
    exact hrest.grow more
  · exact fun hmatches => .many [] ((matches_each h).mpr hmatches)

/-- Where the items take all elements there are, the run before them is empty. -/
theorem matches_at_end (h : Each block matched) :
    Matches (.many :: (block ++ items)) matched ↔ Matches items [] := by
  constructor
  · intro hmatches
    obtain ⟨run, rest, hsplit, hmatches⟩ := matches_many.mp hmatches
    obtain ⟨taken, rest, rfl, hlength, hmatches⟩ := h.passed hmatches
    have hlengths := congrArg List.length hsplit
    rw [List.length_append, List.length_append, hlength] at hlengths
    rw [List.eq_nil_of_length_eq_zero (by omega : rest.length = 0)] at hmatches
    exact hmatches
  · intro hmatches
    have hwhole := (matches_each h).mpr hmatches
    rw [List.append_nil] at hwhole
    exact .many [] hwhole

end Wildcard
