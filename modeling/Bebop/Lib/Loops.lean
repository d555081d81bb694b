import Mathlib.Data.List.Basic

/-!
# Loops that may fail

What a loop in `Option` that does not fail has done: all its steps succeeded; a loop that
adds to a list has added what its steps add; and one that stops at the first it finds has
found what a step finds.
-/

namespace Loops

variable {α β : Type}

/-- The results of a loop that does not fail. -/
theorem mapM_eq_some {f : α → Option β} {l : List α} {out : List β} (h : l.mapM f = some out) :
    (∀ a ∈ l, ∃ b ∈ out, f a = some b) ∧ ∀ b ∈ out, ∃ a ∈ l, f a = some b := by
  induction l generalizing out with
  | nil =>
    rw [List.mapM_nil] at h
    cases h
    exact ⟨nofun, nofun⟩
  | cons a l ih =>
    rw [List.mapM_cons] at h
    obtain ⟨b, hb, h⟩ := Option.bind_eq_some_iff.mp h
    obtain ⟨rest, hrest, h⟩ := Option.bind_eq_some_iff.mp h
    cases h
    obtain ⟨hto, hfrom⟩ := ih hrest
    constructor
    · intro a' ha'
      rcases List.mem_cons.mp ha' with rfl | ha'
      · exact ⟨b, List.mem_cons_self, hb⟩
      · obtain ⟨b', hb', hfa⟩ := hto a' ha'
        exact ⟨b', List.mem_cons_of_mem _ hb', hfa⟩
    · intro b' hb'
      rcases List.mem_cons.mp hb' with rfl | hb'
      · exact ⟨a, List.mem_cons_self, hb⟩
      · obtain ⟨a', ha', hfa⟩ := hfrom b' hb'
        exact ⟨a', List.mem_cons_of_mem _ ha', hfa⟩

/-- The results of a loop, from those of its steps. -/
theorem mapM_of_forall₂ {f : α → Option β} {l : List α} {out : List β}
    (h : List.Forall₂ (fun a b => f a = some b) l out) : l.mapM f = some out := by
  induction h with
  | nil => rfl
  | cons hab _ ih => simp [List.mapM_cons, hab, ih]

theorem mapM_isSome {f : α → Option β} {l : List α} : (l.mapM f).isSome ↔ ∀ a ∈ l, (f a).isSome := by
  induction l with
  | nil => exact iff_of_true rfl nofun
  | cons a l ih =>
    rw [List.mapM_cons, List.forall_mem_cons, ← ih]
    cases f a with
    | none => exact ⟨nofun, fun h => nomatch h.1⟩
    | some b =>
      cases l.mapM f with
      | none => exact ⟨nofun, fun h => nomatch h.2⟩
      | some rest => exact iff_of_true rfl ⟨rfl, rfl⟩

theorem foldlM_isSome {step : β → α → Option β} {l : List α} (h : ∀ b, ∀ a ∈ l, (step b a).isSome) (b : β) :
    (l.foldlM step b).isSome := by
  induction l generalizing b with
  | nil => rfl
  | cons a l ih =>
    rw [List.foldlM_cons]
    obtain ⟨next, hnext⟩ := Option.isSome_iff_exists.mp (h b a List.mem_cons_self)
    rw [hnext]
    exact ih (fun b a ha => h b a (List.mem_cons_of_mem _ ha)) next

/-- What the steps of a loop add to a list is what the loop adds. -/
theorem foldlM_adds {step : List β → α → Option (List β)} {adds : α → β → Prop}
    (hstep : ∀ items a out, step items a = some out → ∀ b, b ∈ out ↔ b ∈ items ∨ adds a b) {l : List α}
    {items out : List β} (h : l.foldlM step items = some out) (b : β) :
    b ∈ out ↔ b ∈ items ∨ ∃ a ∈ l, adds a b := by
  induction l generalizing items with
  | nil =>
    rw [List.foldlM_nil] at h
    cases h
    exact ⟨.inl, fun h => h.elim id fun ⟨_, hmem, _⟩ => nomatch hmem⟩
  | cons a l ih =>
    rw [List.foldlM_cons] at h
    obtain ⟨next, hnext, h⟩ := Option.bind_eq_some_iff.mp h
    rw [ih h, hstep items a next hnext, or_assoc]
    refine or_congr_right ?_
    constructor
    · rintro (hadds | ⟨a', ha', hadds⟩)
      · exact ⟨a, List.mem_cons_self, hadds⟩
      · exact ⟨a', List.mem_cons_of_mem _ ha', hadds⟩
    · rintro ⟨a', ha', hadds⟩
      rcases List.mem_cons.mp ha' with rfl | ha'
      · exact .inl hadds
      · exact .inr ⟨a', ha', hadds⟩

/-- A loop that stops at the first it finds, and what it has found. -/
theorem foldlM_search {step : Option β → α → Option (Option β)} (hstop : ∀ b a, step (some b) a = some (some b))
    {l : List α} {found : Option β} (h : l.foldlM step none = some found) :
    (found = none ↔ ∀ a ∈ l, step none a = some none) ∧ ∀ b, found = some b → ∃ a ∈ l, step none a = some (some b) := by
  have hkeep (l : List α) (b : β) : l.foldlM step (some b) = some (some b) := by
    induction l with
    | nil => rfl
    | cons a l ih =>
      rw [List.foldlM_cons, hstop]
      exact ih
  induction l with
  | nil =>
    cases h
    exact ⟨⟨fun _ => nofun, fun _ => rfl⟩, nofun⟩
  | cons a l ih =>
    rw [List.foldlM_cons] at h
    obtain ⟨first, hfirst, h⟩ := Option.bind_eq_some_iff.mp h
    cases first with
    | none =>
      obtain ⟨hnone, hsome⟩ := ih h
      constructor
      · rw [hnone, List.forall_mem_cons]
        exact ⟨fun hrest => ⟨hfirst, hrest⟩, And.right⟩
      · intro b hb
        obtain ⟨a', ha', hfound⟩ := hsome b hb
        exact ⟨a', List.mem_cons_of_mem _ ha', hfound⟩
    | some b =>
      rw [hkeep] at h
      cases h
      constructor
      · refine ⟨nofun, fun hall => ?_⟩
        rw [hall a List.mem_cons_self] at hfirst
        cases hfirst
      · intro b' hb'
        cases hb'
        exact ⟨a, List.mem_cons_self, hfirst⟩

end Loops
