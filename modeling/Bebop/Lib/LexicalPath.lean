import Mathlib.Data.List.Basic

/-!
# Lexical paths

A path is a text over an alphabet with a separator `slash` and a symbol `dot`. `identity`
is where it leads: whether it starts at the root, how often it climbs above its start, and
the names from there. `render` is the text of a path that does not climb.
-/

namespace LexicalPath

variable {α : Type} [DecidableEq α] (slash dot : α)

/-! ## Pieces -/

/-- What stands between separators, if anything does. -/
def pieces (s : List α) : List (List α) := (s.splitOn slash).filter (· ≠ [])

@[simp] theorem pieces_nil : pieces slash [] = [] := by simp [pieces]

@[simp] theorem pieces_slash (s : List α) : pieces slash (slash :: s) = pieces slash s := by
  simp [pieces, List.splitOn_cons_eq_if_modifyHead]

variable {slash}

theorem pieces_slashes {front : List α} (h : ∀ c ∈ front, c = slash) (s : List α) :
    pieces slash (front ++ s) = pieces slash s := by
  induction front with
  | nil => rfl
  | cons c front ih =>
    obtain ⟨rfl, hfront⟩ := List.forall_mem_cons.mp h
    rw [List.cons_append, pieces_slash, ih hfront]

theorem pieces_last {c : List α} (hne : c ≠ []) (h : slash ∉ c) : pieces slash c = [c] := by
  simp [pieces, List.splitOn_eq_singleton h, hne]

theorem pieces_cons {c : List α} (hne : c ≠ []) (h : slash ∉ c) (s : List α) :
    pieces slash (c ++ slash :: s) = c :: pieces slash s := by
  simp [pieces, List.splitOn_append_cons_self_of_not_mem h, hne]

theorem exists_front (slash : α) (s : List α) :
    ∃ front t, s = front ++ t ∧ (∀ a ∈ front, a = slash) ∧ t.head? ≠ some slash := by
  induction s with
  | nil => exact ⟨[], [], rfl, nofun, nofun⟩
  | cons a s ih =>
    by_cases ha : a = slash
    · obtain ⟨front, t, rfl, hfront, ht⟩ := ih
      exact ⟨a :: front, t, rfl, List.forall_mem_cons.mpr ⟨ha, hfront⟩, ht⟩
    · exact ⟨[], a :: s, rfl, nofun, by simpa using ha⟩

theorem pieces_induction (slash : α) {motive : List α → Prop}
    (nil : ∀ front, (∀ a ∈ front, a = slash) → motive front)
    (last : ∀ front c, (∀ a ∈ front, a = slash) → c ≠ [] → slash ∉ c → motive (front ++ c))
    (cons : ∀ front c s, (∀ a ∈ front, a = slash) → c ≠ [] → slash ∉ c → motive s →
      motive (front ++ (c ++ slash :: s)))
    (s : List α) : motive s := by
  obtain ⟨front, t, hs, hfront, ht⟩ := exists_front slash s
  by_cases hnil : t = []
  · rw [hs, hnil, List.append_nil]
    exact nil front hfront
  by_cases hmem : slash ∈ t
  · obtain ⟨c, rest, htc, hc⟩ := List.eq_append_cons_of_mem hmem
    have hne : c ≠ [] := by
      rintro rfl
      rw [htc] at ht
      exact ht rfl
    rw [hs, htc]
    exact cons front c rest hfront hne hc (pieces_induction slash nil last cons rest)
  · rw [hs]
    exact last front t hfront hnil hmem
termination_by s.length
decreasing_by
  rw [hs, htc]
  simp only [List.length_append, List.length_cons]
  omega

theorem not_mem_of_mem_splitOn {s c : List α} (h : c ∈ s.splitOn slash) : slash ∉ c := by
  induction s generalizing c with
  | nil =>
    rw [List.splitOn_nil, List.mem_singleton] at h
    rw [h]
    exact List.not_mem_nil
  | cons a s ih =>
    rw [List.splitOn_cons_eq_if_modifyHead] at h
    split at h
    · rcases List.mem_cons.mp h with rfl | h
      · exact List.not_mem_nil
      · exact ih h
    · next ha =>
      cases hs : s.splitOn slash with
      | nil => exact absurd hs (List.splitOn_ne_nil slash s)
      | cons first rest =>
        rw [hs] at h ih
        rcases List.mem_cons.mp h with rfl | h
        · intro hmem
          rcases List.mem_cons.mp hmem with rfl | hmem
          · simp at ha
          · exact ih List.mem_cons_self hmem
        · exact ih (List.mem_cons_of_mem _ h)

theorem of_mem_pieces {s c : List α} (h : c ∈ pieces slash s) : c ≠ [] ∧ slash ∉ c := by
  obtain ⟨hsplit, hne⟩ := List.mem_filter.mp h
  exact ⟨by simpa using hne, not_mem_of_mem_splitOn hsplit⟩

/-! ## Resolution -/

/-- The climbs above the start and the names from there. -/
@[ext]
structure Resolved (α : Type) where
  climbs : Nat
  names : List (List α)
  deriving DecidableEq

def Resolved.step (r : Resolved α) (piece : List α) : Resolved α :=
  if piece = [dot] then r
  else if piece = [dot, dot] then
    if r.names = [] then { r with climbs := r.climbs + 1 }
    else { r with names := r.names.dropLast }
  else { r with names := r.names ++ [piece] }

def Resolved.steps (r : Resolved α) (pieces : List (List α)) : Resolved α :=
  pieces.foldl (Resolved.step dot) r

variable (slash) in
structure IsName (c : List α) : Prop where
  ne_nil : c ≠ []
  no_slash : slash ∉ c
  ne_dot : c ≠ [dot]
  ne_dots : c ≠ [dot, dot]

variable {dot}

theorem Resolved.step_isName {r : Resolved α} {piece : List α} (hr : ∀ c ∈ r.names, IsName slash dot c)
    (hne : piece ≠ []) (hslash : slash ∉ piece) : ∀ c ∈ (r.step dot piece).names, IsName slash dot c := by
  unfold Resolved.step
  split
  · exact hr
  · next hdot =>
    split
    · split
      · exact hr
      · intro c hc
        exact hr c (List.dropLast_subset _ hc)
    · next hdots =>
      intro c hc
      rcases List.mem_append.mp hc with hc | hc
      · exact hr c hc
      · rw [List.mem_singleton.mp hc]
        exact ⟨hne, hslash, hdot, hdots⟩

theorem Resolved.steps_isName {r : Resolved α} {ps : List (List α)} (hr : ∀ c ∈ r.names, IsName slash dot c)
    (hps : ∀ c ∈ ps, c ≠ [] ∧ slash ∉ c) : ∀ c ∈ (r.steps dot ps).names, IsName slash dot c := by
  induction ps generalizing r with
  | nil => exact hr
  | cons piece ps ih =>
    obtain ⟨⟨hne, hslash⟩, hps⟩ := List.forall_mem_cons.mp hps
    exact ih (Resolved.step_isName hr hne hslash) hps

theorem Resolved.steps_names {names : List (List α)} (h : ∀ c ∈ names, IsName slash dot c) (r : Resolved α) :
    r.steps dot names = { r with names := r.names ++ names } := by
  induction names generalizing r with
  | nil => simp [Resolved.steps]
  | cons name names ih =>
    obtain ⟨hname, hnames⟩ := List.forall_mem_cons.mp h
    have hstep : r.step dot name = { r with names := r.names ++ [name] } := by
      rw [Resolved.step, if_neg hname.ne_dot, if_neg hname.ne_dots]
    show Resolved.steps dot (r.step dot name) names = _
    rw [hstep, ih hnames]
    simp

theorem Resolved.steps_of_noDots {ps : List (List α)} (h : [dot, dot] ∉ ps) (r : Resolved α) :
    r.steps dot ps = { r with names := r.names ++ ps.filter (· ≠ [dot]) } := by
  induction ps generalizing r with
  | nil => simp [Resolved.steps]
  | cons piece ps ih =>
    have hdots : piece ≠ [dot, dot] := fun hpiece => h (hpiece ▸ List.mem_cons_self)
    have hstep : r.steps dot (piece :: ps) = (r.step dot piece).steps dot ps := rfl
    rw [hstep, ih (fun hmem => h (List.mem_cons_of_mem _ hmem)), Resolved.step, if_neg hdots]
    by_cases hdot : piece = [dot]
    · rw [if_pos hdot, List.filter_cons_of_neg (by simpa using hdot)]
    · rw [if_neg hdot, List.filter_cons_of_pos (by simpa using hdot), List.append_assoc, List.singleton_append]

theorem Resolved.steps_append (r : Resolved α) (ps qs : List (List α)) :
    r.steps dot (ps ++ qs) = (r.steps dot ps).steps dot qs := List.foldl_append

/-! ## Where a path leads -/

@[ext]
structure Identity (α : Type) where
  absolute : Bool
  climbs : Nat
  names : List (List α)
  deriving DecidableEq

variable (slash dot)

def resolve (s : List α) : Resolved α := Resolved.steps dot ⟨0, []⟩ (pieces slash s)

def isAbsolute (s : List α) : Bool := s.head? = some slash

def identity (s : List α) : Identity α :=
  ⟨isAbsolute slash s, (resolve slash dot s).climbs, (resolve slash dot s).names⟩

def render (absolute : Bool) (names : List (List α)) : List α :=
  if absolute then slash :: [slash].intercalate names
  else if names = [] then [dot]
  else [slash].intercalate names

variable {slash dot}

theorem resolve_isName (s : List α) : ∀ c ∈ (resolve slash dot s).names, IsName slash dot c :=
  Resolved.steps_isName nofun fun _ hc => of_mem_pieces hc

theorem pieces_intercalate {names : List (List α)} (h : ∀ c ∈ names, IsName slash dot c) :
    pieces slash ([slash].intercalate names) = names := by
  cases names with
  | nil => exact pieces_nil slash
  | cons name names =>
    rw [pieces, List.splitOn_intercalate slash (fun c hc => (h c hc).no_slash) (by simp)]
    exact List.filter_eq_self.mpr fun c hc => by simpa using (h c hc).ne_nil

theorem intercalate_eq_nil {names : List (List α)} (h : ∀ c ∈ names, IsName slash dot c) :
    [slash].intercalate names = [] ↔ names = [] := by
  constructor
  · intro hnil
    have hpieces := pieces_intercalate h
    rw [hnil, pieces_nil] at hpieces
    exact hpieces.symm
  · rintro rfl
    rfl

omit [DecidableEq α] in
theorem head?_intercalate {names : List (List α)} (h : ∀ c ∈ names, IsName slash dot c) :
    ([slash].intercalate names).head? ≠ some slash := by
  match names with
  | [] => simp
  | [] :: _ => exact absurd rfl (h [] List.mem_cons_self).ne_nil
  | (a :: name) :: names =>
    have hslash := (h _ List.mem_cons_self).no_slash
    have hhead : ([slash].intercalate ((a :: name) :: names)).head? = some a := by
      cases names <;> simp [List.intercalate]
    rw [hhead]
    intro ha
    cases ha
    exact hslash List.mem_cons_self

omit [DecidableEq α] in
theorem mem_intercalate {names : List (List α)} {a : α} (h : a ∈ [slash].intercalate names) :
    a = slash ∨ ∃ c ∈ names, a ∈ c := by
  induction names with
  | nil => cases h
  | cons name names ih =>
    by_cases hnil : names = []
    · rw [hnil, List.intercalate_singleton] at h
      exact .inr ⟨name, List.mem_cons_self, h⟩
    · rw [List.intercalate_cons_of_ne_nil hnil, List.append_assoc, List.mem_append,
        List.mem_append, List.mem_singleton] at h
      rcases h with h | h | h
      · exact .inr ⟨name, List.mem_cons_self, h⟩
      · exact .inl h
      · rcases ih h with h | ⟨c, hc, ha⟩
        · exact .inl h
        · exact .inr ⟨c, List.mem_cons_of_mem _ hc, ha⟩

omit [DecidableEq α] in
theorem mem_render {absolute : Bool} {names : List (List α)} {a : α}
    (h : a ∈ render slash dot absolute names) : a = slash ∨ a = dot ∨ ∃ c ∈ names, a ∈ c := by
  have hnames : a ∈ [slash].intercalate names → a = slash ∨ a = dot ∨ ∃ c ∈ names, a ∈ c := by
    intro ha
    rcases mem_intercalate ha with ha | ha
    · exact .inl ha
    · exact .inr (.inr ha)
  unfold render at h
  split at h
  · rcases List.mem_cons.mp h with h | h
    · exact .inl h
    · exact hnames h
  · split at h
    · exact .inr (.inl (List.mem_singleton.mp h))
    · exact hnames h

theorem render_ne_nil (absolute : Bool) {names : List (List α)} (h : ∀ c ∈ names, IsName slash dot c) :
    render slash dot absolute names ≠ [] := by
  unfold render
  split
  · exact List.cons_ne_nil _ _
  · split
    · exact List.cons_ne_nil _ _
    · next hne => exact fun hnil => hne ((intercalate_eq_nil h).mp hnil)

/-- A rendered path leads where it says. -/
theorem identity_render (hne : slash ≠ dot) (absolute : Bool) {names : List (List α)}
    (h : ∀ c ∈ names, IsName slash dot c) :
    identity slash dot (render slash dot absolute names) = ⟨absolute, 0, names⟩ := by
  have hnames := Resolved.steps_names h ⟨0, []⟩
  have hpieces := pieces_intercalate h
  unfold identity resolve isAbsolute render
  cases absolute with
  | true => simp [hpieces, hnames]
  | false =>
    by_cases hnil : names = []
    · have hdot : pieces slash [dot] = [[dot]] := pieces_last (by simp) (by simpa using hne)
      simp [hnil, hdot, Resolved.steps, Resolved.step, hne.symm]
    · simp [hnil, hpieces, hnames, head?_intercalate h]

end LexicalPath
