import Bebop.Compiler.PathNormalize

/-!
# Bebop — when two paths are one file

`bebop__path_mark` knows a path by its normalized text. That text says where the path leads but
for two things: the normalizer counts the steps that climb above the start apart from the text,
and its caller drops the count; and the normalizer leaves the empty path alone.
-/

namespace Bebop.Compiler

open Bytes LexicalPath

/-- A path shorter than `PATH_MAX`. -/
structure Path (max : Nat) extends CString where
  short : bytes.length < max

namespace Path

variable {max : Nat}

def leads (path : Path max) : Identity UInt8 := identity slash dot path.bytes

def key (path : Path max) : List UInt8 :=
  if path.bytes = [] then []
  else render slash dot path.leads.absolute path.leads.names

/-- The normalizer stays inside the string and its terminator. -/
def WritesInside (path : Path max) : Prop :=
  ∀ junk size, ∃ normalized, normalizePath max (path.bytes ++ 0 :: junk) size = some normalized ∧
    normalized.path.drop (path.bytes.length + 1) = junk

def Idempotent (path : Path max) : Prop :=
  ∀ junk size normalized, normalizePath max (path.bytes ++ 0 :: junk) size = some normalized →
    ∃ again, normalizePath max normalized.path size = some again ∧
      cstr again.path = cstr normalized.path

/-- Once the first is marked, the second counts as recorded, in any work list. -/
def SameFile (p q : Path max) : Prop :=
  ∀ seen recorded seen', pathMark max seen p.toCString true = some (recorded, seen') →
    ∃ seen'', pathMark max seen' q.toCString true = some (true, seen'')

/-- Paths that differ only in how often they climb; or an empty one and its equal. -/
def Confused (p q : Path max) : Prop :=
  if p.bytes = [] ↔ q.bytes = [] then
    p.leads.absolute = q.leads.absolute ∧ p.leads.names = q.leads.names ∧
      p.leads.climbs ≠ q.leads.climbs
  else p.leads = q.leads

theorem names_isName (path : Path max) : ∀ c ∈ path.leads.names, IsName slash dot c :=
  resolve_isName path.bytes

end Path

/-! ## Writes and repetition -/

theorem normalizePath_refuses {max size : Nat} {path : List UInt8}
    (h : size = 0 ∨ charAt path 0 = 0) : normalizePath max path size = some ⟨false, none, path⟩ := by
  rw [normalizePath, if_pos h]

theorem normalizePath_refuses_nil {max size : Nat} {s : List UInt8} (h : size = 0 ∨ s = [])
    (junk : List UInt8) :
    normalizePath max (s ++ 0 :: junk) size = some ⟨false, none, s ++ 0 :: junk⟩ := by
  apply normalizePath_refuses
  rcases h with h | rfl
  · exact .inl h
  · exact .inr rfl

theorem drop_string (s junk : List UInt8) : (s ++ 0 :: junk).drop (s.length + 1) = junk := by
  rw [List.append_cons, List.drop_left' (by simp)]

namespace Path

variable {max : Nat}

theorem writesInside (path : Path max) : path.WritesInside := by
  intro junk size
  by_cases hsize : size = 0 ∨ path.bytes = []
  · exact ⟨_, normalizePath_refuses_nil hsize junk, drop_string _ _⟩
  · push Not at hsize
    obtain ⟨buf, back, hnorm, -, -, -, hdrop⟩ :=
      normalizePath_spec hsize.2 path.terminated path.short hsize.1 junk
    exact ⟨_, hnorm, hdrop⟩

theorem idempotent (path : Path max) : path.Idempotent := by
  intro junk size normalized hnorm
  by_cases hsize : size = 0 ∨ path.bytes = []
  · rw [normalizePath_refuses_nil hsize] at hnorm
    cases hnorm
    exact ⟨_, normalizePath_refuses_nil hsize junk, rfl⟩
  push Not at hsize
  obtain ⟨buf, back, hspec, hbuf, hzero, hlen, -⟩ :=
    normalizePath_spec hsize.2 path.terminated path.short hsize.1 junk
  rw [hspec] at hnorm
  cases hnorm
  -- the text is a path that leads where the first one does, without the climbs
  have hnames := path.names_isName
  have hleads := identity_render slash_ne_dot path.leads.absolute hnames
  have hne := render_ne_nil path.leads.absolute hnames
  have hshort := Nat.lt_of_le_of_lt hlen path.short
  obtain ⟨buf', back', hspec', hbuf', -⟩ := normalizePath_spec hne hzero hshort hsize.1 back
  have habs := congrArg Identity.absolute hleads
  have hnames' := congrArg Identity.names hleads
  simp only [identity] at habs hnames'
  rw [habs, hnames'] at hbuf'
  refine ⟨_, hbuf ▸ hspec', ?_⟩
  rw [cstr_of_eq hzero hbuf, cstr_of_eq hzero hbuf']

/-! ## Marks -/

theorem pathNormalizeInto_of {path : Path max} {normalized : Normalized}
    (h : normalizePath max (path.bytes ++ [0]) max = some normalized) :
    pathNormalizeInto max path.bytes max = some normalized.path := by
  have hshort := path.short
  have htake : path.bytes.take (max - 1) = path.bytes := List.take_of_length_le (by omega)
  simp only [pathNormalizeInto, htake, h]
  rfl

theorem pathNormalizeInto_eq (path : Path max) :
    ∃ norm, pathNormalizeInto max path.bytes max = some norm ∧ cstr norm = path.key := by
  have hshort := path.short
  unfold key
  by_cases hnil : path.bytes = []
  · refine ⟨_, pathNormalizeInto_of (normalizePath_refuses_nil (.inr hnil) []), ?_⟩
    rw [if_pos hnil, hnil]
    rfl
  · obtain ⟨buf, back, hspec, hbuf, hzero, -⟩ :=
      normalizePath_spec hnil path.terminated hshort (show max ≠ 0 by omega) []
    rw [if_neg hnil]
    exact ⟨_, pathNormalizeInto_of hspec, cstr_of_eq hzero hbuf⟩

theorem pathMark_eq (path : Path max) (seen : List (List UInt8)) (stored : Bool) :
    pathMark max seen path.toCString stored =
      some (if path.key ∈ seen then (true, seen)
        else (false, if stored then path.key :: seen else seen)) := by
  obtain ⟨norm, hnorm, hkey⟩ := path.pathNormalizeInto_eq
  rw [pathMark, hnorm, Option.bind_eq_bind, Option.bind_some]
  simp only [hkey]
  split <;> rfl

theorem sameFile_iff (p q : Path max) : p.SameFile q ↔ p.key = q.key := by
  constructor
  · intro h
    obtain ⟨seen, hmark⟩ := h [] false [p.key] (p.pathMark_eq [] true)
    rw [pathMark_eq] at hmark
    split at hmark
    · next hmem => exact (List.mem_singleton.mp hmem).symm
    · cases hmark
  · intro hkey seen recorded seen' hmark
    rw [pathMark_eq] at hmark ⊢
    have hmem : q.key ∈ seen' := by
      rw [← hkey]
      split at hmark
      · next hmem =>
        cases hmark
        exact hmem
      · cases hmark
        exact List.mem_cons_self
    exact ⟨seen', by rw [if_pos hmem]⟩

theorem key_eq_nil (path : Path max) : path.key = [] ↔ path.bytes = [] := by
  unfold key
  split
  · next hnil => exact iff_of_true rfl hnil
  · next hne => exact iff_of_false (render_ne_nil _ path.names_isName) hne

theorem key_eq_iff {p q : Path max} (hp : p.bytes ≠ []) (hq : q.bytes ≠ []) :
    p.key = q.key ↔ p.leads.absolute = q.leads.absolute ∧ p.leads.names = q.leads.names := by
  rw [key, key, if_neg hp, if_neg hq]
  constructor
  · intro h
    have hleads := congrArg (identity slash dot) h
    rw [identity_render slash_ne_dot _ p.names_isName, identity_render slash_ne_dot _ q.names_isName]
      at hleads
    simpa using hleads
  · rintro ⟨habs, hnames⟩
    rw [habs, hnames]

/-- The writes of the normalizer stay inside the string and doing it again changes nothing. Two
paths count as one file if and only if they lead to the same place, unless they are `Confused`. -/
theorem sameFile_iff_leads (p q : Path max) :
    p.WritesInside ∧ p.Idempotent ∧ ((p.SameFile q ↔ p.leads = q.leads) ↔ ¬p.Confused q) := by
  refine ⟨p.writesInside, p.idempotent, ?_⟩
  rw [sameFile_iff, Confused]
  split
  · next hempty =>
    have hkey : p.key = q.key ↔
        p.leads.absolute = q.leads.absolute ∧ p.leads.names = q.leads.names := by
      by_cases hp : p.bytes = []
      · have hleads : p.leads = q.leads := by rw [leads, leads, hp, hempty.mp hp]
        have hkeys : p.key = q.key := by rw [p.key_eq_nil.mpr hp, q.key_eq_nil.mpr (hempty.mp hp)]
        exact iff_of_true hkeys ⟨by rw [hleads], by rw [hleads]⟩
      · exact key_eq_iff hp fun hq => hp (hempty.mpr hq)
    rw [hkey, Identity.ext_iff]
    tauto
  · next hempty =>
    -- only the key of the empty path is empty
    have hkey : p.key ≠ q.key := by
      intro h
      rw [← p.key_eq_nil, ← q.key_eq_nil, h] at hempty
      exact hempty Iff.rfl
    tauto

end Path

/-- `../a` -/
def parentPath : Path 4096 := ⟨⟨[0x2e, 0x2e, 0x2f, 0x61], by decide⟩, by decide⟩

/-- `a` -/
def childPath : Path 4096 := ⟨⟨[0x61], by decide⟩, by decide⟩

theorem parentPath_sameFile_childPath :
    ¬∀ p q : Path 4096,
      p.WritesInside ∧ p.Idempotent ∧ (p.SameFile q ↔ p.leads = q.leads) := by
  intro h
  have hkey : parentPath.key = childPath.key := by decide
  have hleads : parentPath.leads ≠ childPath.leads := by decide
  exact hleads ((h parentPath childPath).2.2.mp ((Path.sameFile_iff _ _).mpr hkey))

end Bebop.Compiler
