import Bebop.Lib.Unicode
import Mathlib.Algebra.Ring.Nat

/-!
# Positions in a text

An editor names a place in a text by its line and the UTF-16 code units in front of it on
the line, a program by the bytes of the UTF-8 form in front of it. `lspPosition` and
`lspOffset` translate between the two: a line ends with `\n`, `\r\n` or `\r`, a column
behind the end of a line is the end, and there is no position between the code units of a
pair or the characters of `\r\n`.
-/

namespace TextPositions

open Unicode

/-! ## Bytes and code units -/

variable (text : List Char)

def byteCount : Nat := (utf8 text).length

def unitCount : Nat := (text.flatMap units).length

def IsAscii : Prop := ∀ c ∈ text, c.toNat < 0x80

instance (text : List Char) : Decidable (IsAscii text) := List.decidableBAll _ _

theorem byteCount_cons (c : Char) (text : List Char) :
    byteCount (c :: text) = (String.utf8EncodeChar c).length + byteCount text := length_utf8_cons c text

theorem unitCount_cons (c : Char) (text : List Char) : unitCount (c :: text) = (units c).length + unitCount text := by
  unfold unitCount
  rw [List.flatMap_cons, List.length_append]

theorem units_cases (c : Char) :
    c.toNat < 0x80 ∧ (units c).length = 1 ∧ (String.utf8EncodeChar c).length = 1 ∨
      ¬c.toNat < 0x80 ∧ 1 ≤ (units c).length ∧ (units c).length ≤ 2 ∧
        (units c).length < (String.utf8EncodeChar c).length := by
  have hlength := (utf8Shape c).length_eq
  by_cases hascii : c.toNat < 0x80
  · rw [if_pos hascii] at hlength
    have hunits : units c = [.ofNat c.toNat] := if_pos (by omega)
    rw [hunits]
    exact .inl ⟨hascii, rfl, hlength⟩
  · rw [if_neg hascii] at hlength
    refine .inr ⟨hascii, ?_⟩
    by_cases hbmp : c.toNat < 0x10000
    · have hunits : (units c).length = 1 := by rw [units, if_pos hbmp]; rfl
      rw [if_pos hbmp] at hlength
      split at hlength <;> omega
    · have hunits : (units c).length = 2 := by rw [units, if_neg hbmp]; rfl
      rw [if_neg (by omega), if_neg hbmp] at hlength
      omega

theorem unitCount_le : unitCount text ≤ byteCount text := by
  induction text with
  | nil => exact Nat.le_refl 0
  | cons c text ih =>
    rw [unitCount_cons, byteCount_cons]
    rcases units_cases c with h | h <;> omega

theorem unitCount_eq_iff : unitCount text = byteCount text ↔ IsAscii text := by
  induction text with
  | nil => exact iff_of_true rfl (by simp [IsAscii])
  | cons c text ih =>
    have hle := unitCount_le text
    have hascii : IsAscii (c :: text) ↔ c.toNat < 0x80 ∧ IsAscii text := List.forall_mem_cons
    rw [unitCount_cons, byteCount_cons, hascii, ← ih]
    rcases units_cases c with h | h <;> omega

theorem length_le_unitCount : text.length ≤ unitCount text := by
  induction text with
  | nil => exact Nat.le_refl 0
  | cons c text ih =>
    rw [unitCount_cons, List.length_cons]
    rcases units_cases c with h | h <;> omega

/-! ## Columns -/

def columnBytes : List Char → Nat → Option Nat
  | [], _ => some 0
  | c :: rest, column =>
    if column = 0 then some 0
    else if column < (units c).length then none
    else (columnBytes rest (column - (units c).length)).map ((String.utf8EncodeChar c).length + ·)

theorem columnBytes_of_ge {text : List Char} {column : Nat} (h : unitCount text ≤ column) :
    columnBytes text column = some (byteCount text) := by
  induction text generalizing column with
  | nil => rfl
  | cons c text ih =>
    rw [unitCount_cons] at h
    have hpos : 1 ≤ (units c).length := by rcases units_cases c with hc | hc <;> omega
    unfold columnBytes
    rw [if_neg (by omega), if_neg (by omega), ih (by omega), Option.map_some, byteCount_cons]

/-- In front of a column are as many bytes as code units if it is ASCII, or more. -/
theorem columnBytes_eq_iff {text : List Char} {column bytes : Nat} (h : columnBytes text column = some bytes)
    (hle : column ≤ unitCount text) :
    column ≤ bytes ∧ (bytes = column ↔ column ≤ text.length ∧ IsAscii (text.take column)) := by
  induction text generalizing column bytes with
  | nil =>
    obtain rfl := Option.some.inj h
    obtain rfl : column = 0 := Nat.le_zero.mp hle
    exact ⟨Nat.le_refl 0, by simp [IsAscii]⟩
  | cons c text ih =>
    unfold columnBytes at h
    by_cases hzero : column = 0
    · rw [if_pos hzero] at h
      obtain rfl := Option.some.inj h
      subst hzero
      exact ⟨Nat.le_refl 0, by simp [IsAscii]⟩
    · rw [if_neg hzero] at h
      split at h
      · cases h
      · rename_i hunits
        obtain ⟨rest, hrest, rfl⟩ := Option.map_eq_some_iff.mp h
        rw [unitCount_cons] at hle
        obtain ⟨hmore, hiff⟩ := ih hrest (by omega)
        obtain ⟨k, rfl⟩ := Nat.exists_eq_succ_of_ne_zero hzero
        have hascii : IsAscii ((c :: text).take (k + 1)) ↔ c.toNat < 0x80 ∧ IsAscii (text.take k) := by
          rw [List.take_succ_cons]
          exact List.forall_mem_cons
        rw [Nat.succ_eq_add_one, hascii, List.length_cons]
        rcases units_cases c with ⟨hc, hone, hbytes⟩ | ⟨hc, hpos, -, hlt⟩
        · rw [hone, Nat.succ_sub_one] at hiff hmore
          have hrest' : (String.utf8EncodeChar c).length + rest = k + 1 ↔ rest = k := by omega
          rw [hrest', hiff, Nat.add_le_add_iff_right]
          exact ⟨by omega, and_congr_right fun _ => (and_iff_right hc).symm⟩
        · exact ⟨by omega, iff_of_false (by omega) (by tauto)⟩

/-- A column is as many bytes from the beginning of the line as code units where the
characters in front of it are ASCII, and where it is the length of the line in bytes. -/
theorem columnBytes_exact_iff (column : Nat) :
    (∀ bytes, columnBytes text column = some bytes → bytes = column) ↔
      columnBytes text column = none ∨ column ≤ text.length ∧ IsAscii (text.take column) ∨ column = byteCount text := by
  have hunits := unitCount_le text
  cases h : columnBytes text column with
  | none => simp
  | some bytes =>
    have hforall : (∀ b, some bytes = some b → b = column) ↔ bytes = column := by
      constructor
      · intro hall
        exact hall bytes rfl
      · rintro rfl b hb
        exact (Option.some.inj hb).symm
    rw [hforall]
    by_cases hle : column ≤ unitCount text
    · obtain ⟨hmore, hiff⟩ := columnBytes_eq_iff h hle
      rw [hiff]
      constructor
      · exact fun hascii => .inr (.inl hascii)
      · rintro (hnone | hascii | rfl)
        · cases hnone
        · exact hascii
        · -- the whole line has as many code units as bytes
          have hbytes := columnBytes_of_ge hunits
          rw [h] at hbytes
          exact hiff.mp (Option.some.inj hbytes)
    · have hbytes := columnBytes_of_ge (Nat.le_of_not_le hle)
      rw [h] at hbytes
      obtain rfl := Option.some.inj hbytes
      constructor
      · rintro rfl
        exact .inr (.inr rfl)
      · rintro (hnone | ⟨hlength, -⟩ | rfl)
        · cases hnone
        · have := length_le_unitCount text
          omega
        · rfl

/-! ## Lines -/

structure Line where
  text : List Char
  ending : List Char
  deriving DecidableEq

def Line.size (l : Line) : Nat := byteCount l.text + byteCount l.ending

def Line.prependText (c : Char) (l : Line) : Line := { l with text := c :: l.text }

def Line.prependEnding (c : Char) (l : Line) : Line := { l with ending := c :: l.ending }

def lines : List Char → List Line
  | [] => [⟨[], []⟩]
  | c :: rest =>
    if c = '\n' ∨ c = '\r' ∧ rest.head? ≠ some '\n' then ⟨[], [c]⟩ :: lines rest
    -- the line that `\n` ends is empty, and `\r` becomes a part of its end
    else if c = '\r' then (lines rest).modifyHead (Line.prependEnding c)
    else (lines rest).modifyHead (Line.prependText c)

theorem lines_ne_nil : lines text ≠ [] := by
  induction text with
  | nil => exact List.cons_ne_nil _ _
  | cons c text ih =>
    unfold lines
    split
    · exact List.cons_ne_nil _ _
    · split
      · rwa [ne_eq, List.modifyHead_eq_nil_iff]
      · rwa [ne_eq, List.modifyHead_eq_nil_iff]

def lastLine : List Char := ((lines text).getLastD ⟨[], []⟩).text

def lineStarts (start : Nat) : List Line → List Nat
  | [] => []
  | l :: rest => start :: lineStarts (start + l.size) rest

theorem length_lineStarts (start : Nat) (ls : List Line) : (lineStarts start ls).length = ls.length := by
  induction ls generalizing start with
  | nil => rfl
  | cons l ls ih => rw [lineStarts, List.length_cons, ih, List.length_cons]

theorem lineStarts_modifyHead {f : Line → Line} {n : Nat} (hf : ∀ l, (f l).size = n + l.size) (start : Nat)
    (ls : List Line) : lineStarts start (ls.modifyHead f) = (lineStarts (start + n) ls).modifyHead fun _ => start := by
  cases ls with
  | nil => rfl
  | cons l ls =>
    rw [List.modifyHead_cons, lineStarts, lineStarts, List.modifyHead_cons, hf, Nat.add_assoc]

/-! ## The positions of the protocol -/

/-- The line and the column of the place between two texts. -/
def lspPosition (pre post : List Char) : Option (Nat × Nat) :=
  if pre.getLast? = some '\r' ∧ post.head? = some '\n' then none
  else some ((lines pre).length - 1, unitCount (lastLine pre))

def lspOffset (line column : Nat) : Option Nat :=
  match (lines text)[line]? with
  | none => some (byteCount text)
  | some l => (columnBytes l.text column).map ((lineStarts 0 (lines text)).getD line 0 + ·)

/-! ## Where lines begin -/

theorem size_prependText (c : Char) (l : Line) :
    (l.prependText c).size = (String.utf8EncodeChar c).length + l.size := by
  unfold Line.size Line.prependText
  rw [byteCount_cons, Nat.add_assoc]

theorem size_prependEnding (c : Char) (l : Line) :
    (l.prependEnding c).size = (String.utf8EncodeChar c).length + l.size := by
  unfold Line.size Line.prependEnding
  rw [byteCount_cons, Nat.add_left_comm]

theorem size_ending (c : Char) : (Line.mk [] [c]).size = (String.utf8EncodeChar c).length := by
  unfold Line.size
  rw [byteCount_cons]
  exact Nat.zero_add _

theorem sum_size_modifyHead {f : Line → Line} {n : Nat} (hf : ∀ l, (f l).size = n + l.size) {ls : List Line}
    (h : ls ≠ []) : ((ls.modifyHead f).map Line.size).sum = n + (ls.map Line.size).sum := by
  obtain ⟨l, ls, rfl⟩ := List.exists_cons_of_ne_nil h
  rw [List.modifyHead_cons, List.map_cons, List.map_cons, List.sum_cons, List.sum_cons, hf, Nat.add_assoc]

theorem sum_size_lines : ((lines text).map Line.size).sum = byteCount text := by
  induction text with
  | nil => rfl
  | cons c text ih =>
    have hne := lines_ne_nil text
    unfold lines
    rw [byteCount_cons, ← ih]
    split
    · rw [List.map_cons, List.sum_cons, size_ending]
    · split
      · exact sum_size_modifyHead (size_prependEnding c) hne
      · exact sum_size_modifyHead (size_prependText c) hne

theorem ending_lastLine (l : Line) : ((lines text).getLastD l).ending = [] := by
  induction text generalizing l with
  | nil => rfl
  | cons c text ih =>
    unfold lines
    obtain ⟨l', ls, hlines⟩ := List.exists_cons_of_ne_nil (lines_ne_nil text)
    split
    · rw [List.getLastD_cons]
      exact ih _
    · rename_i hbreak
      rw [hlines] at ih ⊢
      split
      · -- the line that `\n` ends is not the last
        rename_i hreturn
        have hnext : text.head? = some '\n' := by
          by_contra hnot
          exact hbreak (.inr ⟨hreturn, hnot⟩)
        obtain ⟨rest, rfl⟩ := List.head?_eq_some_iff.mp hnext
        unfold lines at hlines
        rw [if_pos (.inl rfl)] at hlines
        obtain ⟨-, rfl⟩ := List.cons.inj hlines
        obtain ⟨l'', ls, hrest⟩ := List.exists_cons_of_ne_nil (lines_ne_nil rest)
        rw [hrest] at ih ⊢
        exact ih l'
      · cases ls with
        | nil => exact ih l'
        | cons l'' ls => exact ih l'

theorem getLastD_lineStarts {ls : List Line} (h : ls ≠ []) (start : Nat) (l : Line) :
    (lineStarts start ls).getLastD 0 + (ls.getLastD l).size = start + (ls.map Line.size).sum := by
  induction ls generalizing start with
  | nil => exact absurd rfl h
  | cons l' ls ih =>
    rw [lineStarts, List.getLastD_cons, List.getLastD_cons, List.map_cons, List.sum_cons]
    cases ls with
    | nil => rfl
    | cons l'' ls =>
      have hrest := ih (List.cons_ne_nil _ _) (start + l'.size)
      rw [← Nat.add_assoc, ← hrest]
      rfl

theorem getLastD_lineStarts_lines :
    (lineStarts 0 (lines text)).getLastD 0 + byteCount (lastLine text) = byteCount text := by
  have hlast := getLastD_lineStarts (lines_ne_nil text) 0 ⟨[], []⟩
  unfold Line.size at hlast
  rw [ending_lastLine, ← show Line.size = fun l => byteCount l.text + byteCount l.ending from rfl, sum_size_lines,
    Nat.zero_add] at hlast
  exact hlast

end TextPositions
