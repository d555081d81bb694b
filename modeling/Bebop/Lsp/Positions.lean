import Bebop.Lib.TextPositions
import Mathlib.Data.List.Induction
import Mathlib.Data.List.Perm.Subperm
import Mathlib.Data.List.TakeWhile

/-!
# Bebop — positions in the language server

`OpenDocument` of `workspace.cpp`, against the positions of the protocol. The server
announces UTF-16 in `onInitialize`, but it counts the bytes of a line, and it adds the
character of a position to the offset of its line whatever the length of the line.
-/

namespace Bebop.Lsp

open Unicode TextPositions

/-! ## The code -/

/-- `lsp::Position` -/
structure Position where
  line : UInt32
  character : UInt32
  deriving DecidableEq

/-- The loop of `OpenDocument::buildLineIndex`, from the byte at `i` on. -/
def lineOffsetsFrom (i : Nat) : List UInt8 → List Nat
  | [] => []
  | c :: rest =>
    if c = 0x0a then (i + 1) :: lineOffsetsFrom (i + 1) rest
    else if c = 0x0d then
      -- `\r\n` and standalone `\r`
      if rest.head? ≠ some 0x0a then (i + 1) :: lineOffsetsFrom (i + 1) rest else lineOffsetsFrom (i + 1) rest
    else lineOffsetsFrom (i + 1) rest

/-- `OpenDocument` -/
structure OpenDocument where
  content : List UInt8
  lineOffsets : List Nat

/-- `OpenDocument::buildLineIndex` -/
def buildLineIndex (content : List UInt8) : OpenDocument where
  content := content
  lineOffsets := 0 :: lineOffsetsFrom 0 content

/-- `std::upper_bound` of a sorted vector -/
def upperBound (offsets : List Nat) (offset : Nat) : Nat := (offsets.takeWhile (· ≤ offset)).length

/-- `OpenDocument::offsetToPosition` -/
def OpenDocument.offsetToPosition (doc : OpenDocument) (offset : UInt32) : Position :=
  if doc.lineOffsets = [] then ⟨0, offset⟩
  else
    let it := upperBound doc.lineOffsets offset.toNat
    if it = 0 then ⟨0, offset⟩
    else
      let line := it - 1
      ⟨.ofNat line, .ofNat (offset.toNat - doc.lineOffsets.getD line 0)⟩

/-- `OpenDocument::positionToOffset` -/
def OpenDocument.positionToOffset (doc : OpenDocument) (pos : Position) : UInt32 :=
  if doc.lineOffsets.length ≤ pos.line.toNat then .ofNat doc.content.length
  else .ofNat (doc.lineOffsets.getD pos.line.toNat 0 + pos.character.toNat)

/-! ## The index of the lines -/

theorem lineOffsetsFrom_bounds (i : Nat) (bytes : List UInt8) :
    ∀ offset ∈ lineOffsetsFrom i bytes, i < offset ∧ offset ≤ i + bytes.length := by
  induction bytes generalizing i with
  | nil => simp [lineOffsetsFrom]
  | cons c bytes ih =>
    have hrest : ∀ offset ∈ lineOffsetsFrom (i + 1) bytes, i < offset ∧ offset ≤ i + (c :: bytes).length := by
      intro offset hoffset
      have := ih (i + 1) offset hoffset
      rw [List.length_cons]
      omega
    have hnew : ∀ offset ∈ (i + 1) :: lineOffsetsFrom (i + 1) bytes, i < offset ∧ offset ≤ i + (c :: bytes).length := by
      intro offset hoffset
      rcases List.mem_cons.mp hoffset with rfl | hmem
      · rw [List.length_cons]
        omega
      · exact hrest offset hmem
    unfold lineOffsetsFrom
    split_ifs
    · exact hnew
    · exact hnew
    · exact hrest
    · exact hrest

theorem lineOffsetsFrom_increasing (i : Nat) (bytes : List UInt8) : (lineOffsetsFrom i bytes).Pairwise (· < ·) := by
  induction bytes generalizing i with
  | nil => exact List.Pairwise.nil
  | cons c bytes ih =>
    have hnew : ((i + 1) :: lineOffsetsFrom (i + 1) bytes).Pairwise (· < ·) := by
      refine List.pairwise_cons.mpr ⟨?_, ih (i + 1)⟩
      intro offset hoffset
      exact (lineOffsetsFrom_bounds (i + 1) bytes offset hoffset).1
    unfold lineOffsetsFrom
    split_ifs
    · exact hnew
    · exact hnew
    · exact ih (i + 1)
    · exact ih (i + 1)

theorem lineOffsetsFrom_append (i : Nat) {a b : List UInt8} (h : ¬(a.getLast? = some 0x0d ∧ b.head? = some 0x0a)) :
    lineOffsetsFrom i (a ++ b) = lineOffsetsFrom i a ++ lineOffsetsFrom (i + a.length) b := by
  induction a generalizing i with
  | nil => rfl
  | cons c a ih =>
    have hrest : lineOffsetsFrom (i + 1) (a ++ b) = lineOffsetsFrom (i + 1) a ++ lineOffsetsFrom (i + (c :: a).length) b := by
      rw [ih (i + 1)]
      · congr 2
        rw [List.length_cons]
        omega
      · rintro ⟨hlast, hhead⟩
        refine h ⟨?_, hhead⟩
        rw [List.getLast?_cons, hlast]
        rfl
    have hnext (hreturn : c = 0x0d) : (a ++ b).head? ≠ some 0x0a ↔ a.head? ≠ some 0x0a := by
      cases a with
      | nil =>
        refine iff_of_true ?_ (Option.some_ne_none _).symm
        intro hhead
        exact h ⟨congrArg some hreturn, hhead⟩
      | cons d a => exact Iff.rfl
    rw [List.cons_append, lineOffsetsFrom, lineOffsetsFrom, hrest]
    by_cases hreturn : c = 0x0d
    · simp only [hnext hreturn]
      split_ifs <;> rfl
    · rw [if_neg hreturn, if_neg hreturn]
      split_ifs <;> rfl

theorem lineOffsetsFrom_plain (i : Nat) {form : List UInt8} (h : ∀ b ∈ form, b ≠ 0x0a ∧ b ≠ 0x0d) (bytes : List UInt8) :
    lineOffsetsFrom i (form ++ bytes) = lineOffsetsFrom (i + form.length) bytes := by
  induction form generalizing i with
  | nil => rfl
  | cons b form ih =>
    obtain ⟨⟨hfeed, hreturn⟩, hform⟩ := List.forall_mem_cons.mp h
    rw [List.cons_append, lineOffsetsFrom, if_neg hfeed, if_neg hreturn, ih (i + 1) hform, List.length_cons]
    congr 1
    omega

/-! ## The lines of the characters -/

theorem utf8EncodeChar_plain {c : Char} (hfeed : c ≠ '\n') (hreturn : c ≠ '\r') :
    ∀ b ∈ String.utf8EncodeChar c, b ≠ 0x0a ∧ b ≠ 0x0d := by
  intro b hb
  by_cases hascii : c.toNat < 0x80
  · rw [utf8EncodeChar_of_ascii hascii, List.mem_singleton] at hb
    have hnat : b.toNat = c.toNat := by
      rw [hb]
      exact UInt8.toNat_ofNat_of_lt' (Nat.lt_trans hascii (by decide))
    constructor
    · rintro rfl
      exact hfeed (Char.toNat_inj.mp hnat.symm)
    · rintro rfl
      exact hreturn (Char.toNat_inj.mp hnat.symm)
  · have hle := le_utf8EncodeChar hascii b hb
    constructor
    · rintro rfl
      exact absurd hle (by decide)
    · rintro rfl
      exact absurd hle (by decide)

theorem head?_utf8 (text : List Char) : (utf8 text).head? = some 0x0a ↔ text.head? = some '\n' := by
  cases text with
  | nil => simp [utf8]
  | cons c text =>
    have hpos := (utf8Shape c).length_pos
    have hhead : (utf8 (c :: text)).head? = (String.utf8EncodeChar c).head? := by
      unfold utf8
      rw [List.flatMap_cons, List.head?_append_of_ne_nil _ (List.ne_nil_of_length_pos hpos)]
    rw [hhead, List.head?_cons, Option.some.injEq]
    constructor
    · intro h
      by_contra hfeed
      by_cases hreturn : c = '\r'
      · subst hreturn
        exact absurd h (by decide)
      · exact (utf8EncodeChar_plain hfeed hreturn _ (List.mem_of_mem_head? h)).1 rfl
    · rintro rfl
      rfl

theorem getLast?_utf8 {text : List Char} (h : (utf8 text).getLast? = some 0x0d) : text.getLast? = some '\r' := by
  induction text using List.reverseRecOn with
  | nil => cases h
  | append_singleton text c =>
    have hpos := (utf8Shape c).length_pos
    have hlast : (utf8 (text ++ [c])).getLast? = (String.utf8EncodeChar c).getLast? := by
      unfold utf8
      rw [List.flatMap_append, List.flatMap_singleton, List.getLast?_append_of_ne_nil _ (List.ne_nil_of_length_pos hpos)]
    rw [hlast] at h
    rw [List.getLast?_concat]
    by_contra hreturn
    by_cases hfeed : c = '\n'
    · subst hfeed
      exact absurd h (by decide)
    · exact (utf8EncodeChar_plain hfeed (fun hc => hreturn (congrArg some hc)) _ (List.mem_of_getLast? h)).2 rfl

theorem lineOffsetsFrom_utf8 (i : Nat) (text : List Char) :
    i :: lineOffsetsFrom i (utf8 text) = lineStarts i (lines text) := by
  induction text generalizing i with
  | nil => rfl
  | cons c text ih =>
    have hutf8 : utf8 (c :: text) = String.utf8EncodeChar c ++ utf8 text := List.flatMap_cons
    rw [hutf8, lines]
    by_cases hfeed : c = '\n'
    · subst hfeed
      rw [if_pos (.inl rfl), lineStarts, size_ending, ← ih]
      rfl
    · by_cases hreturn : c = '\r'
      · subst hreturn
        by_cases hnext : text.head? = some '\n'
        · rw [if_neg (by simp [hnext]), if_pos rfl, lineStarts_modifyHead (size_prependEnding '\r'), ← ih,
            List.modifyHead_cons]
          have hskip : ¬(utf8 text).head? ≠ some 0x0a := not_not.mpr ((head?_utf8 text).mpr hnext)
          exact congrArg (i :: ·) (if_neg hskip)
        · rw [if_pos (.inr ⟨rfl, hnext⟩), lineStarts, size_ending, ← ih]
          exact congrArg (i :: ·) (if_pos fun hhead => hnext ((head?_utf8 text).mp hhead))
      · rw [if_neg (by simp [hfeed, hreturn]), if_neg hreturn, lineStarts_modifyHead (size_prependText c), ← ih,
          List.modifyHead_cons, lineOffsetsFrom_plain i (utf8EncodeChar_plain hfeed hreturn)]

/-! ## Offsets -/

theorem length_le_of_increasing {offsets : List Nat} {n : Nat} (hincreasing : offsets.Pairwise (· < ·))
    (hle : ∀ offset ∈ offsets, offset ≤ n) : offsets.length ≤ n + 1 := by
  have hnodup : offsets.Nodup := hincreasing.imp fun h => Nat.ne_of_lt h
  have hsub : offsets ⊆ List.range (n + 1) := by
    intro offset hoffset
    exact List.mem_range.mpr (Nat.lt_succ_of_le (hle offset hoffset))
  have hlength := (List.subperm_of_subset hnodup hsub).length_le
  rwa [List.length_range] at hlength

/-- The lines that begin at an offset or in front of it. -/
structure Split (doc : OpenDocument) (offset : Nat) (before after : List Nat) : Prop where
  eq : doc.lineOffsets = before ++ after
  increasing : before.Pairwise (· < ·)
  ne_nil : before ≠ []
  le : ∀ start ∈ before, start ≤ offset
  lt : ∀ start ∈ after, offset < start

theorem Split.upperBound_eq {doc : OpenDocument} {offset : Nat} {before after : List Nat}
    (h : Split doc offset before after) : upperBound doc.lineOffsets offset = before.length := by
  have htake : after.takeWhile (fun start => decide (start ≤ offset)) = [] := by
    cases after with
    | nil => rfl
    | cons start after =>
      have hlt := h.lt start List.mem_cons_self
      rw [List.takeWhile_cons_of_neg]
      simpa using hlt
  unfold upperBound
  rw [h.eq, List.takeWhile_append_of_pos, htake, List.append_nil]
  intro start hstart
  exact decide_eq_true (h.le start hstart)

theorem Split.getD_eq {doc : OpenDocument} {offset : Nat} {before after : List Nat}
    (h : Split doc offset before after) : doc.lineOffsets.getD (before.length - 1) 0 = before.getLastD 0 := by
  have hpos := List.length_pos_of_ne_nil h.ne_nil
  rw [h.eq, List.getD_eq_getElem?_getD, List.getElem?_append_left (by omega), List.getLastD_eq_getLast?,
    List.getLast?_eq_getElem?]

theorem Split.offsetToPosition_eq {doc : OpenDocument} {offset : UInt32} {before after : List Nat}
    (h : Split doc offset.toNat before after) :
    (doc.offsetToPosition offset).line.toNat = before.length - 1 ∧
      (doc.offsetToPosition offset).character.toNat = offset.toNat - before.getLastD 0 ∧
        before.getLastD 0 ≤ offset.toNat := by
  have hpos := List.length_pos_of_ne_nil h.ne_nil
  have hlines := length_le_of_increasing h.increasing h.le
  have hoffset := offset.toNat_lt
  have hne : doc.lineOffsets ≠ [] := by
    rw [h.eq]
    exact List.append_ne_nil_of_left_ne_nil h.ne_nil after
  have hle : before.getLastD 0 ≤ offset.toNat := by
    apply h.le
    rw [List.getLastD_eq_getLast?, List.getLast?_eq_some_getLast h.ne_nil]
    exact List.getLast_mem h.ne_nil
  unfold OpenDocument.offsetToPosition
  rw [if_neg hne, h.upperBound_eq, if_neg (by omega)]
  dsimp only
  rw [h.getD_eq]
  exact ⟨UInt32.toNat_ofNat_of_lt' (show _ < 4294967296 by omega),
    UInt32.toNat_ofNat_of_lt' (show _ < 4294967296 by omega), hle⟩

theorem Split.positionToOffset_eq {doc : OpenDocument} {offset : UInt32} {before after : List Nat}
    (h : Split doc offset.toNat before after) : doc.positionToOffset (doc.offsetToPosition offset) = offset := by
  obtain ⟨hline, hcharacter, hle⟩ := h.offsetToPosition_eq
  have hpos := List.length_pos_of_ne_nil h.ne_nil
  unfold OpenDocument.positionToOffset
  rw [hline, hcharacter, if_neg, h.getD_eq, Nat.add_sub_cancel' hle]
  · exact UInt32.ofNat_toNat
  · rw [h.eq, List.length_append]
    omega

theorem byteCount_eq (text : List Char) : byteCount text = (utf8 text).length := rfl

theorem utf8_append (pre post : List Char) : utf8 (pre ++ post) = utf8 pre ++ utf8 post := List.flatMap_append

theorem split_lines {pre post : List Char} (h : ¬(pre.getLast? = some '\r' ∧ post.head? = some '\n')) :
    Split (buildLineIndex (utf8 (pre ++ post))) (byteCount pre) (lineStarts 0 (lines pre))
      (lineOffsetsFrom (byteCount pre) (utf8 post)) := by
  have hcut : ¬((utf8 pre).getLast? = some 0x0d ∧ (utf8 post).head? = some 0x0a) := by
    rintro ⟨hlast, hhead⟩
    exact h ⟨getLast?_utf8 hlast, (head?_utf8 post).mp hhead⟩
  rw [← lineOffsetsFrom_utf8]
  refine ⟨?_, ?_, List.cons_ne_nil _ _, ?_, ?_⟩
  · unfold buildLineIndex
    dsimp only
    rw [utf8_append, lineOffsetsFrom_append 0 hcut, Nat.zero_add]
    rfl
  · refine List.pairwise_cons.mpr ⟨?_, lineOffsetsFrom_increasing 0 _⟩
    intro start hstart
    exact (lineOffsetsFrom_bounds 0 _ start hstart).1
  · intro start hstart
    rcases List.mem_cons.mp hstart with rfl | hmem
    · exact Nat.zero_le _
    · have hle := (lineOffsetsFrom_bounds 0 _ start hmem).2
      rwa [Nat.zero_add] at hle
  · intro start hstart
    exact (lineOffsetsFrom_bounds _ _ start hstart).1

theorem exists_split (content : List UInt8) (offset : Nat) :
    ∃ before after, Split (buildLineIndex content) offset before after := by
  have hincreasing : (0 :: lineOffsetsFrom 0 content).Pairwise (· < ·) := by
    refine List.pairwise_cons.mpr ⟨?_, lineOffsetsFrom_increasing 0 _⟩
    intro start hstart
    exact (lineOffsetsFrom_bounds 0 _ start hstart).1
  refine ⟨(0 :: lineOffsetsFrom 0 content).takeWhile (· ≤ offset), (0 :: lineOffsetsFrom 0 content).dropWhile (· ≤ offset),
    List.takeWhile_append_dropWhile.symm, hincreasing.sublist (List.takeWhile_sublist _), ?_, ?_, ?_⟩
  · rw [List.takeWhile_cons_of_pos (by simp)]
    exact List.cons_ne_nil _ _
  · intro start hstart
    simpa using List.mem_takeWhile_imp hstart
  · -- the first that is left lies behind the offset, and the others behind the first
    have hrest := hincreasing.sublist (List.dropWhile_sublist (· ≤ offset))
    cases hdrop : (0 :: lineOffsetsFrom 0 content).dropWhile (· ≤ offset) with
    | nil => simp
    | cons first rest =>
      rw [hdrop] at hrest
      have hfirst : offset < first := by
        have hnot := List.head?_dropWhile_not (· ≤ offset) (0 :: lineOffsetsFrom 0 content)
        rw [hdrop] at hnot
        simpa using hnot
      intro start hstart
      rcases List.mem_cons.mp hstart with rfl | hmem
      · exact hfirst
      · exact Nat.lt_trans hfirst ((List.pairwise_cons.mp hrest).1 start hmem)

/-! ## Where the positions are right -/

/-- An offset in front of a character comes back from its right position. -/
def OffsetExact (pre post : List Char) : Prop :=
  ∀ offset : UInt32, offset.toNat = byteCount pre →
    let doc := buildLineIndex (utf8 (pre ++ post))
    let position := doc.offsetToPosition offset
    doc.positionToOffset position = offset ∧
      ∀ line column, lspPosition pre post = some (line, column) →
        position.line.toNat = line ∧ position.character.toNat = column

def PositionExact (text : List Char) (position : Position) : Prop :=
  ∀ offset, lspOffset text position.line.toNat position.character.toNat = some offset →
    ((buildLineIndex (utf8 text)).positionToOffset position).toNat = offset

/-- The offset is past 32 bits or between `\r` and `\n`, or the line in front of it is ASCII. -/
def OffsetCounts (pre post : List Char) : Prop :=
  2 ^ 32 ≤ byteCount pre ∨ lspPosition pre post = none ∨ IsAscii (lastLine pre)

/-- The column is on a line of the text, between the units of a pair, behind ASCII characters
only, or the length of the line in bytes; and the offset is one of 32 bits. -/
def PositionCounts (text : List Char) (position : Position) : Prop :=
  match (lines text)[position.line.toNat]? with
  | none => byteCount text < 2 ^ 32
  | some l =>
    let column := position.character.toNat
    columnBytes l.text column = none ∨
      (column ≤ l.text.length ∧ IsAscii (l.text.take column) ∨ column = byteCount l.text) ∧
        (lineStarts 0 (lines text)).getD position.line.toNat 0 + column < 2 ^ 32

theorem offsetExact_iff (pre post : List Char) : OffsetExact pre post ↔ OffsetCounts pre post := by
  unfold OffsetExact OffsetCounts
  by_cases hlarge : 2 ^ 32 ≤ byteCount pre
  · refine iff_of_true ?_ (.inl hlarge)
    intro offset hoffset
    have hlt := offset.toNat_lt
    omega
  · have hsmall : (UInt32.ofNat (byteCount pre)).toNat = byteCount pre :=
      UInt32.toNat_ofNat_of_lt' (show _ < 4294967296 by omega)
    by_cases hbetween : pre.getLast? = some '\r' ∧ post.head? = some '\n'
    · have hnone : lspPosition pre post = none := if_pos hbetween
      refine iff_of_true ?_ (.inr (.inl hnone))
      intro offset hoffset
      obtain ⟨before, after, hsplit⟩ := exists_split (utf8 (pre ++ post)) offset.toNat
      refine ⟨hsplit.positionToOffset_eq, ?_⟩
      intro line column hsome
      rw [hnone] at hsome
      cases hsome
    · have hsome : lspPosition pre post = some ((lines pre).length - 1, unitCount (lastLine pre)) := if_neg hbetween
      have hlast := getLastD_lineStarts_lines pre
      have hunits := unitCount_eq_iff (lastLine pre)
      have hcolumn {offset : UInt32} (hoffset : offset.toNat = byteCount pre) :
          ((buildLineIndex (utf8 (pre ++ post))).offsetToPosition offset).line.toNat = (lines pre).length - 1 ∧
            ((buildLineIndex (utf8 (pre ++ post))).offsetToPosition offset).character.toNat = byteCount (lastLine pre) := by
        have hsplit := split_lines hbetween
        rw [← hoffset] at hsplit
        obtain ⟨hline, hcharacter, -⟩ := hsplit.offsetToPosition_eq
        rw [length_lineStarts] at hline
        exact ⟨hline, by omega⟩
      rw [hsome]
      constructor
      · intro h
        obtain ⟨-, hposition⟩ := h _ hsmall
        obtain ⟨-, hcharacter⟩ := hposition _ _ rfl
        obtain ⟨-, hbytes⟩ := hcolumn hsmall
        exact .inr (.inr (hunits.mp (hcharacter.symm.trans hbytes)))
      · rintro (hge | hnone | hascii)
        · exact absurd hge hlarge
        · cases hnone
        · intro offset hoffset
          have hsplit := split_lines hbetween
          rw [← hoffset] at hsplit
          obtain ⟨hline, hbytes⟩ := hcolumn hoffset
          refine ⟨hsplit.positionToOffset_eq, ?_⟩
          intro line column heq
          obtain ⟨rfl, rfl⟩ := Prod.mk.inj (Option.some.inj heq)
          exact ⟨hline, hbytes.trans (hunits.mpr hascii).symm⟩

theorem positionExact_iff (text : List Char) (position : Position) :
    PositionExact text position ↔ PositionCounts text position := by
  have hstarts : (buildLineIndex (utf8 text)).lineOffsets = lineStarts 0 (lines text) := lineOffsetsFrom_utf8 0 text
  have hcontent : (buildLineIndex (utf8 text)).content = utf8 text := rfl
  unfold PositionExact PositionCounts lspOffset OpenDocument.positionToOffset
  rw [hstarts, length_lineStarts, hcontent, ← byteCount_eq]
  cases hline : (lines text)[position.line.toNat]? with
  | none =>
    rw [if_pos (List.getElem?_eq_none_iff.mp hline), UInt32.toNat_ofNat']
    dsimp only
    constructor
    · intro h
      have hmod := h _ rfl
      exact hmod ▸ Nat.mod_lt _ (by decide)
    · intro hsmall offset hoffset
      obtain rfl := Option.some.inj hoffset
      exact Nat.mod_eq_of_lt hsmall
  | some l =>
    obtain ⟨hlt, -⟩ := List.getElem?_eq_some_iff.mp hline
    rw [if_neg (Nat.not_le.mpr hlt), UInt32.toNat_ofNat']
    dsimp only
    generalize (lineStarts 0 (lines text)).getD position.line.toNat 0 = start
    have hcolumn := position.character.toNat_lt
    generalize position.character.toNat = column at *
    have hexact := columnBytes_exact_iff l.text column
    cases hbytes : columnBytes l.text column with
    | none => simp
    | some bytes =>
      rw [hbytes] at hexact
      have hsame : bytes = column ↔ column ≤ l.text.length ∧ IsAscii (l.text.take column) ∨ column = byteCount l.text := by
        rw [or_iff_right (Option.some_ne_none bytes)] at hexact
        rw [← hexact]
        constructor
        · rintro rfl b hb
          exact (Option.some.inj hb).symm
        · intro hall
          exact hall bytes rfl
      rw [or_iff_right (Option.some_ne_none bytes), ← hsame]
      constructor
      · intro h
        -- a column of 32 bits does not wrap around to the same offset
        have hmod := h _ rfl
        dsimp only at hmod
        omega
      · rintro ⟨rfl, hsmall⟩ offset hoffset
        obtain rfl := Option.some.inj hoffset
        exact Nat.mod_eq_of_lt hsmall

/-- The positions of the server, for every offset in front of a character and every position. -/
theorem positions_exact_iff (pre post text : List Char) (position : Position) :
    (OffsetExact pre post ↔ OffsetCounts pre post) ∧ (PositionExact text position ↔ PositionCounts text position) :=
  ⟨offsetExact_iff pre post, positionExact_iff text position⟩

/-- The offset behind a character of two bytes. -/
theorem positions_not_exact :
    ¬((∀ pre post, OffsetExact pre post) ∧ ∀ text position, PositionExact text position) := by
  rintro ⟨h, -⟩
  obtain ⟨-, hposition⟩ := h ['é'] [] 2 (by decide)
  obtain ⟨-, hcolumn⟩ := hposition 0 1 (by decide)
  exact absurd hcolumn (by decide)

end Bebop.Lsp
