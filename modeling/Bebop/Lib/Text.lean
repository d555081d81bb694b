import Mathlib.Data.List.DropRight

/-!
# Texts — lines, columns, and spans that tile them

A line of a text ends with a line feed, a carriage return, or the two of them in
this order. The place behind a text is on line `line`, at column `column`; adding
a byte, or such a pair, changes them as the lemmas here say. `Tiles` is a list of
spans that lie end to end.
-/

namespace Text

/-! ## Lines and columns -/

def IsBreak (c : UInt8) : Prop := c = 0x0a ∨ c = 0x0d

instance : DecidablePred IsBreak := fun _ => inferInstanceAs (Decidable (_ ∨ _))

/-- A byte ends a line, unless it is a line feed behind a carriage return. -/
def Breaks (last : Option UInt8) (c : UInt8) : Prop := c = 0x0d ∨ c = 0x0a ∧ last ≠ some 0x0d

instance (last : Option UInt8) : DecidablePred (Breaks last) := fun _ => inferInstanceAs (Decidable (_ ∨ _))

def breaksBehind (last : Option UInt8) : List UInt8 → Nat
  | [] => 0
  | c :: text => breaksBehind (some c) text + if Breaks last c then 1 else 0

def line (text : List UInt8) : Nat := breaksBehind none text + 1

/-- Its column: one more than there are bytes behind the last line break. -/
def column (text : List UInt8) : Nat := (text.rtakeWhile fun c => ¬IsBreak c).length + 1

variable {text : List UInt8} {c : UInt8}

theorem breaksBehind_concat (last : Option UInt8) (text : List UInt8) (c : UInt8) :
    breaksBehind last (text ++ [c]) =
      breaksBehind last text + if Breaks (text.getLast?.or last) c then 1 else 0 := by
  induction text generalizing last with
  | nil => rfl
  | cons d text ih =>
    have hlast : (d :: text).getLast?.or last = text.getLast?.or (some d) := by
      cases text with
      | nil => rfl
      | cons e text => rw [List.getLast?_cons_cons, List.getLast?_cons]; rfl
    rw [List.cons_append, breaksBehind, breaksBehind, ih, hlast]
    omega

theorem breaksBehind_le (last : Option UInt8) (text : List UInt8) : breaksBehind last text ≤ text.length := by
  induction text generalizing last with
  | nil => exact Nat.le_refl 0
  | cons c text ih =>
    have hrest := ih (some c)
    rw [breaksBehind, List.length_cons]
    split <;> omega

theorem line_le (text : List UInt8) : line text ≤ text.length + 1 :=
  Nat.succ_le_succ (breaksBehind_le none text)

theorem column_le (text : List UInt8) : column text ≤ text.length + 1 :=
  Nat.succ_le_succ (List.rtakeWhile_suffix _ _).length_le

theorem line_concat (h : ¬IsBreak c) : line (text ++ [c]) = line text := by
  have hnone : ¬Breaks (text.getLast?.or none) c := fun hbreaks =>
    h (hbreaks.elim Or.inr fun hfeed => .inl hfeed.1)
  rw [line, line, breaksBehind_concat, if_neg hnone]

theorem column_concat (h : ¬IsBreak c) : column (text ++ [c]) = column text + 1 := by
  have hinside : decide (¬IsBreak c) = true := decide_eq_true h
  rw [column, column, List.rtakeWhile_concat, if_pos hinside, List.length_append]
  rfl

theorem line_concat_break (h : Breaks text.getLast? c) : line (text ++ [c]) = line text + 1 := by
  rw [line, line, breaksBehind_concat, Option.or_none, if_pos h]

theorem column_concat_break (h : IsBreak c) : column (text ++ [c]) = 1 := by
  have hbreak : ¬decide (¬IsBreak c) = true := by simpa using h
  rw [column, List.rtakeWhile_concat, if_neg hbreak]
  rfl

theorem line_concat_pair : line (text ++ [0x0d, 0x0a]) = line text + 1 := by
  have hfeed : ¬Breaks (text ++ [0x0d]).getLast? 0x0a := by
    rw [List.getLast?_append_of_ne_nil _ (List.cons_ne_nil _ _)]
    decide
  have hpair : text ++ [0x0d, 0x0a] = text ++ [0x0d] ++ [0x0a] := by simp
  rw [hpair, line, breaksBehind_concat, Option.or_none, if_neg hfeed]
  exact line_concat_break (.inl rfl)

theorem column_concat_pair : column (text ++ [0x0d, 0x0a]) = 1 := by
  have hpair : text ++ [0x0d, 0x0a] = text ++ [0x0d] ++ [0x0a] := by simp
  rw [hpair]
  exact column_concat_break (.inl rfl)

/-! ## Tilings -/

variable {σ : Type*} {off len : σ → Nat}

/-- Spans that lie end to end, from one offset to another. -/
def Tiles (off len : σ → Nat) (a : Nat) : List σ → Nat → Prop
  | [], b => a = b
  | span :: spans, b => off span = a ∧ Tiles off len (a + len span) spans b

theorem Tiles.append {a b c : Nat} {spans spans' : List σ} (h : Tiles off len a spans b)
    (h' : Tiles off len b spans' c) : Tiles off len a (spans ++ spans') c := by
  induction spans generalizing a with
  | nil =>
    have hab : a = b := h
    rw [hab]
    exact h'
  | cons span spans ih => exact ⟨h.1, ih h.2⟩

end Text
