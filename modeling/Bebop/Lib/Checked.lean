import Bebop.Lib.Bytes

/-!
# Checked computations — results, errors and faults

Code that indexes memory ends in one of three ways: with a result, with an error it raised
itself, or outside its defined behaviour. `Checked ε α` keeps the last two apart, so that a
theorem about a result or an error also says that no read left its buffer. Every check of
the source becomes one `rejectIf`.
-/

inductive Stop (ε : Type) where
  /-- The code reports `e` to its caller. -/
  | raised (e : ε)
  /-- The code leaves its defined behaviour. -/
  | fault
  deriving DecidableEq, Repr

abbrev Checked (ε α : Type) := Except (Stop ε) α

namespace Checked

variable {ε α β : Type}

def read (bs : List UInt8) (i : Nat) : Checked ε Nat := Bytes.readByte .fault bs i

/-- Read a byte at a signed index; a negative one is outside too. -/
def readAt (bs : List UInt8) (i : Int) : Checked ε Nat :=
  if 0 ≤ i then read bs i.toNat else .error .fault

/-- Step a pointer back by `n`; before the buffer is a fault. -/
def back (p n : Nat) : Checked ε Nat := if n ≤ p then .ok (p - n) else .error .fault

/-- Stop with `e` when the condition holds. -/
def rejectIf (e : Stop ε) (c : Prop) [Decidable c] : Checked ε Unit :=
  if c then .error e else .ok ()

@[simp] theorem ok_bind (a : α) (f : α → Checked ε β) : (Except.ok a >>= f) = f a := rfl

@[simp] theorem error_bind (e : Stop ε) (f : α → Checked ε β) :
    ((Except.error e : Checked ε α) >>= f) = .error e := rfl

@[simp] theorem pure_eq_ok (a : α) : (pure a : Checked ε α) = .ok a := rfl

@[simp] theorem throw_eq_error (e : Stop ε) : (throw e : Checked ε α) = .error e := rfl

theorem rejectIf_bind (e : Stop ε) (c : Prop) [Decidable c] (f : Unit → Checked ε β) :
    (rejectIf e c >>= f) = if c then .error e else f () := by
  unfold rejectIf
  split <;> rfl

theorem bind_ok {x : Checked ε α} {f : α → Checked ε β} {b : β} (h : (x >>= f) = .ok b) :
    ∃ a, x = .ok a ∧ f a = .ok b := by
  cases x with
  | error e => cases h
  | ok a => exact ⟨a, rfl, h⟩

theorem rejectIf_ok {e : Stop ε} {c : Prop} [Decidable c] (h : rejectIf e c = .ok ()) : ¬c := by
  intro hc
  rw [rejectIf, if_pos hc] at h
  cases h

theorem rejectIf_of {e : Stop ε} {c : Prop} [Decidable c] (h : c) : rejectIf e c = .error e :=
  if_pos h

theorem rejectIf_of_not {e : Stop ε} {c : Prop} [Decidable c] (h : ¬c) :
    rejectIf e c = .ok () :=
  if_neg h

theorem read_of_lt {bs : List UInt8} {i : Nat} (h : i < bs.length) :
    (read bs i : Checked ε Nat) = .ok (Bytes.byteAt bs i) :=
  Bytes.readByte_of_lt _ h

theorem readAt_natCast {bs : List UInt8} {i : Nat} (h : i < bs.length) :
    (readAt bs (i : Int) : Checked ε Nat) = .ok (Bytes.byteAt bs i) := by
  rw [readAt, if_pos (Int.natCast_nonneg i), Int.toNat_natCast, read_of_lt h]

theorem back_of_le {p n : Nat} (h : n ≤ p) : (back p n : Checked ε Nat) = .ok (p - n) :=
  if_pos h

end Checked
