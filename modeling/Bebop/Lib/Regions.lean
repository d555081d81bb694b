import Mathlib.Data.List.Basic

/-!
# Regions of a memory

A region is some addresses in a row. Regions that are `Apart` have none in common; one that
is `Within` another is apart from whatever the other is apart from. `overwrite` changes a
memory in a region and nowhere else.
-/

structure Region where
  start : Nat
  size : Nat
  deriving DecidableEq, Repr

namespace Region

def Apart (r s : Region) : Prop := r.start + r.size ≤ s.start ∨ s.start + s.size ≤ r.start

instance (r s : Region) : Decidable (r.Apart s) := inferInstanceAs (Decidable (_ ∨ _))

def Within (r s : Region) : Prop := s.start ≤ r.start ∧ r.start + r.size ≤ s.start + s.size

instance (r s : Region) : Decidable (r.Within s) := inferInstanceAs (Decidable (_ ∧ _))

theorem Apart.symm {r s : Region} (h : r.Apart s) : s.Apart r := Or.symm h

theorem Within.trans {r s t : Region} (h : r.Within s) (h' : s.Within t) : r.Within t :=
  ⟨Nat.le_trans h'.1 h.1, Nat.le_trans h.2 h'.2⟩

theorem Apart.within {r s r' s' : Region} (h : r.Apart s) (hr : r'.Within r) (hs : s'.Within s) : r'.Apart s' := by
  unfold Apart Within at *
  omega

variable {α : Type*}

def overwrite (memory : Nat → α) (r : Region) (contents : Nat → α) : Nat → α :=
  fun address => if r.start ≤ address ∧ address < r.start + r.size then contents address else memory address

theorem overwrite_outside {memory contents : Nat → α} {r s : Region} (h : r.Apart s) {i : Nat} (hi : i < s.size) :
    overwrite memory r contents (s.start + i) = memory (s.start + i) := by
  unfold overwrite
  rw [if_neg]
  unfold Apart at h
  omega

end Region
