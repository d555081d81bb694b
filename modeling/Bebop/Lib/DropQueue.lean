import Mathlib.Data.List.Basic

/-!
# Queues that drop their front lazily

An array and the index of its first live element: removing the front advances the index,
and once enough of the array is dead the dead part is cut off. A user of the queue needs
only how each operation changes `live`.
-/

/-- An array whose first `head` elements are dead. -/
structure DropQueue (α : Type) where
  values : List α
  head : Nat
  head_le : head ≤ values.length

namespace DropQueue

variable {α : Type}

variable (q : DropQueue α)

def live : List α := q.values.drop q.head

def empty : DropQueue α := ⟨[], 0, Nat.le_refl 0⟩

def length : Nat := q.values.length - q.head

def push (a : α) : DropQueue α :=
  ⟨q.values ++ [a], q.head, by
    have := q.head_le
    rw [List.length_append]
    omega⟩

def front (h : q.head < q.values.length) : α := q.values[q.head]

def setFront (a : α) : DropQueue α :=
  ⟨q.values.set q.head a, q.head, by
    rw [List.length_set]
    exact q.head_le⟩

/-- Drop the front. Once `threshold`, and half, of the elements are dead, cut the array. -/
def advance (threshold : Nat) (q : DropQueue α) (h : q.head < q.values.length) : DropQueue α :=
  if threshold ≤ q.head + 1 ∧ q.values.length ≤ (q.head + 1) * 2 then
    ⟨q.values.drop (q.head + 1), 0, Nat.zero_le _⟩
  else ⟨q.values, q.head + 1, h⟩

def shift (threshold : Nat) (q : DropQueue α) : Option (α × DropQueue α) :=
  if h : q.head < q.values.length then some (q.front h, q.advance threshold h) else none

def skip (n : Nat) (q : DropQueue α) : DropQueue α :=
  ⟨q.values, min (q.head + n) q.values.length, Nat.min_le_right _ _⟩

/-- Cut the dead part off once it is half of the array. -/
def compact : DropQueue α :=
  if 0 < q.head ∧ q.values.length / 2 ≤ q.head then ⟨q.values.drop q.head, 0, Nat.zero_le _⟩ else q

@[simp] theorem live_empty : (empty : DropQueue α).live = [] := rfl

theorem length_eq : q.length = q.live.length := by
  rw [length, live, List.length_drop]

theorem live_push (a : α) : (q.push a).live = q.live ++ [a] :=
  List.drop_append_of_le_length q.head_le

theorem head_lt_iff {q : DropQueue α} : q.head < q.values.length ↔ q.live ≠ [] := by
  rw [live, Ne, List.drop_eq_nil_iff, Nat.not_le]

theorem live_eq_cons {q : DropQueue α} (h : q.head < q.values.length) :
    q.live = q.front h :: q.live.tail := by
  rw [live, List.drop_eq_getElem_cons h]
  rfl

theorem live_setFront {q : DropQueue α} (h : q.head < q.values.length) (a : α) :
    (q.setFront a).live = a :: q.live.tail := by
  have hset : q.head < (q.values.set q.head a).length := by rwa [List.length_set]
  change (q.values.set q.head a).drop q.head = _
  rw [List.drop_eq_getElem_cons hset, List.getElem_set_self, List.drop_set_of_lt (Nat.lt_succ_self _),
    live, List.tail_drop]

theorem live_advance (threshold : Nat) (q : DropQueue α) (h : q.head < q.values.length) :
    (q.advance threshold h).live = q.live.tail := by
  unfold advance
  split
  · change (q.values.drop (q.head + 1)).drop 0 = _
    rw [List.drop_zero, live, List.tail_drop]
  · change q.values.drop (q.head + 1) = _
    rw [live, List.tail_drop]

theorem live_skip (n : Nat) (q : DropQueue α) : (q.skip n).live = q.live.drop n := by
  change q.values.drop (min (q.head + n) q.values.length) = (q.values.drop q.head).drop n
  rw [List.drop_drop]
  rcases Nat.le_total (q.head + n) q.values.length with h | h
  · rw [Nat.min_eq_left h]
  · rw [Nat.min_eq_right h, List.drop_length, List.drop_eq_nil_of_le h]

theorem live_compact : q.compact.live = q.live := by
  unfold compact
  split <;> rfl

theorem shift_of_live_eq_cons (threshold : Nat) {q : DropQueue α} {a : α} {rest : List α}
    (h : q.live = a :: rest) : ∃ q', q.shift threshold = some (a, q') ∧ q'.live = rest := by
  have hlt : q.head < q.values.length := head_lt_iff.mpr (by rw [h]; exact List.cons_ne_nil a rest)
  have hcons := (live_eq_cons hlt).symm.trans h
  refine ⟨q.advance threshold hlt, ?_, ?_⟩
  · rw [shift, dif_pos hlt, (List.cons.inj hcons).1]
  · rw [live_advance, h, List.tail_cons]

end DropQueue
