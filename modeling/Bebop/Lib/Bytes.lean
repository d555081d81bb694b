import Mathlib.Data.List.Basic
import Mathlib.Data.List.TakeDrop
import Mathlib.Tactic.Ring

/-!
# Byte strings — little-endian integers and checked reads

A byte string is a `List UInt8`. `byteAt` and `leAt` are total reads, zero outside the
string; the mathematics of a format is stated with these. `readByte` is a checked read in
an `Except`, for code that indexes memory, so that "no read is out of bounds" is a fact
about the outcome. `leNat` and `leBytes` go between a little-endian byte list and its
value.
-/

namespace Bytes

/-! ## Little-endian integers -/

def leNat : List UInt8 → Nat
  | [] => 0
  | b :: rest => b.toNat + 256 * leNat rest

/-- The `n` low bytes of `v`, least significant first. -/
def leBytes : Nat → Nat → List UInt8
  | 0, _ => []
  | n + 1, v => UInt8.ofNat v :: leBytes n (v / 256)

@[simp] theorem leNat_nil : leNat [] = 0 := rfl

@[simp] theorem leNat_cons (b : UInt8) (rest : List UInt8) :
    leNat (b :: rest) = b.toNat + 256 * leNat rest := rfl

@[simp] theorem length_leBytes (n v : Nat) : (leBytes n v).length = n := by
  induction n generalizing v with
  | zero => rfl
  | succ n ih => simp [leBytes, ih]

theorem leNat_lt (bs : List UInt8) : leNat bs < 256 ^ bs.length := by
  induction bs with
  | nil => simp
  | cons b rest ih =>
    have hb : b.toNat < 256 := b.toNat_lt
    rw [leNat_cons, List.length_cons, Nat.pow_succ]
    omega

theorem leNat_leBytes {n v : Nat} (hv : v < 256 ^ n) : leNat (leBytes n v) = v := by
  induction n generalizing v with
  | zero =>
    have : v = 0 := by simpa using hv
    simp [leBytes, this]
  | succ n ih =>
    have hq : v / 256 < 256 ^ n := by
      rw [Nat.pow_succ] at hv
      omega
    rw [leBytes, leNat_cons, ih hq, UInt8.toNat_ofNat']
    omega

/-! ## Total reads -/

/-- The byte at `i`, zero past the end. -/
def byteAt (bs : List UInt8) (i : Nat) : Nat := (bs[i]?.map UInt8.toNat).getD 0

/-- The `w`-byte little-endian integer at `i`. -/
def leAt (bs : List UInt8) (i w : Nat) : Nat := leNat ((bs.drop i).take w)

theorem byteAt_lt (bs : List UInt8) (i : Nat) : byteAt bs i < 256 := by
  unfold byteAt
  cases bs[i]? with
  | none => simp
  | some b => simpa using b.toNat_lt

theorem byteAt_of_lt {bs : List UInt8} {i : Nat} (h : i < bs.length) :
    byteAt bs i = (bs[i]).toNat := by
  simp [byteAt, List.getElem?_eq_getElem h]

theorem byteAt_append_left {a b : List UInt8} {i : Nat} (h : i < a.length) :
    byteAt (a ++ b) i = byteAt a i := by
  rw [byteAt, byteAt, List.getElem?_append_left h]

theorem byteAt_append_right {a b : List UInt8} {i : Nat} (h : a.length ≤ i) :
    byteAt (a ++ b) i = byteAt b (i - a.length) := by
  rw [byteAt, byteAt, List.getElem?_append_right h]

theorem leAt_lt (bs : List UInt8) (i w : Nat) : leAt bs i w < 256 ^ w := by
  have h := leNat_lt ((bs.drop i).take w)
  refine Nat.lt_of_lt_of_le h (Nat.pow_le_pow_right (by decide) ?_)
  rw [List.length_take]
  omega

theorem leAt_succ {bs : List UInt8} {i w : Nat} (h : i < bs.length) :
    leAt bs i (w + 1) = byteAt bs i + 256 * leAt bs (i + 1) w := by
  rw [leAt, List.drop_eq_getElem_cons h, List.take_succ_cons, leNat_cons,
    byteAt_of_lt h, leAt]

@[simp] theorem leAt_zero (bs : List UInt8) (i : Nat) : leAt bs i 0 = 0 := by
  simp [leAt]

theorem leAt_one {bs : List UInt8} {i : Nat} (h : i < bs.length) : leAt bs i 1 = byteAt bs i := by
  rw [leAt_succ h, leAt_zero, Nat.mul_zero, Nat.add_zero]

theorem leAt_append_right {a b : List UInt8} {i w : Nat} (h : a.length ≤ i) :
    leAt (a ++ b) i w = leAt b (i - a.length) w := by
  rw [leAt, leAt, List.drop_append, List.drop_eq_nil_of_le h, List.nil_append]

theorem leAt_leBytes {w v : Nat} (hv : v < 256 ^ w) (rest : List UInt8) :
    leAt (leBytes w v ++ rest) 0 w = v := by
  rw [leAt, List.drop_zero, List.take_append_of_le_length (by simp), List.take_of_length_le (by simp),
    leNat_leBytes hv]

/-! ## Checked reads -/

variable {ε : Type}

/-- The byte at `i`, or the failure `oob` when there is none. -/
def readByte (oob : ε) (bs : List UInt8) (i : Nat) : Except ε Nat :=
  match bs[i]? with
  | some b => .ok b.toNat
  | none => .error oob

theorem readByte_of_lt (oob : ε) {bs : List UInt8} {i : Nat} (h : i < bs.length) :
    readByte oob bs i = .ok (byteAt bs i) := by
  simp [readByte, byteAt_of_lt h, List.getElem?_eq_getElem h]

end Bytes
