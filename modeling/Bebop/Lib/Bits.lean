import Mathlib.Data.List.Basic
import Mathlib.Data.List.Range
import Mathlib.Data.List.Sort
import Mathlib.Data.Nat.Bitwise

/-!
# Bit sets — set bits in order, population count and rank

A machine word used as a set is the ascending list of its set bits, `bits n m`. `rank t l`
counts the members of `l` below `t`. On a strictly ascending list it is the position of
`t`, and on the list of a mask a population count of the bits below, which is how a packed
directory finds the position of an entry without a search.
-/

namespace Bits

/-! ## Rank in an ascending list -/

/-- The number of members of `l` below `t`. -/
def rank (t : Nat) (l : List Nat) : Nat := l.countP (· < t)

@[simp] theorem rank_nil (t : Nat) : rank t [] = 0 := rfl

theorem rank_cons (t a : Nat) (l : List Nat) :
    rank t (a :: l) = (if a < t then 1 else 0) + rank t l := by
  rw [rank, rank, List.countP_cons]
  by_cases h : a < t <;> simp [h, Nat.add_comm]

theorem rank_append (t : Nat) (a b : List Nat) : rank t (a ++ b) = rank t a + rank t b := by
  simp [rank]

theorem rank_eq_zero {t : Nat} {l : List Nat} (h : ∀ a ∈ l, t ≤ a) : rank t l = 0 := by
  rw [rank, List.countP_eq_zero]
  intro a ha
  simpa using h a ha

theorem rank_eq_length {t : Nat} {l : List Nat} (h : ∀ a ∈ l, a < t) : rank t l = l.length := by
  rw [rank, List.countP_eq_length]
  intro a ha
  simpa using h a ha

/-- The rank of a member of a strictly ascending list is its position. -/
theorem getElem?_rank {t : Nat} {l : List Nat} (hl : l.Pairwise (· < ·)) (ht : t ∈ l) :
    l[rank t l]? = some t := by
  induction l with
  | nil => simp at ht
  | cons a rest ih =>
    obtain ⟨ha, hrest⟩ := List.pairwise_cons.mp hl
    rw [rank_cons]
    rcases List.mem_cons.mp ht with rfl | htr
    · rw [rank_eq_zero fun x hx => Nat.le_of_lt (ha x hx)]
      simp
    · rw [if_pos (ha t htr), Nat.add_comm, List.getElem?_cons_succ]
      exact ih hrest htr

theorem rank_of_getElem? {t r : Nat} {l : List Nat} (hl : l.Pairwise (· < ·))
    (h : l[r]? = some t) : rank t l = r := by
  obtain ⟨hr, hrt⟩ := List.getElem?_eq_some_iff.mp h
  have hmem : t ∈ l := List.mem_of_getElem? h
  obtain ⟨hk, hkt⟩ := List.getElem?_eq_some_iff.mp (getElem?_rank hl hmem)
  have hinj : Function.Injective l.get := List.nodup_iff_injective_get.mp (hl.imp Nat.ne_of_lt)
  have : (⟨rank t l, hk⟩ : Fin l.length) = ⟨r, hr⟩ := hinj (by simp [hkt, hrt])
  exact congrArg Fin.val this

theorem rank_lt_length {t : Nat} {l : List Nat} (hl : l.Pairwise (· < ·)) (ht : t ∈ l) :
    rank t l < l.length :=
  (List.getElem?_eq_some_iff.mp (getElem?_rank hl ht)).1

theorem rank_map_add (t c : Nat) (l : List Nat) : rank (t + c) (l.map (· + c)) = rank t l := by
  simp only [rank, List.countP_map]
  congr 1
  funext a
  simp

theorem pairwise_cons_map_range {f : Nat → Nat} {a n : Nat} :
    (a :: (List.range (n + 1)).map f).Pairwise (· < ·) ↔ a < f 0 ∧ ∀ j < n, f j < f (j + 1) := by
  rw [← List.isChain_iff_pairwise, List.range_succ_eq_map, List.map_cons, List.isChain_cons_cons,
    ← List.map_cons, ← List.range_succ_eq_map, List.isChain_map, List.isChain_range_succ]

theorem eq_of_pairwise_lt {a b : List Nat} (ha : a.Pairwise (· < ·)) (hb : b.Pairwise (· < ·))
    (h : ∀ i, i ∈ a ↔ i ∈ b) : a = b := by
  have hperm : a.Perm b :=
    (List.perm_ext_iff_of_nodup (ha.imp Nat.ne_of_lt) (hb.imp Nat.ne_of_lt)).mpr h
  exact hperm.eq_of_pairwise' (ha.imp Nat.le_of_lt) (hb.imp Nat.le_of_lt)

/-! ## Set bits -/

/-- The set bits of the low `n` bits of `m`, ascending. -/
def bits (n m : Nat) : List Nat := (List.range n).filter m.testBit

/-- The number of set bits among the low `n` bits of `m`. -/
def popcount (n m : Nat) : Nat := (bits n m).length

@[simp] theorem zero_popcount (m : Nat) : popcount 0 m = 0 := rfl

@[simp] theorem mem_bits {n m i : Nat} : i ∈ bits n m ↔ i < n ∧ m.testBit i = true := by
  simp [bits]

theorem bits_pairwise (n m : Nat) : (bits n m).Pairwise (· < ·) :=
  List.Pairwise.filter _ List.pairwise_lt_range

theorem popcount_le (n m : Nat) : popcount n m ≤ n := by
  have h := List.length_filter_le m.testBit (List.range n)
  rwa [List.length_range] at h

theorem bits_succ (n m : Nat) :
    bits (n + 1) m = bits n m ++ if m.testBit n then [n] else [] := by
  rw [bits, List.range_succ, List.filter_append, bits]
  by_cases h : m.testBit n <;> simp [h]

theorem popcount_succ (n m : Nat) :
    popcount (n + 1) m = popcount n m + if m.testBit n then 1 else 0 := by
  rw [popcount, bits_succ, List.length_append, popcount]
  by_cases h : m.testBit n <;> simp [h]

theorem popcount_mono {i n : Nat} (h : i ≤ n) (m : Nat) : popcount i m ≤ popcount n m := by
  induction n, h using Nat.le_induction with
  | base => exact Nat.le_refl _
  | succ n _ ih =>
    rw [popcount_succ]
    omega

theorem bits_mod_two_pow {n i : Nat} (h : i ≤ n) (m : Nat) : bits n (m % 2 ^ i) = bits i m := by
  induction n, h using Nat.le_induction with
  | base =>
    apply List.filter_congr
    intro j hj
    simp [Nat.testBit_mod_two_pow, List.mem_range.mp hj]
  | succ n hn ih =>
    rw [bits_succ, ih, Nat.testBit_mod_two_pow]
    simp [Nat.not_lt.mpr hn]

theorem popcount_mod_two_pow {n i : Nat} (h : i ≤ n) (m : Nat) :
    popcount n (m % 2 ^ i) = popcount i m := by
  rw [popcount, bits_mod_two_pow h, popcount]

theorem popcount_and_two_pow_sub_one {n i : Nat} (h : i ≤ n) (m : Nat) :
    popcount n (m &&& (2 ^ i - 1)) = popcount i m := by
  rw [Nat.and_two_pow_sub_one_eq_mod, popcount_mod_two_pow h]

/-- The rank of a bit is the population count of the bits below it. -/
theorem rank_bits {n i : Nat} (h : i ≤ n) (m : Nat) : rank i (bits n m) = popcount i m := by
  induction n, h using Nat.le_induction with
  | base => exact rank_eq_length fun a ha => (mem_bits.mp ha).1
  | succ n hn ih =>
    rw [bits_succ, rank_append, ih, rank_eq_zero, Nat.add_zero]
    intro a ha
    split at ha
    · rw [List.mem_singleton] at ha
      omega
    · simp at ha

theorem lt_of_testBit {n m i : Nat} (h : m < 2 ^ n) (hi : m.testBit i = true) : i < n := by
  by_contra hlt
  have hbig : m < 2 ^ i := Nat.lt_of_lt_of_le h (Nat.pow_le_pow_right (by decide) (by omega))
  rw [Nat.testBit_lt_two_pow hbig] at hi
  simp at hi

theorem and_one_shiftLeft_eq_zero {m i : Nat} : m &&& (1 <<< i) = 0 ↔ m.testBit i = false := by
  rw [Nat.one_shiftLeft, Nat.and_two_pow]
  cases m.testBit i <;> simp

theorem popcount_pos {n m : Nat} (h : m < 2 ^ n) (hm : m ≠ 0) : 0 < popcount n m := by
  rw [popcount, List.length_pos_iff_exists_mem]
  obtain ⟨i, hi⟩ := Nat.exists_testBit_of_ne_zero hm
  exact ⟨i, mem_bits.mpr ⟨lt_of_testBit h hi, hi⟩⟩

theorem popcount_of_lt {n i m : Nat} (h : i ≤ n) (hm : m < 2 ^ i) : popcount n m = popcount i m := by
  rw [← popcount_mod_two_pow h, Nat.mod_eq_of_lt hm]

@[simp] theorem bits_zero (n : Nat) : bits n 0 = [] := by
  simp [bits]

@[simp] theorem popcount_zero (n : Nat) : popcount n 0 = 0 := by
  simp [popcount]

theorem popcount_eq_zero {n m : Nat} (h : m < 2 ^ n) : popcount n m = 0 ↔ m = 0 := by
  constructor
  · intro hp
    by_contra hm
    have := popcount_pos h hm
    omega
  · rintro rfl
    simp

/-! ## Taking the lowest bit off -/

theorem testBit_and_sub_one {m b : Nat} (hb : m.testBit b = true)
    (hlow : ∀ i < b, m.testBit i = false) (i : Nat) :
    (m &&& (m - 1)).testBit i = (m.testBit i && decide (i ≠ b)) := by
  -- `m` is an odd multiple of `2 ^ b`
  have hmod : m % 2 ^ b = 0 := by
    apply Nat.eq_of_testBit_eq
    intro j
    rw [Nat.testBit_mod_two_pow, Nat.zero_testBit]
    by_cases hj : j < b
    · simp [hlow j hj]
    · simp [hj]
  obtain ⟨q, rfl⟩ := Nat.dvd_of_mod_eq_zero hmod
  have hodd : q.testBit 0 = true := by simpa [Nat.testBit_two_pow_mul] using hb
  obtain ⟨k, rfl⟩ : ∃ k, q = 2 * k + 1 := ⟨q / 2, by simp [Nat.testBit_zero] at hodd; omega⟩
  have hpos := Nat.two_pow_pos b
  have hpred : 2 ^ b * (2 * k + 1) - 1 = 2 ^ b * (2 * k) + (2 ^ b - 1) := by
    rw [Nat.mul_add, Nat.mul_one]
    omega
  rw [Nat.testBit_and, hpred, Nat.testBit_two_pow_mul_add _ (by omega), Nat.testBit_two_pow_mul]
  rcases Nat.lt_trichotomy i b with hlt | rfl | hgt
  · simp [show ¬b ≤ i by omega]
  · simp [Nat.testBit_zero]
  · obtain ⟨j, hj⟩ : ∃ j, i - b = j + 1 := ⟨i - b - 1, by omega⟩
    have hq : (2 * k + 1) / 2 = k := by omega
    simp [show ¬i < b by omega, show i ≠ b by omega, hj, Nat.testBit_succ, hq]

theorem bits_and_sub_one {n m b : Nat} {rest : List Nat} (h : bits n m = b :: rest) :
    bits n (m &&& (m - 1)) = rest := by
  have hp := bits_pairwise n m
  rw [h] at hp
  obtain ⟨hhead, hrest⟩ := List.pairwise_cons.mp hp
  have hmem : ∀ i, i ∈ bits n m ↔ i = b ∨ i ∈ rest := by
    intro i
    rw [h, List.mem_cons]
  obtain ⟨hbn, hb⟩ := mem_bits.mp ((hmem b).mpr (Or.inl rfl))
  have hlow : ∀ i < b, m.testBit i = false := by
    intro i hi
    by_contra hset
    rcases (hmem i).mp (mem_bits.mpr ⟨by omega, by simpa using hset⟩) with rfl | hin
    · omega
    · have := hhead i hin
      omega
  apply eq_of_pairwise_lt (bits_pairwise _ _) hrest
  intro i
  rw [mem_bits, testBit_and_sub_one hb hlow, Bool.and_eq_true, decide_eq_true_iff, ← and_assoc,
    ← mem_bits, hmem]
  constructor
  · rintro ⟨rfl | hin, hne⟩
    · exact absurd rfl hne
    · exact hin
  · intro hin
    have := hhead i hin
    exact ⟨Or.inr hin, by omega⟩

/-! ## Masks of lists -/

def mask (l : List Nat) : Nat := l.foldl (fun m i => m ||| (1 <<< i)) 0

theorem testBit_foldl_or (l : List Nat) (m i : Nat) :
    (l.foldl (fun m i => m ||| (1 <<< i)) m).testBit i = (m.testBit i || decide (i ∈ l)) := by
  induction l generalizing m with
  | nil => simp
  | cons a rest ih =>
    rw [List.foldl_cons, ih, Nat.testBit_or, Nat.one_shiftLeft, Nat.testBit_two_pow]
    by_cases h : a = i
    · simp [h]
    · simp [h, Ne.symm h]

@[simp] theorem testBit_mask (l : List Nat) (i : Nat) :
    (mask l).testBit i = decide (i ∈ l) := by
  simp [mask, testBit_foldl_or]

theorem mask_lt {n : Nat} {l : List Nat} (h : ∀ i ∈ l, i < n) : mask l < 2 ^ n := by
  apply Nat.lt_pow_two_of_testBit
  intro i hi
  rw [testBit_mask, decide_eq_false_iff_not]
  intro hmem
  exact absurd (h i hmem) (by omega)

theorem bits_mask {n : Nat} {l : List Nat} (hl : l.Pairwise (· < ·)) (h : ∀ i ∈ l, i < n) :
    bits n (mask l) = l := by
  apply eq_of_pairwise_lt (bits_pairwise _ _) hl
  intro i
  rw [mem_bits, testBit_mask, decide_eq_true_eq]
  exact ⟨fun hi => hi.2, fun hi => ⟨h i hi, hi⟩⟩

end Bits
