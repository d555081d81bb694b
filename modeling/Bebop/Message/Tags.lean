import Bebop.Message.Format
import Mathlib.Data.List.Perm.Subperm

/-!
# Bebop — what a directory declares

Two facts about each directory kind, over every byte string. The declared tags ascend
strictly and lie in `1..255`, so a field count fits in a byte. And the position of a tag is
read off the directory without a search: by a population count in a mask, and by the
entry's stored rank plus a population count in a block directory.
-/

namespace Bebop.Message

open Bytes Bits

/-! ## Tiny directories -/

theorem tinyTags_eq_some {bs : List UInt8} {dir n : Nat} {tags : List Nat}
    (h : tinyTags bs dir n = some tags) :
    tags = (List.range n).map (fun i => byteAt bs (dir + i)) ∧ (0 :: tags).Pairwise (· < ·) := by
  unfold tinyTags at h
  dsimp only at h
  split at h
  · rename_i hp
    obtain rfl := Option.some.inj h
    exact ⟨rfl, hp⟩
  · cases h

theorem tinyTags_length {bs : List UInt8} {dir n : Nat} {tags : List Nat}
    (h : tinyTags bs dir n = some tags) : tags.length = n := by
  rw [(tinyTags_eq_some h).1, List.length_map, List.length_range]

theorem tinyTags_getElem {bs : List UInt8} {dir n : Nat} {tags : List Nat}
    (h : tinyTags bs dir n = some tags) {r : Nat} (hr : r < tags.length) :
    tags[r] = byteAt bs (dir + r) := by
  obtain ⟨rfl, -⟩ := tinyTags_eq_some h
  rw [List.getElem_map, List.getElem_range]

theorem tinyTags_range {bs : List UInt8} {dir n : Nat} {tags : List Nat}
    (h : tinyTags bs dir n = some tags) : ∀ t ∈ tags, 1 ≤ t ∧ t ≤ 255 := by
  obtain ⟨rfl, hp⟩ := tinyTags_eq_some h
  intro t ht
  have hpos := (List.pairwise_cons.mp hp).1 t ht
  obtain ⟨i, -, rfl⟩ := List.mem_map.mp ht
  have := byteAt_lt bs (dir + i)
  omega

/-! ## Mask directories -/

theorem maskTags_eq_some {bs : List UInt8} {dir w : Nat} {tags : List Nat}
    (h : maskTags bs dir w = some tags) :
    leAt bs dir w ≠ 0 ∧ tags = (bits (8 * w) (leAt bs dir w)).map (· + 1) := by
  unfold maskTags at h
  dsimp only at h
  split at h
  · cases h
  · rename_i hm
    obtain rfl := Option.some.inj h
    exact ⟨hm, rfl⟩

theorem pairwise_map_add {l : List Nat} (h : l.Pairwise (· < ·)) (c : Nat) :
    (l.map (· + c)).Pairwise (· < ·) :=
  h.map _ fun _ _ hab => Nat.add_lt_add_right hab c

theorem mem_maskTags {bs : List UInt8} {dir w : Nat} {tags : List Nat}
    (h : maskTags bs dir w = some tags) {i : Nat} :
    i + 1 ∈ tags ↔ i < 8 * w ∧ (leAt bs dir w).testBit i = true := by
  obtain ⟨-, rfl⟩ := maskTags_eq_some h
  simp

theorem rank_maskTags {bs : List UInt8} {dir w : Nat} {tags : List Nat}
    (h : maskTags bs dir w = some tags) {i : Nat} (hi : i ≤ 8 * w) :
    rank (i + 1) tags = popcount i (leAt bs dir w) := by
  obtain ⟨-, rfl⟩ := maskTags_eq_some h
  rw [rank_map_add, rank_bits hi]

theorem maskTags_length {bs : List UInt8} {dir w : Nat} {tags : List Nat}
    (h : maskTags bs dir w = some tags) : tags.length = popcount (8 * w) (leAt bs dir w) := by
  obtain ⟨-, rfl⟩ := maskTags_eq_some h
  rw [List.length_map, popcount]

theorem maskTags_ne_nil {bs : List UInt8} {dir w : Nat} {tags : List Nat}
    (h : maskTags bs dir w = some tags) : tags ≠ [] := by
  have hlt : leAt bs dir w < 2 ^ (8 * w) := by
    rw [Nat.pow_mul]
    exact leAt_lt bs dir w
  have hpos := popcount_pos hlt (maskTags_eq_some h).1
  rw [← maskTags_length h] at hpos
  exact List.ne_nil_of_length_pos hpos

theorem maskTags_range {bs : List UInt8} {dir w : Nat} {tags : List Nat}
    (h : maskTags bs dir w = some tags) : ∀ t ∈ tags, 1 ≤ t ∧ t ≤ 8 * w := by
  obtain ⟨-, rfl⟩ := maskTags_eq_some h
  intro t ht
  obtain ⟨i, hi, rfl⟩ := List.mem_map.mp ht
  have := (mem_bits.mp hi).1
  omega

/-! ## Block directories -/

theorem blockTags_succ_set {bs : List UInt8} {top n b entry r : Nat} {tags : List Nat}
    (hb : top.testBit b = true) (h : blockTags bs top (n + 1) b entry r = some tags) :
    ∃ rest, byteAt bs entry = r ∧ leAt bs (entry + 1) 4 ≠ 0 ∧
      (b = 7 → (leAt bs (entry + 1) 4).testBit 31 = false) ∧
      blockTags bs top n (b + 1) (entry + 5) (r + popcount 32 (leAt bs (entry + 1) 4)) = some rest ∧
      tags = (bits 32 (leAt bs (entry + 1) 4)).map (· + (32 * b + 1)) ++ rest := by
  rw [blockTags, if_pos hb] at h
  dsimp only at h
  split at h
  · cases h
  · rename_i hok
    rw [not_or, not_or, not_and, not_not] at hok
    obtain ⟨rest, hrest, rfl⟩ := Option.map_eq_some_iff.mp h
    exact ⟨rest, hok.1, hok.2.1, fun h7 => by simpa using hok.2.2 h7, hrest, rfl⟩

theorem blockTags_succ_intro {bs : List UInt8} {top n b entry r m : Nat} {rest : List Nat}
    (hb : top.testBit b = true) (hrank : byteAt bs entry = r) (hword : leAt bs (entry + 1) 4 = m)
    (hm : m ≠ 0) (hlast : b = 7 → m.testBit 31 = false)
    (hrest : blockTags bs top n (b + 1) (entry + 5) (r + popcount 32 m) = some rest) :
    blockTags bs top (n + 1) b entry r = some ((bits 32 m).map (· + (32 * b + 1)) ++ rest) := by
  rw [blockTags, if_pos hb, hword]
  dsimp only
  rw [if_neg (by simpa [hrank, hm] using hlast), hrest, Option.map_some]

theorem blockTags_succ_clear {bs : List UInt8} {top n b entry r : Nat}
    (hb : top.testBit b = false) :
    blockTags bs top (n + 1) b entry r = blockTags bs top n (b + 1) entry r := by
  rw [blockTags, if_neg (by simp [hb])]

theorem blockTags_range {bs : List UInt8} {top n b entry r : Nat} {tags : List Nat}
    (hn : b + n = 8) (h : blockTags bs top n b entry r = some tags) :
    ∀ t ∈ tags, 32 * b + 1 ≤ t ∧ t ≤ 255 := by
  induction n generalizing b entry r tags with
  | zero =>
    obtain rfl := Option.some.inj h
    simp
  | succ n ih =>
    intro t ht
    cases hb : top.testBit b with
    | false =>
      rw [blockTags_succ_clear hb] at h
      have := ih (by omega) h t ht
      omega
    | true =>
      obtain ⟨rest, -, -, h31, hrest, rfl⟩ := blockTags_succ_set hb h
      rcases List.mem_append.mp ht with hhead | htail
      · obtain ⟨i, hi, rfl⟩ := List.mem_map.mp hhead
        obtain ⟨hi32, hbit⟩ := mem_bits.mp hi
        refine ⟨by omega, ?_⟩
        -- only the last block can reach 256, and its top bit is refused
        by_contra hbig
        obtain ⟨rfl, rfl⟩ : b = 7 ∧ i = 31 := by omega
        rw [h31 rfl] at hbit
        simp at hbit
      · have := ih (by omega) hrest t htail
        omega

theorem blockTags_pairwise {bs : List UInt8} {top n b entry r : Nat} {tags : List Nat}
    (hn : b + n = 8) (h : blockTags bs top n b entry r = some tags) : tags.Pairwise (· < ·) := by
  induction n generalizing b entry r tags with
  | zero =>
    obtain rfl := Option.some.inj h
    exact List.Pairwise.nil
  | succ n ih =>
    cases hb : top.testBit b with
    | false =>
      rw [blockTags_succ_clear hb] at h
      exact ih (by omega) h
    | true =>
      obtain ⟨rest, -, -, -, hrest, rfl⟩ := blockTags_succ_set hb h
      refine List.pairwise_append.mpr ⟨pairwise_map_add (bits_pairwise _ _) _, ih (by omega) hrest, ?_⟩
      intro x hx y hy
      obtain ⟨i, hi, rfl⟩ := List.mem_map.mp hx
      have := (mem_bits.mp hi).1
      have := (blockTags_range (by omega) hrest y hy).1
      omega

theorem blockTags_ne_nil {bs : List UInt8} {top n b entry r : Nat} {tags : List Nat}
    (h : blockTags bs top n b entry r = some tags) {B : Nat} (hb : b ≤ B) (hB : B < b + n)
    (htop : top.testBit B = true) : tags ≠ [] := by
  induction n generalizing b entry r tags with
  | zero => omega
  | succ n ih =>
    cases hbit : top.testBit b with
    | false =>
      rw [blockTags_succ_clear hbit] at h
      have hne : b ≠ B := by
        rintro rfl
        rw [hbit] at htop
        simp at htop
      exact ih h (by omega) (by omega)
    | true =>
      obtain ⟨rest, -, hm, -, -, rfl⟩ := blockTags_succ_set hbit h
      have hlt : leAt bs (entry + 1) 4 < 2 ^ 32 := leAt_lt bs (entry + 1) 4
      have hpos := popcount_pos hlt hm
      intro hnil
      have := (List.append_eq_nil_iff.mp hnil).1
      rw [List.map_eq_nil_iff] at this
      rw [popcount, this] at hpos
      simp at hpos

/-- The entry of block `B`, when the entries from block `b` start at `entry`. -/
def blockEntry (top b entry B : Nat) : Nat := entry + 5 * (popcount B top - popcount b top)

theorem blockEntry_self (top b entry : Nat) : blockEntry top b entry b = entry := by
  simp [blockEntry]

theorem blockEntry_set {top b entry B : Nat} (hb : top.testBit b = true) (hB : b < B) :
    blockEntry top (b + 1) (entry + 5) B = blockEntry top b entry B := by
  have hmono := popcount_mono (show b + 1 ≤ B from hB) top
  have hsucc := popcount_succ b top
  rw [hb, if_pos rfl] at hsucc
  unfold blockEntry
  omega

theorem blockEntry_clear {top b entry B : Nat} (hb : top.testBit b = false) :
    blockEntry top (b + 1) entry B = blockEntry top b entry B := by
  have hsucc := popcount_succ b top
  simp only [hb, Bool.false_eq_true, if_false, Nat.add_zero] at hsucc
  rw [blockEntry, hsucc, blockEntry]

theorem mem_blockTags {bs : List UInt8} {top n b entry r : Nat} {tags : List Nat}
    (hn : b + n = 8) (h : blockTags bs top n b entry r = some tags) {B i : Nat}
    (hb : b ≤ B) (hB : B < 8) (hi : i < 32) :
    i + (32 * B + 1) ∈ tags ↔
      top.testBit B = true ∧ (leAt bs (blockEntry top b entry B + 1) 4).testBit i = true := by
  induction n generalizing b entry r tags with
  | zero => omega
  | succ n ih =>
    cases hbit : top.testBit b with
    | false =>
      rw [blockTags_succ_clear hbit] at h
      rcases Nat.eq_or_lt_of_le hb with rfl | hlt
      · rw [hbit]
        constructor
        · intro hmem
          have := (blockTags_range (by omega) h _ hmem).1
          omega
        · simp
      · rw [ih (by omega) h hlt, blockEntry_clear hbit]
    | true =>
      obtain ⟨rest, -, -, -, hrest, rfl⟩ := blockTags_succ_set hbit h
      rw [List.mem_append]
      rcases Nat.eq_or_lt_of_le hb with rfl | hlt
      · rw [blockEntry_self]
        have htail : i + (32 * b + 1) ∉ rest := by
          intro hmem
          have := (blockTags_range (by omega) hrest _ hmem).1
          omega
        simp [htail, hbit, hi]
      · have hhead : i + (32 * B + 1) ∉
            (bits 32 (leAt bs (entry + 1) 4)).map (· + (32 * b + 1)) := by
          intro hmem
          obtain ⟨j, hj, hji⟩ := List.mem_map.mp hmem
          have := (mem_bits.mp hj).1
          omega
        rw [or_iff_right hhead, ih (by omega) hrest hlt, blockEntry_set hbit hlt]

theorem rank_blockTags {bs : List UInt8} {top n b entry r : Nat} {tags : List Nat}
    (hn : b + n = 8) (h : blockTags bs top n b entry r = some tags) {B i : Nat}
    (hb : b ≤ B) (hB : B < 8) (hi : i < 32) (htop : top.testBit B = true) :
    r + rank (i + (32 * B + 1)) tags =
      byteAt bs (blockEntry top b entry B) +
        popcount i (leAt bs (blockEntry top b entry B + 1) 4) := by
  induction n generalizing b entry r tags with
  | zero => omega
  | succ n ih =>
    cases hbit : top.testBit b with
    | false =>
      rw [blockTags_succ_clear hbit] at h
      have hne : b ≠ B := by
        rintro rfl
        rw [hbit] at htop
        simp at htop
      rw [ih (by omega) h (by omega), blockEntry_clear hbit]
    | true =>
      obtain ⟨rest, hr, -, -, hrest, rfl⟩ := blockTags_succ_set hbit h
      rw [rank_append]
      rcases Nat.eq_or_lt_of_le hb with rfl | hlt
      · have htail : rank (i + (32 * b + 1)) rest = 0 := by
          apply rank_eq_zero
          intro a ha
          have := (blockTags_range (by omega) hrest a ha).1
          omega
        rw [blockEntry_self, hr, htail, rank_map_add, rank_bits (by omega), Nat.add_zero]
      · have hhead : rank (i + (32 * B + 1))
            ((bits 32 (leAt bs (entry + 1) 4)).map (· + (32 * b + 1))) =
              popcount 32 (leAt bs (entry + 1) 4) := by
          rw [rank_eq_length, List.length_map, popcount]
          intro a ha
          obtain ⟨j, hj, rfl⟩ := List.mem_map.mp ha
          have := (mem_bits.mp hj).1
          omega
        rw [hhead, ← Nat.add_assoc, ih (by omega) hrest hlt, blockEntry_set hbit hlt]

/-! ## Any directory -/

theorem directoryTags_pairwise {bs : List UInt8} {kind : DirectoryKind} {dir : Nat}
    {tags : List Nat} (h : directoryTags bs kind dir = some tags) : tags.Pairwise (· < ·) := by
  cases kind with
  | empty =>
    obtain rfl := Option.some.inj h
    exact List.Pairwise.nil
  | tiny1 | tiny2 | tiny3 => exact (List.pairwise_cons.mp (tinyTags_eq_some h).2).2
  | mask8 | mask16 | mask32 =>
    obtain ⟨-, rfl⟩ := maskTags_eq_some h
    exact pairwise_map_add (bits_pairwise _ _) 1
  | blocks =>
    simp only [directoryTags] at h
    split at h
    · cases h
    · exact blockTags_pairwise rfl h

theorem directoryTags_range {bs : List UInt8} {kind : DirectoryKind} {dir : Nat}
    {tags : List Nat} (h : directoryTags bs kind dir = some tags) :
    ∀ t ∈ tags, 1 ≤ t ∧ t ≤ 255 := by
  intro t ht
  cases kind with
  | empty =>
    obtain rfl := Option.some.inj h
    simp at ht
  | tiny1 | tiny2 | tiny3 => exact tinyTags_range h t ht
  | mask8 | mask16 | mask32 =>
    have := maskTags_range h t ht
    omega
  | blocks =>
    simp only [directoryTags] at h
    split at h
    · cases h
    · have := blockTags_range rfl h t ht
      omega

theorem directoryTags_eq_nil {bs : List UInt8} {kind : DirectoryKind} {dir : Nat}
    {tags : List Nat} (h : directoryTags bs kind dir = some tags) :
    tags = [] ↔ kind = .empty := by
  cases kind with
  | empty =>
    obtain rfl := Option.some.inj h
    simp
  | tiny1 | tiny2 | tiny3 =>
    have hlen := tinyTags_length h
    simp only [reduceCtorEq, iff_false]
    rintro rfl
    simp at hlen
  | mask8 | mask16 | mask32 => simpa using maskTags_ne_nil h
  | blocks =>
    simp only [directoryTags] at h
    split at h
    · cases h
    · rename_i htop
      simp only [reduceCtorEq, iff_false]
      obtain ⟨B, hB⟩ := Nat.exists_testBit_of_ne_zero htop
      have hlt : B < 8 := lt_of_testBit (byteAt_lt _ _) hB
      exact blockTags_ne_nil h (Nat.zero_le B) (by omega) hB

theorem length_le_of_tags {tags : List Nat} (hp : tags.Pairwise (· < ·))
    (hr : ∀ t ∈ tags, 1 ≤ t ∧ t ≤ 255) : tags.length ≤ 255 := by
  have hsub : tags ⊆ List.range' 1 255 := by
    intro t ht
    have := hr t ht
    rw [List.mem_range'_1]
    omega
  have := (List.Nodup.subperm (hp.imp Nat.ne_of_lt) hsub).length_le
  simpa using this

theorem directoryTags_length_le {bs : List UInt8} {kind : DirectoryKind} {dir : Nat}
    {tags : List Nat} (h : directoryTags bs kind dir = some tags) : tags.length ≤ 255 :=
  length_le_of_tags (directoryTags_pairwise h) (directoryTags_range h)

end Bebop.Message
