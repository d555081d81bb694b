import Bebop.C.MessageLookup

/-!
# Bebop — the C field iterator

`Iterating bs d it` says what an iterator over an index still has to produce: the tags of
rank `it.rank` and above. A call that finds a tag left produces the next one and keeps it,
so neither the count of trailing zeros nor a block entry is ever read when there is nothing
there.
-/

namespace Bebop.C

open Checked Bytes Bits Message

variable {bs : List UInt8} {d : Decoded}

/-- The tags still pending in a mask, then those of the blocks not yet loaded. -/
structure BlocksLeft (bs : List UInt8) (d : Decoded) (it : MessageFieldIterator) : Prop where
  mask : it.pendingTags < 2 ^ 32
  block : it.block ≤ 8
  room : it.blockEntry + 5 * (popcount 8 (byteAt bs (bs.length - 2)) -
    popcount it.block (byteAt bs (bs.length - 2))) ≤ bs.length
  tags : ∃ r rest,
    blockTags bs (byteAt bs (bs.length - 2)) (8 - it.block) it.block it.blockEntry r = some rest ∧
    (bits 32 it.pendingTags).map (· + (it.tagBase + 1)) ++ rest = d.tags.drop it.rank

/-- What the iterator keeps besides the rank, by directory kind. -/
def PendingOk (bs : List UInt8) (d : Decoded) (it : MessageFieldIterator) : Prop :=
  match d.kind with
  | .empty | .tiny1 | .tiny2 | .tiny3 => True
  | .mask8 | .mask16 | .mask32 => (bits 32 it.pendingTags).map (· + 1) = d.tags.drop it.rank
  | .blocks => BlocksLeft bs d it

/-- The iterator has produced the tags before its rank and will produce the rest. -/
structure Iterating (bs : List UInt8) (d : Decoded) (it : MessageFieldIterator) : Prop where
  index : it.index = indexOf bs d
  rank : it.rank ≤ d.tags.length
  pending : PendingOk bs d it

/-! ## A fresh iterator -/

theorem blocks_tags (h : d.Sound bs) (hkind : d.kind = .blocks) :
    byteAt bs (bs.length - 2) ≠ 0 ∧
      blockTags bs (byteAt bs (bs.length - 2)) 8 0 d.directory 0 = some d.tags ∧
      d.directory + 5 * popcount 8 (byteAt bs (bs.length - 2)) ≤ bs.length := by
  have htags := h.tags
  have hl := h.layout
  have hsize : d.size bs = 1 + 5 * popcount 8 (byteAt bs (bs.length - 2)) := by
    rw [Decoded.size, hkind]
    rfl
  rw [hkind] at htags
  simp only [directoryTags] at htags
  split at htags
  · cases htags
  · rename_i htop
    exact ⟨htop, htags, by omega⟩

theorem mask_tags (h : d.Sound bs) (hmask : isMask d.kind) :
    1 <<< (d.kind.code - DirectoryKind.mask8.code) = d.size bs ∧
      wireLoadLe bs d.directory (d.size bs) = .ok (leAt bs d.directory (d.size bs)) ∧
      (bits 32 (leAt bs d.directory (d.size bs))).map (· + 1) = d.tags := by
  have hl := h.layout
  have htags : maskTags bs d.directory (d.size bs) = some d.tags ∧
      (d.size bs = 1 ∨ d.size bs = 2 ∨ d.size bs = 4) ∧
      1 <<< (d.kind.code - DirectoryKind.mask8.code) = d.size bs := by
    have htags := h.tags
    unfold Decoded.size
    cases hkind : d.kind with
    | mask8 | mask16 | mask32 =>
      rw [hkind] at htags
      exact ⟨htags, by simp [directorySize], rfl⟩
    | _ =>
      rw [hkind] at hmask
      exact absurd hmask (by decide)
  obtain ⟨htags, hw, hwidth⟩ := htags
  have hlt : leAt bs d.directory (d.size bs) < 2 ^ (8 * d.size bs) := by
    rw [Nat.pow_mul]
    exact leAt_lt bs d.directory _
  refine ⟨hwidth, wireLoadLe_eq hw (by omega), ?_⟩
  rw [(maskTags_eq_some htags).2, ← bits_mod_two_pow (show 8 * d.size bs ≤ 32 by omega),
    Nat.mod_eq_of_lt hlt]

theorem messageFieldIteratorInit_iterating (h : d.Sound bs) :
    ∃ it, messageFieldIteratorInit (indexOf bs d) = .ok it ∧ Iterating bs d it ∧ it.rank = 0 := by
  by_cases hmask : isMask d.kind
  · obtain ⟨hwidth, hload, hbits⟩ := mask_tags h hmask
    refine ⟨⟨indexOf bs d, d.directory, leAt bs d.directory (d.size bs), 0, 0, 0⟩, ?_,
      ⟨rfl, Nat.zero_le _, ?_⟩, rfl⟩
    · rw [messageFieldIteratorInit, if_pos (show isMask (indexOf bs d).directoryKind from hmask)]
      change (do
        let pendingTags ← wireLoadLe bs d.directory (1 <<< (d.kind.code - DirectoryKind.mask8.code))
        return ⟨indexOf bs d, d.directory, pendingTags, 0, 0, 0⟩ : Outcome MessageFieldIterator) = _
      rw [hwidth, hload]
      rfl
    · unfold PendingOk
      cases hkind : d.kind with
      | mask8 | mask16 | mask32 => exact hbits
      | _ =>
        rw [hkind] at hmask
        exact absurd hmask (by decide)
  · refine ⟨⟨indexOf bs d, d.directory, 0, 0, 0, 0⟩, ?_, ⟨rfl, Nat.zero_le _, ?_⟩, rfl⟩
    · rw [messageFieldIteratorInit, if_neg (show ¬isMask (indexOf bs d).directoryKind from hmask)]
      rfl
    · unfold PendingOk
      cases hkind : d.kind with
      | empty | tiny1 | tiny2 | tiny3 => trivial
      | mask8 | mask16 | mask32 =>
        rw [hkind] at hmask
        exact absurd (by decide) hmask
      | blocks =>
        obtain ⟨-, hblocks, hroom⟩ := blocks_tags h hkind
        exact ⟨Nat.two_pow_pos 32, Nat.zero_le 8, by simpa using hroom, 0, d.tags, hblocks, by simp⟩

/-! ## One call -/

theorem wireCtz32_step {pending c t : Nat} {rest left : List Nat}
    (h : (bits 32 pending).map (· + c) ++ rest = t :: left) (hne : bits 32 pending ≠ []) :
    ∃ bit, wireCtz32 pending = .ok bit ∧ bit + c = t ∧
      (bits 32 (pending &&& (pending - 1))).map (· + c) ++ rest = left := by
  obtain ⟨bit, tail, hbits⟩ := List.exists_cons_of_ne_nil hne
  rw [hbits, List.map_cons, List.cons_append, List.cons.injEq] at h
  refine ⟨bit, by rw [wireCtz32, hbits], h.1, ?_⟩
  rw [bits_and_sub_one hbits]
  exact h.2

theorem nextBlock_eq {top n b entry r : Nat} {rest : List Nat} (hn : b + n = 8)
    (h : blockTags bs top n b entry r = some rest) (hne : rest ≠ []) :
    nextBlock top n b < 8 ∧ b ≤ nextBlock top n b ∧ top.testBit (nextBlock top n b) = true ∧
      popcount (nextBlock top n b) top = popcount b top ∧
      blockTags bs top (8 - nextBlock top n b) (nextBlock top n b) entry r = some rest := by
  induction n generalizing b with
  | zero => exact absurd (Option.some.inj h).symm hne
  | succ n ih =>
    cases hb : top.testBit b with
    | false =>
      have hsucc : popcount (b + 1) top = popcount b top := by
        rw [popcount_succ, hb]
        rfl
      rw [blockTags_succ_clear hb] at h
      rw [nextBlock, if_pos (and_one_shiftLeft_eq_zero.mpr hb), ← hsucc]
      obtain ⟨hlt, hle, hrest⟩ := ih (by omega) h
      exact ⟨hlt, by omega, hrest⟩
    | true =>
      rw [nextBlock, if_neg (by rw [and_one_shiftLeft_eq_zero, hb]; decide)]
      exact ⟨by omega, Nat.le_refl b, hb, rfl, by rw [show 8 - b = n + 1 by omega]; exact h⟩

theorem loadBlock_eq (n : Nat) {it : MessageFieldIterator} (hindex : it.index = indexOf bs d)
    (h : BlocksLeft bs d it) (hlen : 5 ≤ bs.length) (hleft : d.tags.drop it.rank ≠ []) :
    ∃ it', loadBlock (n + 2) it = .ok it' ∧ it'.index = it.index ∧ it'.rank = it.rank ∧
      BlocksLeft bs d it' ∧ it'.pendingTags ≠ 0 := by
  by_cases hpending : it.pendingTags ≠ 0
  · refine ⟨it, ?_, rfl, rfl, h, hpending⟩
    rw [loadBlock, if_pos hpending]
    rfl
  rw [not_not] at hpending
  obtain ⟨hmask, hblock, hroom, r, rest, hrest, htags⟩ := h
  rw [hpending, bits_zero, List.map_nil, List.nil_append] at htags
  obtain ⟨hlt, hle, hset, hcount, hfrom⟩ := nextBlock_eq (by omega) hrest (htags ▸ hleft)
  generalize hB : nextBlock (byteAt bs (bs.length - 2)) (8 - it.block) it.block = B at *
  obtain ⟨m, hm⟩ : ∃ m, 8 - B = m + 1 := ⟨7 - B, by omega⟩
  rw [hm] at hfrom
  obtain ⟨tail, -, hload, -, htail, rfl⟩ := blockTags_succ_set hset hfrom
  rw [← hcount] at hroom
  obtain ⟨hentry, hroom'⟩ := entry_room (show B + (m + 1) = 8 by omega) hset hroom
  have hword : wireLoadLe bs (it.blockEntry + 1) 4 = .ok (leAt bs (it.blockEntry + 1) 4) :=
    wireLoadLe_four (by omega)
  refine ⟨⟨it.index, it.blockEntry + 5, leAt bs (it.blockEntry + 1) 4, it.rank, B + 1,
    B * 32 % 256⟩, ?_, rfl, rfl, ⟨leAt_lt _ _ 4, hlt, hroom',
    r + popcount 32 (leAt bs (it.blockEntry + 1) 4), tail, ?_, ?_⟩, hload⟩
  · rw [loadBlock, if_neg (by rw [hpending]; decide), hindex]
    change (do
      let topMask ← read bs (← back bs.length 2)
      rejectIf malformed (nextBlock topMask (8 - it.block) it.block = 8)
      let pendingTags ← wireLoadLe bs (it.blockEntry + 1) 4
      loadBlock (n + 1) ⟨indexOf bs d, it.blockEntry + 5, pendingTags, it.rank,
        nextBlock topMask (8 - it.block) it.block + 1,
        nextBlock topMask (8 - it.block) it.block * 32 % 256⟩) = _
    rw [back_of_le (by omega), ok_bind, read_of_lt (by omega), ok_bind, hB,
      rejectIf_of_not (by omega), ok_bind, hword, ok_bind, loadBlock, if_pos hload]
    rfl
  · rw [show 8 - (B + 1) = m by omega]
    exact htail
  · rw [← htags, show B * 32 % 256 = 32 * B by omega]

theorem messageFieldIteratorNextTag_step (h : d.Sound bs) {it : MessageFieldIterator}
    (hit : Iterating bs d it) (hr : it.rank < d.tags.length) :
    ∃ it', messageFieldIteratorNextTag it = .ok (some d.tags[it.rank], it') ∧
      Iterating bs d it' ∧ it'.rank = it.rank + 1 := by
  obtain ⟨index, entry, pending, rank, block, base⟩ := it
  obtain ⟨rfl, -, hpending⟩ := hit
  dsimp only at hr hpending ⊢
  have hlen := h.length_le
  have hrank : (rank + 1) % 256 = rank + 1 := Nat.mod_eq_of_lt (by omega)
  have hrange := h.range _ (List.getElem_mem hr)
  have htag256 : d.tags[rank] % 256 = d.tags[rank] := Nat.mod_eq_of_lt (by omega)
  have hdrop := List.drop_eq_getElem_cons hr
  have hcount : ¬rank = d.tags.length := Nat.ne_of_lt hr
  have hl := h.layout
  have htags := h.tags
  unfold messageFieldIteratorNextTag
  cases hkind : d.kind with
  | empty =>
    rw [hkind] at htags
    rw [← Option.some.inj htags] at hr
    exact absurd hr (Nat.not_lt_zero _)
  | tiny1 | tiny2 | tiny3 =>
    rw [hkind] at htags
    have hsize : d.size bs = d.tags.length := by
      rw [tinyTags_length htags, Decoded.size, hkind]
      rfl
    refine ⟨⟨indexOf bs d, entry, pending, rank + 1, block, base⟩, ?_, ⟨rfl, hr, ?_⟩, rfl⟩
    · simp [isTiny, hkind, DirectoryKind.code, hcount, hrank,
        read_of_lt (show d.directory + rank < bs.length by omega), tinyTags_getElem htags hr]
    · simp [PendingOk, hkind]
  | mask8 | mask16 | mask32 =>
    simp only [PendingOk, hkind] at hpending
    have hleft : (bits 32 pending).map (· + 1) ++ [] = d.tags[rank] :: d.tags.drop (rank + 1) := by
      rw [List.append_nil]
      exact hpending.trans hdrop
    have hne : bits 32 pending ≠ [] := by
      intro hnil
      rw [hnil] at hleft
      cases hleft
    obtain ⟨bit, hctz, htag, hrest⟩ := wireCtz32_step hleft hne
    refine ⟨⟨indexOf bs d, entry, pending &&& (pending - 1), rank + 1, block, base⟩, ?_,
      ⟨rfl, hr, ?_⟩, rfl⟩
    · simp [isTiny, isMask, hkind, DirectoryKind.code, hctz, htag, hcount, hrank, htag256]
    · simpa [PendingOk, hkind] using hrest
  | blocks =>
    simp only [PendingOk, hkind] at hpending
    have hleft : d.tags.drop rank ≠ [] := by
      rw [hdrop]
      exact List.cons_ne_nil _ _
    obtain ⟨⟨index', entry', pending', rank', block', base'⟩, hload, hindex', hrank', hblocks, hne⟩ :=
      loadBlock_eq 7 rfl hpending h.header.1 hleft
    obtain rfl : index' = indexOf bs d := hindex'
    obtain rfl : rank = rank' := hrank'.symm
    obtain ⟨hmask, hblock, hroom, r, rest, hfrom, hpend⟩ := hblocks
    dsimp only at hmask hblock hroom hfrom hpend hne hload
    rw [hdrop] at hpend
    have hbits : bits 32 pending' ≠ [] := List.ne_nil_of_length_pos (popcount_pos hmask hne)
    obtain ⟨bit, hctz, htag, hrest⟩ := wireCtz32_step hpend hbits
    rw [← Nat.add_assoc, Nat.add_comm bit base'] at htag
    refine ⟨⟨indexOf bs d, entry', pending' &&& (pending' - 1), rank + 1, block', base'⟩, ?_,
      ⟨rfl, hr, ?_⟩, rfl⟩
    · have hload9 : loadBlock 9 ⟨indexOf bs d, entry, pending, rank, block, base⟩ = _ := hload
      simp [isTiny, isMask, hkind, DirectoryKind.code, hcount, hload9, hctz, htag, hrank, htag256]
    · simp only [PendingOk, hkind]
      exact ⟨Nat.lt_of_le_of_lt Nat.and_le_left hmask, hblock, hroom, r, rest, hfrom, hrest⟩

end Bebop.C
