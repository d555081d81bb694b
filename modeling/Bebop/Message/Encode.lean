import Bebop.Message.Sound

/-!
# Bebop — encodings and their round trip

`encode` lays a payload out with any directory that fits its tags and any boundary width
that holds its offsets. `decode_encode` reads it back, for all eight directory kinds at
once. A writer chooses the smallest kind and width; nothing here depends on that choice.
-/

namespace Bebop.Message

open Bytes Bits

/-! ## Directories -/

/-- The tags of block `b`, out of all tags. -/
def inBlock (b : Nat) (tags : List Nat) : List Nat := tags.filter fun t => (t - 1) / 32 = b

/-- The tags of block `b` and the blocks after it. -/
def fromBlock (b : Nat) (tags : List Nat) : List Nat := tags.filter fun t => b ≤ (t - 1) / 32

def blockMask (tags : List Nat) : Nat := mask (tags.map fun t => (t - 1) / 32)

/-- The entries of the `n` blocks from `b` on; `r` tags precede them. -/
def blockEntries (tags : List Nat) : (n b r : Nat) → List UInt8
  | 0, _, _ => []
  | n + 1, b, r =>
    if inBlock b tags = [] then blockEntries tags n (b + 1) r
    else
      UInt8.ofNat r :: (leBytes 4 (mask ((inBlock b tags).map (· - (32 * b + 1)))) ++
        blockEntries tags n (b + 1) (r + (inBlock b tags).length))

def directoryBytes (kind : DirectoryKind) (tags : List Nat) : List UInt8 :=
  match kind with
  | .empty => []
  | .tiny1 | .tiny2 | .tiny3 => tags.map UInt8.ofNat
  | .mask8 => leBytes 1 (mask (tags.map (· - 1)))
  | .mask16 => leBytes 2 (mask (tags.map (· - 1)))
  | .mask32 => leBytes 4 (mask (tags.map (· - 1)))
  | .blocks => blockEntries tags 8 0 0 ++ [UInt8.ofNat (blockMask tags)]

def Fits (kind : DirectoryKind) (tags : List Nat) : Prop :=
  match kind with
  | .empty => tags = []
  | .tiny1 => tags.length = 1
  | .tiny2 => tags.length = 2
  | .tiny3 => tags.length = 3
  | .mask8 => tags ≠ [] ∧ ∀ t ∈ tags, t ≤ 8
  | .mask16 => tags ≠ [] ∧ ∀ t ∈ tags, t ≤ 16
  | .mask32 => tags ≠ [] ∧ ∀ t ∈ tags, t ≤ 32
  | .blocks => tags ≠ []

structure TagsOk (tags : List Nat) : Prop where
  ascend : tags.Pairwise (· < ·)
  range : ∀ t ∈ tags, 1 ≤ t ∧ t ≤ 255

theorem TagsOk.length_le {tags : List Nat} (h : TagsOk tags) : tags.length ≤ 255 :=
  length_le_of_tags h.ascend h.range

/-! ### Tiny and mask directories -/

theorem tinyTags_encode {tags : List Nat} (h : TagsOk tags) (before after : List UInt8) :
    tinyTags (before ++ (tags.map UInt8.ofNat ++ after)) before.length tags.length = some tags := by
  have hread : ((List.range tags.length).map fun i =>
      byteAt (before ++ (tags.map UInt8.ofNat ++ after)) (before.length + i)) = tags := by
    apply List.ext_getElem
    · simp
    · intro i hi hi'
      rw [List.getElem_map, List.getElem_range, byteAt_append_right (by omega),
        byteAt_append_left (by simp; omega), byteAt_of_lt (by simp; omega)]
      have hrange := h.range _ (List.getElem_mem hi')
      simp only [Nat.add_sub_cancel_left, List.getElem_map, UInt8.toNat_ofNat']
      omega
  unfold tinyTags
  rw [hread]
  refine if_pos (List.pairwise_cons.mpr ⟨fun t ht => ?_, h.ascend⟩)
  exact (h.range t ht).1

theorem pairwise_map_sub {l : List Nat} {c : Nat} (hl : l.Pairwise (· < ·)) (hc : ∀ t ∈ l, c ≤ t) :
    (l.map (· - c)).Pairwise (· < ·) := by
  rw [List.pairwise_map]
  refine hl.imp_of_mem fun ha hb hab => ?_
  have := hc _ ha
  have := hc _ hb
  omega

theorem bits_mask_sub {l : List Nat} {c n : Nat} (hl : l.Pairwise (· < ·))
    (hc : ∀ t ∈ l, c ≤ t ∧ t < c + n) :
    mask (l.map (· - c)) < 2 ^ n ∧ (bits n (mask (l.map (· - c)))).map (· + c) = l := by
  have hlt : ∀ i ∈ l.map (· - c), i < n := by
    intro i hi
    obtain ⟨t, ht, rfl⟩ := List.mem_map.mp hi
    have := hc t ht
    omega
  refine ⟨mask_lt hlt, ?_⟩
  rw [bits_mask (pairwise_map_sub hl fun t ht => (hc t ht).1) hlt, List.map_map]
  conv_rhs => rw [← List.map_id l]
  apply List.map_congr_left
  intro t ht
  have := hc t ht
  simp only [Function.comp_apply, id]
  omega

theorem leAt_middle {w v : Nat} (hv : v < 256 ^ w) (before after : List UInt8) :
    leAt (before ++ (leBytes w v ++ after)) before.length w = v := by
  rw [leAt_append_right (Nat.le_refl _), Nat.sub_self, leAt_leBytes hv]

theorem mask_ne_zero {l : List Nat} (hl : l ≠ []) : mask l ≠ 0 := by
  obtain ⟨i, hi⟩ := List.exists_mem_of_ne_nil l hl
  intro hzero
  have hbit : (mask l).testBit i = true := by simpa using hi
  rw [hzero, Nat.zero_testBit] at hbit
  cases hbit

theorem maskTags_encode {tags : List Nat} {w : Nat} (h : TagsOk tags) (hne : tags ≠ [])
    (hw : ∀ t ∈ tags, t ≤ 8 * w) (before after : List UInt8) :
    maskTags (before ++ (leBytes w (mask (tags.map (· - 1))) ++ after)) before.length w =
      some tags := by
  obtain ⟨hlt, hbits⟩ := bits_mask_sub (n := 8 * w) h.ascend fun t ht =>
    ⟨(h.range t ht).1, by have := hw t ht; omega⟩
  have hword : mask (tags.map (· - 1)) < 256 ^ w := by
    rwa [Nat.pow_mul] at hlt
  unfold maskTags
  rw [leAt_middle hword]
  dsimp only
  rw [if_neg (mask_ne_zero (by simpa using hne)), hbits]

/-! ### Block directories -/

theorem mem_inBlock {tags : List Nat} (h : TagsOk tags) {b t : Nat} :
    t ∈ inBlock b tags ↔ t ∈ tags ∧ 32 * b + 1 ≤ t ∧ t < 32 * b + 1 + 32 := by
  simp only [inBlock, List.mem_filter, decide_eq_true_iff]
  refine and_congr_right fun ht => ?_
  have := h.range t ht
  omega

theorem inBlock_pairwise {tags : List Nat} (h : TagsOk tags) (b : Nat) :
    (inBlock b tags).Pairwise (· < ·) := h.ascend.filter _

theorem fromBlock_zero (tags : List Nat) : fromBlock 0 tags = tags :=
  List.filter_eq_self.mpr fun _ _ => by simp

theorem fromBlock_eight {tags : List Nat} (h : TagsOk tags) : fromBlock 8 tags = [] := by
  rw [fromBlock, List.filter_eq_nil_iff]
  intro t ht
  have := h.range t ht
  simp only [decide_eq_true_iff]
  omega

theorem fromBlock_succ {tags : List Nat} (h : TagsOk tags) (b : Nat) :
    fromBlock b tags = inBlock b tags ++ fromBlock (b + 1) tags := by
  apply eq_of_pairwise_lt (h.ascend.filter _)
  · refine List.pairwise_append.mpr ⟨inBlock_pairwise h b, h.ascend.filter _, ?_⟩
    intro x hx y hy
    have hx' := (mem_inBlock h).mp hx
    simp only [fromBlock, List.mem_filter, decide_eq_true_iff] at hy
    omega
  · intro t
    simp only [fromBlock, inBlock, List.mem_append, List.mem_filter, decide_eq_true_iff,
      ← and_or_left]
    refine and_congr_right fun _ => ?_
    omega

theorem testBit_blockMask (tags : List Nat) (b : Nat) :
    (blockMask tags).testBit b = decide (inBlock b tags ≠ []) := by
  rw [blockMask, testBit_mask, decide_eq_decide]
  simp [inBlock, List.filter_eq_nil_iff]

theorem blockMask_lt {tags : List Nat} (h : TagsOk tags) : blockMask tags < 2 ^ 8 := by
  apply mask_lt
  intro i hi
  obtain ⟨t, ht, rfl⟩ := List.mem_map.mp hi
  have := h.range t ht
  omega

theorem length_blockEntries (tags : List Nat) {n b : Nat} (r : Nat) (hn : b + n = 8) :
    (blockEntries tags n b r).length + 5 * popcount b (blockMask tags) =
      5 * popcount 8 (blockMask tags) := by
  induction n generalizing b r with
  | zero =>
    obtain rfl : b = 8 := hn
    simp [blockEntries]
  | succ n ih =>
    have hbit := testBit_blockMask tags b
    have hsucc := popcount_succ b (blockMask tags)
    rw [blockEntries]
    by_cases hnil : inBlock b tags = []
    · have := ih r (show b + 1 + n = 8 by omega)
      simp only [hnil, ne_eq, not_true_eq_false, decide_false] at hbit
      simp only [hbit, Bool.false_eq_true, if_false] at hsucc
      rw [if_pos hnil]
      omega
    · have := ih (r + (inBlock b tags).length) (show b + 1 + n = 8 by omega)
      simp only [hnil, ne_eq, not_false_eq_true, decide_true] at hbit
      simp only [hbit, if_true] at hsucc
      rw [if_neg hnil]
      simp only [List.length_cons, List.length_append, length_leBytes]
      omega

theorem blockEntry_encode {r m : Nat} (hr : r < 256) (hm : m < 256 ^ 4)
    (before after : List UInt8) :
    byteAt (before ++ (UInt8.ofNat r :: (leBytes 4 m ++ after))) before.length = r ∧
      leAt (before ++ (UInt8.ofNat r :: (leBytes 4 m ++ after))) (before.length + 1) 4 = m := by
  constructor
  · rw [byteAt_append_right (Nat.le_refl _), Nat.sub_self]
    simpa [byteAt] using Nat.mod_eq_of_lt hr
  · simpa using leAt_middle hm (before ++ [UInt8.ofNat r]) after

theorem blockTags_encode {tags : List Nat} (h : TagsOk tags) {n b r : Nat} (hn : b + n = 8)
    (hr : r + (fromBlock b tags).length = tags.length) (before after : List UInt8) :
    blockTags (before ++ (blockEntries tags n b r ++ after)) (blockMask tags) n b before.length r =
      some (fromBlock b tags) := by
  induction n generalizing b r before with
  | zero =>
    obtain rfl : b = 8 := hn
    rw [fromBlock_eight h]
    rfl
  | succ n ih =>
    have hbit := testBit_blockMask tags b
    have hsplit := fromBlock_succ h b
    have hlength := congrArg List.length hsplit
    rw [List.length_append] at hlength
    rw [blockEntries]
    by_cases hnil : inBlock b tags = []
    · rw [if_pos hnil, blockTags_succ_clear (by rw [hbit, hnil]; rfl), hsplit, hnil, List.nil_append]
      rw [hnil, List.length_nil] at hlength
      exact ih (by omega) (by omega) before
    · obtain ⟨hlt, hbits⟩ := bits_mask_sub (n := 32) (inBlock_pairwise h b) fun t ht =>
        ((mem_inBlock h).mp ht).2
      have hne := mask_ne_zero (l := (inBlock b tags).map (· - (32 * b + 1))) (by simpa using hnil)
      generalize mask ((inBlock b tags).map (· - (32 * b + 1))) = m at *
      have hcount : popcount 32 m = (inBlock b tags).length := by
        rw [popcount, ← hbits, List.length_map]
      have hlen := h.length_le
      obtain ⟨hrank, hword⟩ := blockEntry_encode (show r < 256 by omega) hlt before
        (blockEntries tags n (b + 1) (r + (inBlock b tags).length) ++ after)
      have hrest := ih (b := b + 1) (r := r + (inBlock b tags).length) (by omega) (by omega)
        (before ++ (UInt8.ofNat r :: leBytes 4 m))
      have hlast : b = 7 → m.testBit 31 = false := by
        rintro rfl
        by_contra hset
        -- bit 31 of the last block would be tag 256
        have hmem : 31 + (32 * 7 + 1) ∈ inBlock 7 tags := by
          rw [← hbits]
          exact List.mem_map_of_mem (mem_bits.mpr ⟨by decide, by simpa using hset⟩)
        have := h.range _ ((mem_inBlock h).mp hmem).1
        omega
      rw [if_neg hnil, hsplit]
      conv_rhs => rw [← hbits]
      simp only [List.cons_append, List.append_assoc, List.length_append, List.length_cons,
        length_leBytes] at hrest ⊢
      exact blockTags_succ_intro (by rw [hbit]; simpa using hnil) hrank hword hne hlast
        (by rw [hcount]; exact hrest)

/-! ### Any directory -/

theorem byteAt_top (before : List UInt8) (top control : UInt8) :
    byteAt (before ++ [top, control]) ((before ++ [top, control]).length - 2) = top.toNat := by
  rw [List.length_append, byteAt_append_right (by simp)]
  simp [byteAt]

theorem directorySize_encode {kind : DirectoryKind} {tags : List Nat} (h : TagsOk tags)
    (hfits : Fits kind tags) (before : List UInt8) (control : UInt8) :
    directorySize kind (byteAt (before ++ (directoryBytes kind tags ++ [control]))
      ((before ++ (directoryBytes kind tags ++ [control])).length - 2)) =
      (directoryBytes kind tags).length := by
  cases kind with
  | empty => rfl
  | tiny1 | tiny2 | tiny3 =>
    rw [directoryBytes, List.length_map, hfits]
    rfl
  | mask8 | mask16 | mask32 =>
    rw [directoryBytes, length_leBytes]
    rfl
  | blocks =>
    have htop := byteAt_top (before ++ blockEntries tags 8 0 0) (UInt8.ofNat (blockMask tags)) control
    have hlen := length_blockEntries tags 0 (show 0 + 8 = 8 from rfl)
    have hmask : (UInt8.ofNat (blockMask tags)).toNat = blockMask tags := by
      rw [UInt8.toNat_ofNat']
      exact Nat.mod_eq_of_lt (blockMask_lt h)
    simp only [directoryBytes, List.append_assoc, List.cons_append, List.nil_append] at htop ⊢
    rw [htop, hmask, directorySize, List.length_append, List.length_singleton]
    rw [zero_popcount] at hlen
    omega

theorem directoryTags_encode {kind : DirectoryKind} {tags : List Nat} (h : TagsOk tags)
    (hfits : Fits kind tags) (before : List UInt8) (control : UInt8) :
    directoryTags (before ++ (directoryBytes kind tags ++ [control])) kind before.length =
      some tags := by
  cases kind with
  | empty =>
    rw [show tags = [] from hfits]
    rfl
  | tiny1 | tiny2 | tiny3 =>
    have htags := tinyTags_encode h before [control]
    rw [show tags.length = _ from hfits] at htags
    exact htags
  | mask8 | mask16 | mask32 => exact maskTags_encode h hfits.1 hfits.2 before [control]
  | blocks =>
    have htop := byteAt_top (before ++ blockEntries tags 8 0 0) (UInt8.ofNat (blockMask tags)) control
    have hmask : (UInt8.ofNat (blockMask tags)).toNat = blockMask tags := by
      rw [UInt8.toNat_ofNat']
      exact Nat.mod_eq_of_lt (blockMask_lt h)
    have htags := blockTags_encode h (show 0 + 8 = 8 from rfl)
      (show 0 + (fromBlock 0 tags).length = tags.length by rw [fromBlock_zero, Nat.zero_add]) before
      [UInt8.ofNat (blockMask tags), control]
    rw [fromBlock_zero] at htags
    simp only [directoryTags, directoryBytes, List.append_assoc, List.cons_append,
      List.nil_append] at htop ⊢
    have hne : blockMask tags ≠ 0 := mask_ne_zero (by simpa using (show tags ≠ [] from hfits))
    rw [htop, hmask, if_neg hne, htags]

/-! ## Whole encodings -/

section Encode

/-- The boundaries of an encoding: every offset but the first. -/
def boundaryBytes (width : Nat) (offsets : List Nat) : List UInt8 :=
  (offsets.drop 1).flatMap (leBytes width)

def encodeBody (kind : DirectoryKind) (widthCode : Nat) (tags offsets : List Nat)
    (payload : List UInt8) : List UInt8 :=
  payload ++ (boundaryBytes (2 ^ widthCode) offsets ++
    (directoryBytes kind tags ++ [UInt8.ofNat (kind.code * 4 + widthCode)]))

def encode (kind : DirectoryKind) (widthCode : Nat) (tags offsets : List Nat)
    (payload : List UInt8) : List UInt8 :=
  leBytes 4 (encodeBody kind widthCode tags offsets payload).length ++
    encodeBody kind widthCode tags offsets payload

/-- A payload cut into a slice for each tag: the offsets ascend and stay inside. -/
structure Sliced (tags offsets : List Nat) (payloadSize : Nat) : Prop where
  tagsOk : TagsOk tags
  length : offsets.length = tags.length
  first : ∀ o ∈ offsets[0]?, o = 0
  ascend : offsets.Pairwise (· ≤ ·)
  inside : ∀ o ∈ offsets, o ≤ payloadSize
  empty : tags = [] → payloadSize = 0

/-- Directory, boundaries and length prefix have room for what they hold. -/
structure Encodable (kind : DirectoryKind) (widthCode : Nat) (tags offsets : List Nat)
    (payload : List UInt8) : Prop extends Sliced tags offsets payload.length where
  fits : Fits kind tags
  code : widthCode ≤ 2
  width : ∀ o ∈ offsets, o < 256 ^ 2 ^ widthCode
  size : (encodeBody kind widthCode tags offsets payload).length < 2 ^ 32

def encoded (kind : DirectoryKind) (widthCode : Nat) (tags offsets : List Nat)
    (payload : List UInt8) : Decoded :=
  ⟨kind, 2 ^ widthCode, 4 + payload.length + (boundaryBytes (2 ^ widthCode) offsets).length,
    4 + payload.length, tags⟩

@[simp] theorem encoded_tags (kind : DirectoryKind) (widthCode : Nat) (tags offsets : List Nat)
    (payload : List UInt8) : (encoded kind widthCode tags offsets payload).tags = tags := rfl

@[simp] theorem encoded_payloadSize (kind : DirectoryKind) (widthCode : Nat)
    (tags offsets : List Nat) (payload : List UInt8) :
    (encoded kind widthCode tags offsets payload).payloadSize = payload.length := by
  rw [Decoded.payloadSize, encoded, Nat.add_sub_cancel_left]

theorem length_boundaryBytes (width : Nat) (offsets : List Nat) :
    (boundaryBytes width offsets).length = (offsets.length - 1) * width := by
  rw [boundaryBytes, List.length_flatMap]
  simp

theorem leAt_flatMap {w : Nat} {l : List Nat} (hl : ∀ o ∈ l, o < 256 ^ w) {i : Nat}
    (hi : i < l.length) (before after : List UInt8) :
    leAt (before ++ (l.flatMap (leBytes w) ++ after)) (before.length + i * w) w = l[i] := by
  induction l generalizing i before with
  | nil => exact absurd hi (Nat.not_lt_zero i)
  | cons o rest ih =>
    rw [List.flatMap_cons, List.append_assoc]
    cases i with
    | zero =>
      rw [Nat.zero_mul, Nat.add_zero]
      exact leAt_middle (hl o (List.mem_cons_self ..)) before _
    | succ i =>
      have hrest := ih (fun o ho => hl o (List.mem_cons_of_mem _ ho)) (Nat.lt_of_succ_lt_succ hi)
        (before ++ leBytes w o)
      rw [List.length_append, length_leBytes, List.append_assoc] at hrest
      rw [Nat.succ_mul, Nat.add_comm (i * w) w, ← Nat.add_assoc]
      exact hrest

def encodeFront (kind : DirectoryKind) (widthCode : Nat) (tags offsets : List Nat)
    (payload : List UInt8) : List UInt8 :=
  leBytes 4 (encodeBody kind widthCode tags offsets payload).length ++
    (payload ++ boundaryBytes (2 ^ widthCode) offsets)

theorem encode_eq_front (kind : DirectoryKind) (widthCode : Nat) (tags offsets : List Nat)
    (payload : List UInt8) :
    encode kind widthCode tags offsets payload =
      encodeFront kind widthCode tags offsets payload ++
        (directoryBytes kind tags ++ [UInt8.ofNat (kind.code * 4 + widthCode)]) := by
  simp only [encode, encodeBody, encodeFront, List.append_assoc]

theorem length_encodeFront (kind : DirectoryKind) (widthCode : Nat) (tags offsets : List Nat)
    (payload : List UInt8) :
    (encodeFront kind widthCode tags offsets payload).length =
      4 + payload.length + (offsets.length - 1) * 2 ^ widthCode := by
  rw [encodeFront, List.length_append, length_leBytes, List.length_append, length_boundaryBytes,
    ← Nat.add_assoc]

theorem length_encode (kind : DirectoryKind) (widthCode : Nat) (tags offsets : List Nat)
    (payload : List UInt8) :
    (encode kind widthCode tags offsets payload).length =
      4 + payload.length + (offsets.length - 1) * 2 ^ widthCode +
        (directoryBytes kind tags).length + 1 := by
  rw [encode_eq_front, List.length_append, length_encodeFront, List.length_append,
    List.length_singleton]
  omega

theorem directoryBytes_nil {kind : DirectoryKind} (hfits : Fits kind []) :
    directoryBytes kind [] = [] := by
  cases kind with
  | empty | tiny1 | tiny2 | tiny3 => rfl
  | mask8 | mask16 | mask32 => exact absurd rfl hfits.1
  | blocks => exact absurd rfl hfits

theorem DirectoryKind.code_lt (kind : DirectoryKind) : kind.code < 8 := by
  cases kind <;> decide

variable {kind : DirectoryKind} {widthCode : Nat} {tags offsets : List Nat} {payload : List UInt8}
  (h : Encodable kind widthCode tags offsets payload)

include h

theorem control_encode :
    control (encode kind widthCode tags offsets payload) = kind.code * 4 + widthCode := by
  have hcode := kind.code_lt
  have hwidth := h.code
  rw [control, encode_eq_front, ← List.append_assoc, byteAt_append_right (by simp)]
  simp only [List.length_append, List.length_singleton, Nat.add_sub_cancel, Nat.sub_self, byteAt,
    List.getElem?_cons_zero, Option.map_some, Option.getD_some, UInt8.toNat_ofNat']
  omega

theorem headerOk_encode : HeaderOk (encode kind widthCode tags offsets payload) := by
  have hlen := length_encode kind widthCode tags offsets payload
  have hcode := kind.code_lt
  have hwidth := h.code
  unfold HeaderOk
  rw [control_encode h]
  refine ⟨by omega, ?_, by omega, by omega⟩
  rw [encode, leAt_leBytes h.size, List.length_append, length_leBytes, Nat.add_sub_cancel_left]

theorem sound_encode :
    (encoded kind widthCode tags offsets payload).Sound
      (encode kind widthCode tags offsets payload) := by
  have hlen := length_encode kind widthCode tags offsets payload
  have hfront := length_encodeFront kind widthCode tags offsets payload
  have hwidth := h.code
  have hcount := h.length
  have hbound := length_boundaryBytes (2 ^ widthCode) offsets
  have hsize : Decoded.size (encode kind widthCode tags offsets payload)
      (encoded kind widthCode tags offsets payload) = (directoryBytes kind tags).length := by
    rw [Decoded.size, encode_eq_front]
    exact directorySize_encode h.tagsOk h.fits _ _
  refine ⟨headerOk_encode h, ?_, ?_, ?_, ?_, ?_, ?_, ?_⟩
  · rw [control_encode h, show (kind.code * 4 + widthCode) / 4 = kind.code by omega]
    exact DirectoryKind.ofCode_code kind
  · rw [control_encode h, show (kind.code * 4 + widthCode) % 4 = widthCode by omega]
    rfl
  · rw [hsize, hlen, encoded, hbound]
    dsimp only
    omega
  · have htags := directoryTags_encode h.tagsOk h.fits
      (encodeFront kind widthCode tags offsets payload) (UInt8.ofNat (kind.code * 4 + widthCode))
    rw [← encode_eq_front, hfront] at htags
    rw [encoded, hbound]
    exact htags
  · rw [encoded, hbound, hcount, Nat.add_sub_cancel]
  · rw [hsize, hlen, encoded, hcount]
    dsimp only
    omega
  · intro hnil
    have htags : tags = [] := hnil
    subst htags
    have hpay : payload.length = 0 := h.empty rfl
    rw [hlen, hpay, hcount, directoryBytes_nil h.fits]
    simp

theorem boundary_encode {i : Nat} (hi : i + 1 < offsets.length) :
    (encoded kind widthCode tags offsets payload).boundary
      (encode kind widthCode tags offsets payload) i = offsets[i + 1] := by
  have hread := leAt_flatMap (w := 2 ^ widthCode) (l := offsets.drop 1)
    (fun o ho => h.width o (List.mem_of_mem_drop ho)) (i := i) (by rw [List.length_drop]; omega)
    (leBytes 4 (encodeBody kind widthCode tags offsets payload).length ++ payload)
    (directoryBytes kind tags ++ [UInt8.ofNat (kind.code * 4 + widthCode)])
  rw [List.getElem_drop, List.length_append, length_leBytes] at hread
  simp only [Nat.add_comm 1 i] at hread
  rw [← hread, Decoded.boundary, encode, encodeBody, List.append_assoc]
  rfl

theorem fieldStart_encode {r : Nat} (hr : r < offsets.length) :
    (encoded kind widthCode tags offsets payload).fieldStart
      (encode kind widthCode tags offsets payload) r = offsets[r] := by
  rw [Decoded.fieldStart]
  cases r with
  | zero =>
    rw [if_pos rfl]
    exact (h.first _ (List.getElem?_eq_getElem hr)).symm
  | succ r =>
    rw [if_neg (Nat.succ_ne_zero r), Nat.add_sub_cancel]
    exact boundary_encode h hr

theorem fieldEnd_encode {r : Nat} (hr : r < offsets.length) :
    (encoded kind widthCode tags offsets payload).fieldEnd
      (encode kind widthCode tags offsets payload) r = offsets[r + 1]?.getD payload.length := by
  have hcount := h.length
  rw [Decoded.fieldEnd, encoded_tags, encoded_payloadSize]
  by_cases hlast : r + 1 = tags.length
  · rw [if_pos hlast, List.getElem?_eq_none (by omega), Option.getD_none]
  · have hnext : r + 1 < offsets.length := by omega
    rw [if_neg hlast, boundary_encode h hnext, List.getElem?_eq_getElem hnext, Option.getD_some]

omit h in
theorem slice_encode {start stop : Nat} (hle : start ≤ stop) (hstop : stop ≤ payload.length) :
    ((encode kind widthCode tags offsets payload).drop (4 + start)).take (stop - start) =
      (payload.drop start).take (stop - start) := by
  have hskip : (encode kind widthCode tags offsets payload).drop (4 + start) =
      (encodeBody kind widthCode tags offsets payload).drop start := by
    rw [encode, ← List.drop_drop]
    exact congrArg (List.drop start) (List.drop_left' (length_leBytes 4 _))
  rw [hskip, encodeBody, List.drop_append_of_le_length (by omega)]
  exact List.take_append_of_le_length (by rw [List.length_drop]; omega)

theorem decode_encode :
    decode (encode kind widthCode tags offsets payload) =
      some (encoded kind widthCode tags offsets payload) := by
  refine decode_eq_some.mpr ⟨sound_encode h, fun r hr => ?_⟩
  have hcount := h.length
  have hr' : r < offsets.length := by
    rw [hcount]
    exact hr
  rw [Decoded.FieldOk, fieldStart_encode h hr', fieldEnd_encode h hr', encoded_payloadSize]
  by_cases hnext : r + 1 < offsets.length
  · rw [List.getElem?_eq_getElem hnext, Option.getD_some]
    exact ⟨List.pairwise_iff_getElem.mp h.ascend r (r + 1) hr' hnext (Nat.lt_succ_self r),
      h.inside _ (List.getElem_mem hnext)⟩
  · rw [List.getElem?_eq_none (by omega), Option.getD_none]
    exact ⟨h.inside _ (List.getElem_mem hr'), Nat.le_refl _⟩

end Encode

end Bebop.Message
