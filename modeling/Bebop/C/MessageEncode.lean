import Bebop.C.MessageWriter
import Bebop.Message.Encode

/-!
# Bebop — the C writer produces the format

Each loop of `bebop_writer_end_indexed_message` appends the bytes the format asks for, the
layout it chooses fits the tags, and the room it reserves is the room it uses. Together the
writer ends up holding `Message.encode` of its arguments.
-/

namespace Bebop.C

open Checked Bytes Bits Message

/-! ## Appending -/

/-- The outcome is the writer with `data` appended in place. -/
def Wrote (writer : Writer) (data : List UInt8) (out : Outcome Writer) : Prop :=
  ∃ writer', out = .ok writer' ∧ writer'.bytes = writer.bytes ++ data ∧
    writer'.capacity = writer.capacity

theorem store_wrote {writer : Writer} {data : List UInt8}
    (h : writer.bytes.length + data.length ≤ writer.capacity) :
    Wrote writer data (writer.store data) :=
  ⟨_, dif_pos h, rfl, rfl⟩

theorem wrote_nil (writer : Writer) : Wrote writer [] (pure writer) :=
  ⟨writer, rfl, (List.append_nil _).symm, rfl⟩

theorem Wrote.bind {writer : Writer} {a b : List UInt8} {out : Outcome Writer}
    {f : Writer → Outcome Writer} (ha : Wrote writer a out)
    (hb : ∀ writer' : Writer, writer'.bytes = writer.bytes ++ a →
      writer'.capacity = writer.capacity → Wrote writer' b (f writer')) :
    Wrote writer (a ++ b) (out >>= f) := by
  obtain ⟨w1, rfl, hbytes1, hcap1⟩ := ha
  obtain ⟨w2, hout2, hbytes2, hcap2⟩ := hb w1 hbytes1 hcap1
  exact ⟨w2, hout2, by rw [hbytes2, hbytes1, List.append_assoc], hcap2.trans hcap1⟩

theorem wireStoreLe_wrote {writer : Writer} {value width : Nat}
    (hw : width = 1 ∨ width = 2 ∨ width = 4)
    (h : writer.bytes.length + width ≤ writer.capacity) :
    Wrote writer (leBytes width value) (wireStoreLe writer value width) := by
  unfold wireStoreLe
  have h8 : value >>> 8 = value / 256 := Nat.shiftRight_eq_div_pow value 8
  have h16 : value >>> 16 = value / 256 / 256 := by
    rw [Nat.shiftRight_eq_div_pow, Nat.div_div_eq_div_mul]
  have h24 : value >>> 24 = value / 256 / 256 / 256 := by
    rw [Nat.shiftRight_eq_div_pow, Nat.div_div_eq_div_mul, Nat.div_div_eq_div_mul]
  rw [h8, h16, h24]
  rcases hw with rfl | rfl | rfl
  · refine Wrote.bind (b := []) (store_wrote (by simpa using h)) fun w hb hc => ?_
    exact wrote_nil w
  · refine Wrote.bind (store_wrote (by simp; omega)) fun w hb hc => ?_
    rw [if_pos (by decide)]
    refine Wrote.bind (b := []) (store_wrote (by simp [hb, hc]; omega)) fun w hb hc => ?_
    exact wrote_nil w
  · refine Wrote.bind (store_wrote (by simp; omega)) fun w hb hc => ?_
    rw [if_pos (by decide)]
    refine Wrote.bind (store_wrote (by simp [hb, hc]; omega)) fun w hb' hc' => ?_
    rw [if_pos (by decide)]
    refine Wrote.bind (store_wrote (by simp [hb, hb', hc, hc']; omega)) fun w hb'' hc'' => ?_
    exact store_wrote (by simp [hb, hb', hb'', hc, hc', hc'']; omega)

theorem writeBoundaries_wrote {width : Nat} (hw : width = 1 ∨ width = 2 ∨ width = 4)
    {offsets : List Nat} {writer : Writer}
    (h : writer.bytes.length + offsets.length * width ≤ writer.capacity) :
    Wrote writer (offsets.flatMap (leBytes width)) (writeBoundaries width offsets writer) := by
  induction offsets generalizing writer with
  | nil => exact wrote_nil writer
  | cons offset rest ih =>
    rw [List.length_cons, Nat.succ_mul] at h
    rw [List.flatMap_cons]
    refine Wrote.bind (wireStoreLe_wrote hw (by omega)) fun w hb hc => ih ?_
    rw [hb, hc, List.length_append, length_leBytes]
    omega

/-! ## Masks -/

theorem tagBit_eq {first tag : Nat} (h : first ≤ tag ∧ tag < first + 32) :
    tagBit first tag = .ok (1 <<< (tag - first)) :=
  if_pos ⟨h.1, by omega⟩

theorem tagMask_eq {tags : List Nat} (h : ∀ t ∈ tags, 1 ≤ t ∧ t ≤ 32) (m : Nat) :
    tagMask tags m = .ok ((tags.map (· - 1)).foldl (fun m i => m ||| (1 <<< i)) m) := by
  induction tags generalizing m with
  | nil => rfl
  | cons t rest ih =>
    have ht := h t (List.mem_cons_self ..)
    rw [tagMask, tagBit_eq (by omega), ok_bind, ih fun t ht => h t (List.mem_cons_of_mem _ ht)]
    rfl

theorem takeBlock_eq {first : Nat} {here later : List Nat}
    (hhere : ∀ t ∈ here, first ≤ t ∧ t < first + 32) (hlater : ∀ t ∈ later, first + 32 ≤ t)
    (m : Nat) :
    takeBlock first (first + 32) (here ++ later) m =
      .ok ((here.map (· - first)).foldl (fun m i => m ||| (1 <<< i)) m, later) := by
  induction here generalizing m with
  | nil =>
    cases later with
    | nil => rfl
    | cons t rest =>
      have := hlater t (List.mem_cons_self ..)
      rw [List.nil_append, takeBlock, if_neg (by omega)]
      rfl
  | cons t rest ih =>
    have ht := hhere t (List.mem_cons_self ..)
    rw [List.cons_append, takeBlock, if_pos ht.2, tagBit_eq ht, ok_bind,
      ih fun t ht => hhere t (List.mem_cons_of_mem _ ht)]
    rfl

theorem writeBlocks_wrote {tags : List Nat} (h : TagsOk tags) {n b r : Nat} (hn : b + n = 8)
    (hr : r + (fromBlock b tags).length = tags.length) {writer : Writer}
    (hroom : writer.bytes.length + (blockEntries tags n b r).length ≤ writer.capacity) :
    Wrote writer (blockEntries tags n b r)
      (writeBlocks (blockMask tags) n b r (fromBlock b tags) writer) := by
  induction n generalizing b r writer with
  | zero => exact wrote_nil writer
  | succ n ih =>
    have hbit := testBit_blockMask tags b
    have hsplit := fromBlock_succ h b
    have hlength := congrArg List.length hsplit
    rw [List.length_append] at hlength
    rw [blockEntries] at hroom ⊢
    rw [writeBlocks, hsplit]
    by_cases hnil : inBlock b tags = []
    · rw [if_pos hnil] at hroom ⊢
      rw [hnil, List.length_nil] at hlength
      rw [if_pos (by rw [and_one_shiftLeft_eq_zero, hbit, hnil]; rfl), hnil, List.nil_append]
      exact ih (by omega) (by omega) hroom
    · rw [if_neg hnil] at hroom ⊢
      have hset : ¬blockMask tags &&& (1 <<< b) = 0 := by
        rw [and_one_shiftLeft_eq_zero, hbit]
        simpa using hnil
      have hhere : ∀ t ∈ inBlock b tags, b * 32 + 1 ≤ t ∧ t < b * 32 + 1 + 32 := by
        intro t ht
        have := (mem_inBlock h).mp ht
        omega
      have hlater : ∀ t ∈ fromBlock (b + 1) tags, b * 32 + 1 + 32 ≤ t := by
        intro t ht
        simp only [fromBlock, List.mem_filter, decide_eq_true_iff] at ht
        omega
      have htake := takeBlock_eq hhere hlater 0
      have hcount : popcount 32 (mask ((inBlock b tags).map (· - (b * 32 + 1)))) =
          (inBlock b tags).length := by
        have hbits := (bits_mask_sub (inBlock_pairwise h b) hhere).2
        have := congrArg List.length hbits
        rwa [List.length_map] at this
      have hlen := h.length_le
      rw [if_neg hset]
      dsimp only
      rw [htake, ok_bind]
      simp only [List.length_cons, List.length_append, length_leBytes] at hroom
      rw [Nat.mul_comm 32 b]
      refine Wrote.bind (a := [UInt8.ofNat r]) (store_wrote (by simp; omega)) fun w hb hc => ?_
      refine Wrote.bind (wireStoreLe_wrote (by decide) (by simp [hb, hc]; omega)) fun w' hb' hc' => ?_
      change Wrote w' _ (writeBlocks (blockMask tags) n (b + 1)
        ((r + popcount 32 (mask ((inBlock b tags).map (· - (b * 32 + 1))))) % 256) _ w')
      rw [hcount, Nat.mod_eq_of_lt (by omega)]
      exact ih (by omega) (by omega) (by simp [hb, hb', hc, hc']; omega)

/-! ## Layout -/

theorem layoutMask_eq (tags : List Nat) :
    tags.foldl (fun mask tag => mask ||| (1 <<< ((tag - 1) >>> 5))) 0 = blockMask tags := by
  rw [blockMask, mask, List.foldl_map]
  simp only [Nat.shiftRight_eq_div_pow]

theorem le_getLast {tags : List Nat} (h : tags.Pairwise (· < ·)) {m : Nat}
    (hm : tags.getLast? = some m) : ∀ t ∈ tags, t ≤ m := by
  obtain ⟨front, rfl⟩ := List.getLast?_eq_some_iff.mp hm
  intro t ht
  rcases List.mem_append.mp ht with hfront | hlast
  · exact Nat.le_of_lt ((List.pairwise_append.mp h).2.2 t hfront m (List.mem_singleton_self m))
  · exact Nat.le_of_eq (List.mem_singleton.mp hlast)

structure LayoutOk (tags : List Nat) (layout : DirectoryLayout) : Prop where
  fits : Fits layout.kind tags
  size : layout.size = (directoryBytes layout.kind tags).length
  blockMask : layout.kind = .blocks → layout.blockMask = blockMask tags

theorem maskLayout_ok {tags : List Nat} (hne : tags ≠ []) {maxTag : Nat}
    (hmax : ∀ t ∈ tags, t ≤ maxTag) {layout : DirectoryLayout} (h : LayoutOk tags layout) :
    LayoutOk tags (maskLayout maxTag layout) := by
  unfold maskLayout
  split_ifs with h8 h16 h32
  · exact ⟨⟨hne, fun t ht => Nat.le_trans (hmax t ht) h8.1⟩, rfl, fun hk => by cases hk⟩
  · exact ⟨⟨hne, fun t ht => Nat.le_trans (hmax t ht) h16.1⟩, rfl, fun hk => by cases hk⟩
  · exact ⟨⟨hne, fun t ht => Nat.le_trans (hmax t ht) h32.1⟩, rfl, fun hk => by cases hk⟩
  · exact h

theorem tinyLayout_ok {tags : List Nat} (hne : tags ≠ []) {layout : DirectoryLayout}
    (h : LayoutOk tags layout) : LayoutOk tags (tinyLayout tags.length layout) := by
  have hpos := List.length_pos_iff.mpr hne
  unfold tinyLayout
  split_ifs with htiny
  · obtain hcount | hcount | hcount : tags.length = 1 ∨ tags.length = 2 ∨ tags.length = 3 := by
      omega
    all_goals
      rw [hcount]
      exact ⟨hcount, by simp only [tinyKind, directoryBytes, List.length_map, hcount],
        fun hk => by cases hk⟩
  · exact h

theorem messageDirectoryLayout_ok {tags : List Nat} (h : TagsOk tags) :
    LayoutOk tags (messageDirectoryLayout tags) := by
  unfold messageDirectoryLayout
  cases hlast : tags.getLast? with
  | none =>
    obtain rfl := List.getLast?_eq_none_iff.mp hlast
    exact ⟨rfl, rfl, fun h => by cases h⟩
  | some maxTag =>
    have hne : tags ≠ [] := by
      rintro rfl
      cases hlast
    have hlen := length_blockEntries tags 0 (show 0 + 8 = 8 from rfl)
    rw [zero_popcount] at hlen
    simp only [layoutMask_eq]
    refine tinyLayout_ok hne (maskLayout_ok hne (le_getLast h.ascend hlast) ⟨hne, ?_, fun _ => rfl⟩)
    change 1 + 5 * popcount 32 (blockMask tags) = (directoryBytes .blocks tags).length
    rw [popcount_of_lt (by decide) (blockMask_lt h), directoryBytes, List.length_append,
      List.length_singleton]
    omega

theorem writeDirectory_wrote {tags : List Nat} (h : TagsOk tags) {layout : DirectoryLayout}
    (hlayout : LayoutOk tags layout) {writer : Writer}
    (hroom : writer.bytes.length + layout.size ≤ writer.capacity) :
    Wrote writer (directoryBytes layout.kind tags) (writeDirectory layout tags writer) := by
  obtain ⟨kind, size, top⟩ := layout
  obtain ⟨hfits, hsize, htop⟩ := hlayout
  dsimp only at hfits hsize htop hroom ⊢
  rw [hsize] at hroom
  cases kind with
  | empty => exact wrote_nil writer
  | tiny1 | tiny2 | tiny3 => exact store_wrote hroom
  | mask8 | mask16 | mask32 =>
    simp only [directoryBytes, length_leBytes] at hsize hroom
    have hmask : tagMask tags 0 = _ :=
      tagMask_eq (fun t ht => ⟨(h.range t ht).1, Nat.le_trans (hfits.2 t ht) (by decide)⟩) 0
    simp only [writeDirectory, hmask, ok_bind, hsize]
    exact wireStoreLe_wrote (by decide) hroom
  | blocks =>
    obtain rfl := htop rfl
    simp only [directoryBytes, List.length_append, List.length_singleton] at hroom ⊢
    simp only [writeDirectory]
    have hall := fromBlock_zero tags
    refine Wrote.bind ?_ fun w hb hc => store_wrote (by simp [hb, hc]; omega)
    have hentries : Wrote writer (blockEntries tags 8 0 0)
        (writeBlocks (blockMask tags) 8 0 0 (fromBlock 0 tags) writer) :=
      writeBlocks_wrote h rfl (by rw [hall, Nat.zero_add]) (by omega)
    rwa [hall] at hentries

/-! ## Checks -/

theorem tagsAscend_iff {previous : Nat} {tags : List Nat} :
    tagsAscend previous tags = true ↔ (previous :: tags).Pairwise (· < ·) := by
  induction tags generalizing previous with
  | nil => simp [tagsAscend]
  | cons tag rest ih =>
    rw [tagsAscend, ← List.isChain_iff_pairwise, List.isChain_cons_cons, List.isChain_iff_pairwise,
      ← ih]
    by_cases hle : tag ≤ previous
    · simp [hle]
    · simp [hle, Nat.not_le.mp hle]

theorem messageTagsValid_iff {tags : List Nat} :
    messageTagsValid tags = true ↔ (0 :: tags).Pairwise (· < ·) := by
  rw [← tagsAscend_iff]
  cases tags with
  | nil => rfl
  | cons tag rest => simp only [messageTagsValid, tagsAscend, Nat.le_zero_eq]

theorem offsetsValid_of {payloadSize : Nat} {previous : Option Nat} {offsets : List Nat}
    (hinside : ∀ o ∈ offsets, o ≤ payloadSize) (hascend : offsets.Pairwise (· ≤ ·))
    (hprevious : ∀ p ∈ previous, ∀ o ∈ offsets, p ≤ o) :
    offsetsValid payloadSize previous offsets = true := by
  induction offsets generalizing previous with
  | nil => rfl
  | cons offset rest ih =>
    obtain ⟨hhead, hrest⟩ := List.pairwise_cons.mp hascend
    have hin := hinside offset (List.mem_cons_self ..)
    have hgood : ¬(offset > payloadSize ∨ previous.any (offset < ·) = true) := by
      rintro (hbig | hback)
      · omega
      · cases previous with
        | none => cases hback
        | some p =>
          have := hprevious p rfl offset (List.mem_cons_self ..)
          have hlt : offset < p := by simpa using hback
          omega
    rw [offsetsValid, if_neg hgood]
    refine ih (fun o ho => hinside o (List.mem_cons_of_mem _ ho)) hrest ?_
    rintro p hp o ho
    obtain rfl := Option.some.inj hp
    exact hhead o ho

/-! ## Room -/

/-- Allocation succeeds, and so does holding `needed` bytes at once. -/
structure Room (alloc : Nat → Bool) (needed : Nat) : Prop where
  alloc : ∀ size, alloc size = true
  fits : needed ≤ sizeMax

theorem writerReserve_eq {alloc : Nat → Bool} {writer : Writer} {additional : Nat}
    (h : Room alloc (writer.bytes.length + additional)) :
    ∃ writer', writerReserve alloc writer additional = .ok writer' ∧
      writer'.bytes = writer.bytes ∧ writer'.bytes.length + additional ≤ writer'.capacity := by
  have hfits := h.fits
  have hcap := writer.fits
  unfold writerReserve
  by_cases henough : additional ≤ writer.capacity - writer.bytes.length
  · rw [if_pos henough]
    exact ⟨writer, rfl, rfl, by omega⟩
  · rw [if_neg henough, rejectIf_of_not (by omega), ok_bind]
    dsimp only
    rw [rejectIf_of_not (by rw [h.alloc]; decide), ok_bind]
    exact ⟨_, rfl, rfl, le_growSize _ _ _⟩

theorem writerReserve_ok {alloc : Nat → Bool} {writer writer' : Writer} {additional : Nat}
    (h : writerReserve alloc writer additional = .ok writer') :
    writer'.bytes = writer.bytes ∧ writer'.bytes.length + additional ≤ writer'.capacity := by
  have hcap := writer.fits
  unfold writerReserve at h
  by_cases henough : additional ≤ writer.capacity - writer.bytes.length
  · rw [if_pos henough] at h
    cases h
    exact ⟨rfl, by omega⟩
  · rw [if_neg henough] at h
    obtain ⟨_, -, h⟩ := bind_ok h
    obtain ⟨_, -, h⟩ := bind_ok h
    cases h
    exact ⟨rfl, le_growSize _ _ _⟩

theorem writerBeginLength_eq {alloc : Nat → Bool} {writer : Writer}
    (h : Room alloc (writer.bytes.length + 4)) :
    ∃ writer', writerBeginLength alloc writer = .ok (writer.bytes.length, writer') ∧
      writer'.bytes = writer.bytes ++ leBytes 4 0 := by
  obtain ⟨reserved, hreserve, hbytes, hroom⟩ := writerReserve_eq h
  have hwrote : Wrote reserved (leBytes 4 0) _ := store_wrote hroom
  obtain ⟨writer', hstore, hbytes', -⟩ := hwrote
  refine ⟨writer', ?_, by rw [hbytes', hbytes]⟩
  rw [writerBeginLength, writerWriteU32, writerWriteFixedBytes, length_leBytes, hreserve, ok_bind,
    hstore]
  rfl

theorem writerEndLength_eq {writer : Writer} {before slot after : List UInt8}
    (hbytes : writer.bytes = before ++ (slot ++ after)) (hslot : slot.length = 4)
    (length : Nat) :
    ∃ writer', writerEndLength writer before.length length = .ok writer' ∧
      writer'.bytes = before ++ (leBytes 4 length ++ after) := by
  have hlen := congrArg List.length hbytes
  rw [List.length_append, List.length_append, hslot] at hlen
  unfold writerEndLength
  rw [dif_neg (by simp only [writerLength]; omega)]
  refine ⟨_, rfl, ?_⟩
  dsimp only
  rw [hbytes, List.take_left, ← List.append_assoc before, ← hslot, ← List.length_append,
    List.drop_left, List.append_assoc]

/-! ## The whole message -/

def widthCode (payloadSize : Nat) : Nat :=
  if boundaryWidth payloadSize = 1 then 0 else if boundaryWidth payloadSize = 2 then 1 else 2

theorem boundaryWidth_eq (payloadSize : Nat) : boundaryWidth payloadSize = 2 ^ widthCode payloadSize := by
  unfold widthCode boundaryWidth
  split_ifs <;> first | rfl | omega

theorem widthCode_le (payloadSize : Nat) : widthCode payloadSize ≤ 2 := by
  unfold widthCode
  split_ifs <;> decide

theorem lt_of_boundaryWidth {payloadSize : Nat} (h : payloadSize ≤ uint32Max) :
    payloadSize < 256 ^ boundaryWidth payloadSize := by
  unfold uint32Max at h
  unfold boundaryWidth
  split_ifs <;> omega

theorem encodable_of_sliced {tags offsets : List Nat} {payload : List UInt8}
    (h : Sliced tags offsets payload.length)
    (hsize : payload.length + metadataSize payload.length tags ≤ uint32Max) :
    Encodable (messageDirectoryLayout tags).kind (widthCode payload.length) tags offsets payload ∧
      (encodeBody (messageDirectoryLayout tags).kind (widthCode payload.length) tags offsets
        payload).length = payload.length + metadataSize payload.length tags := by
  have hlayout := messageDirectoryLayout_ok h.tagsOk
  have hcount : (if tags.length = 0 then 0 else tags.length - 1) = tags.length - 1 := by
    split <;> omega
  have hbody : (encodeBody (messageDirectoryLayout tags).kind (widthCode payload.length) tags offsets
      payload).length = payload.length + metadataSize payload.length tags := by
    simp only [encodeBody, metadataSize, List.length_append, List.length_singleton,
      length_boundaryBytes, hcount, h.length, hlayout.size, boundaryWidth_eq]
    omega
  refine ⟨⟨h, hlayout.fits, widthCode_le _, fun o ho => ?_, ?_⟩, hbody⟩
  · rw [← boundaryWidth_eq]
    exact Nat.lt_of_le_of_lt (h.inside o ho) (lt_of_boundaryWidth (by omega))
  · rw [hbody]
    unfold uint32Max at hsize
    omega

theorem control_or {code width : Nat} (h : width ≤ 2) : code <<< 2 ||| width = code * 4 + width := by
  rw [← Nat.shiftLeft_add_eq_or_of_lt (by omega), Nat.shiftLeft_eq]

theorem writerEndIndexedMessage_reserved {alloc : Nat → Bool} {writer reserved : Writer}
    {before slot payload : List UInt8} {tags offsets : List Nat}
    (hbytes : writer.bytes = before ++ (slot ++ payload)) (hslot : slot.length = 4)
    (h : Sliced tags offsets payload.length)
    (hsize : payload.length + metadataSize payload.length tags ≤ uint32Max)
    (hfits : writer.bytes.length ≤ sizeMax)
    (hreserve : writerReserve alloc writer (metadataSize payload.length tags) = .ok reserved) :
    ∃ finished, writerEndIndexedMessage alloc writer before.length (before.length + 4)
        (tags.zip offsets) = .ok finished ∧
      finished.bytes = before ++ encode (messageDirectoryLayout tags).kind (widthCode payload.length)
        tags offsets payload := by
  have hlen := congrArg List.length hbytes
  rw [List.length_append, List.length_append, hslot] at hlen
  have hsize4 := wireSizeLen_eq
  have htags : (tags.zip offsets).map Prod.fst = tags :=
    List.map_fst_zip (Nat.le_of_eq h.length.symm)
  have hoffsets : (tags.zip offsets).map Prod.snd = offsets :=
    List.map_snd_zip (Nat.le_of_eq h.length)
  have hzip : (tags.zip offsets).length = tags.length := by
    rw [List.length_zip, h.length, Nat.min_self]
  have hcount : (if tags.length = 0 then 0 else tags.length - 1) = tags.length - 1 := by
    split <;> omega
  have hlayout := messageDirectoryLayout_ok h.tagsOk
  obtain ⟨hencodable, hbody⟩ := encodable_of_sliced h hsize
  have hvalid : messageTagsValid tags = true := messageTagsValid_iff.mpr
    (List.pairwise_cons.mpr ⟨fun t ht => (h.tagsOk.range t ht).1, h.tagsOk.ascend⟩)
  have hpay : writer.bytes.length - (before.length + 4) = payload.length := by omega
  have hfirst : offsets.head?.any (· ≠ 0) = false := by
    cases hhead : offsets.head? with
    | none => rfl
    | some o => simpa using h.first o (by rw [← List.head?_eq_getElem?]; exact hhead)
  have hascend : offsetsValid payload.length none offsets = true :=
    offsetsValid_of h.inside h.ascend fun p hp => by cases hp
  unfold writerEndIndexedMessage
  simp only [htags, hoffsets, hzip, writerLength, hpay]
  rw [rejectIf_of_not (by rw [hvalid]; decide), ok_bind, rejectIf_of_not (by omega), ok_bind,
    rejectIf_of_not (by omega), ok_bind,
    rejectIf_of_not (fun hbad => hbad.2 (h.empty (List.length_eq_zero_iff.mp hbad.1))), ok_bind,
    rejectIf_of_not (by rw [hfirst]; decide), ok_bind,
    rejectIf_of_not (by rw [hascend]; decide), ok_bind, rejectIf_of_not (by omega), ok_bind]
  obtain ⟨hreserved, hspace⟩ := writerReserve_ok hreserve
  simp only [metadataSize, hcount] at hspace
  have hwidth : boundaryWidth payload.length = 1 ∨ boundaryWidth payload.length = 2 ∨
      boundaryWidth payload.length = 4 := by
    unfold boundaryWidth
    split_ifs <;> decide
  have hwrote1 : Wrote reserved _ (writeBoundaries _ (offsets.drop 1) reserved) :=
    writeBoundaries_wrote hwidth (by rw [List.length_drop, h.length]; omega)
  obtain ⟨w1, hout1, hbytes1, hcap1⟩ := hwrote1
  have hdrop : ((offsets.drop 1).flatMap (leBytes (boundaryWidth payload.length))).length =
      (tags.length - 1) * boundaryWidth payload.length := by
    rw [← h.length]
    exact length_boundaryBytes _ _
  have hlen1 := congrArg List.length hbytes1
  rw [List.length_append, hdrop] at hlen1
  have hwrote2 : Wrote w1 _ _ := writeDirectory_wrote h.tagsOk hlayout (by omega)
  obtain ⟨w2, hout2, hbytes2, hcap2⟩ := hwrote2
  have hlen2 := congrArg List.length hbytes2
  rw [List.length_append, ← hlayout.size] at hlen2
  have hwrote3 : Wrote w2 [UInt8.ofNat ((messageDirectoryLayout tags).kind.code <<< 2 |||
      widthCode payload.length)] _ := store_wrote (by rw [List.length_singleton]; omega)
  obtain ⟨w3, hout3, hbytes3, -⟩ := hwrote3
  have hbytes : w3.bytes = before ++ (slot ++ encodeBody (messageDirectoryLayout tags).kind
      (widthCode payload.length) tags offsets payload) := by
    rw [hbytes3, hbytes2, hbytes1, hreserved, hbytes, control_or (widthCode_le _), encodeBody,
      boundaryBytes, ← boundaryWidth_eq]
    simp only [List.append_assoc]
  obtain ⟨finished, hfinish, hfinal⟩ := writerEndLength_eq hbytes hslot
    ((payload.length + metadataSize payload.length tags) % 2 ^ 32)
  refine ⟨finished, ?_, ?_⟩
  · rw [hreserve, ok_bind, hout1, ok_bind, hout2, ok_bind]
    change (do
      let output ← w2.store [UInt8.ofNat ((messageDirectoryLayout tags).kind.code <<< 2 |||
        widthCode payload.length)]
      writerEndLength output before.length
        ((payload.length + metadataSize payload.length tags) % 2 ^ 32)) = _
    rw [hout3, ok_bind, hfinish]
  · rw [hfinal, ← hbody, Nat.mod_eq_of_lt hencodable.size]
    rfl

theorem writerEndIndexedMessage_eq {alloc : Nat → Bool} {writer : Writer}
    {before slot payload : List UInt8} {tags offsets : List Nat}
    (hbytes : writer.bytes = before ++ (slot ++ payload)) (hslot : slot.length = 4)
    (h : Sliced tags offsets payload.length)
    (hsize : payload.length + metadataSize payload.length tags ≤ uint32Max)
    (hroom : Room alloc (writer.bytes.length + metadataSize payload.length tags)) :
    ∃ finished, writerEndIndexedMessage alloc writer before.length (before.length + 4)
        (tags.zip offsets) = .ok finished ∧
      finished.bytes = before ++ encode (messageDirectoryLayout tags).kind (widthCode payload.length)
        tags offsets payload := by
  obtain ⟨reserved, hreserve, -, -⟩ := writerReserve_eq hroom
  have hfits : writer.bytes.length ≤ sizeMax := Nat.le_trans (Nat.le_add_right ..) hroom.fits
  exact writerEndIndexedMessage_reserved hbytes hslot h hsize hfits hreserve

end Bebop.C
