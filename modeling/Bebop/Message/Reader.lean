import Bebop.Lib.Checked
import Bebop.Message.Sound

/-!
# Bebop — the rules of a reader

The readers of the repository are written in three languages and take the same steps. What
each step has to do to decode the format is stated here once, for any error a reader
raises and any numbers it computes with. A reader's own module shows that its loops take
these steps.
-/

namespace Bebop.Message

open Checked Bytes Bits

variable {ε α : Type}

/-- A decoder that may refuse, as a computation that raises `e` instead. -/
def orRaise (e : Stop ε) : Option α → Checked ε α
  | some a => .ok a
  | none => .error e

@[simp] theorem orRaise_some (e : Stop ε) (a : α) : orRaise e (some a) = .ok a := rfl

@[simp] theorem orRaise_none (e : Stop ε) : orRaise e (none : Option α) = .error e := rfl

theorem orRaise_accepts {e : Stop ε} {o : Option α} :
    (∃ a, orRaise e o = .ok a) ↔ o.isSome := by
  cases o <;> simp [orRaise]

theorem orRaise_total {err : ε} (o : Option α) :
    orRaise (.raised err) o ≠ .error .fault := by
  cases o <;> simp [orRaise]

theorem orRaise_map_eq_ok {β : Type} {e : Stop ε} {o : Option α} {f : α → β} {b : β}
    (h : orRaise e (o.map f) = .ok b) : ∃ a, o = some a ∧ b = f a := by
  cases o with
  | none => cases h
  | some a => exact ⟨a, rfl, (Except.ok.inj h).symm⟩

theorem control_fields {c : Nat} (hc : c < 256) :
    c &&& 3 = c % 4 ∧ (c >>> 2) &&& 7 = c / 4 % 8 ∧ (c &&& 0xe0 = 0 ↔ c < 32) := by
  refine ⟨Nat.and_two_pow_sub_one_eq_mod c 2, ?_, ?_⟩
  · rw [Nat.shiftRight_eq_div_pow]
    exact Nat.and_two_pow_sub_one_eq_mod _ 3
  · have hall : ∀ c < 256, (c &&& 0xe0 = 0 ↔ c < 32) := by decide +kernel
    exact hall c hc

/-! ## Block directories -/

def BlockBad (bs : List UInt8) (b entry r : Nat) : Prop :=
  byteAt bs entry ≠ r ∨ leAt bs (entry + 1) 4 = 0 ∨
    (b = 7 ∧ (leAt bs (entry + 1) 4).testBit 31 = true)

theorem blockTags_of_bad {bs : List UInt8} {top n b entry r : Nat} (hb : top.testBit b = true)
    (hbad : BlockBad bs b entry r) : blockTags bs top (n + 1) b entry r = none := by
  rw [blockTags, if_pos hb]
  exact if_pos hbad

theorem blockTags_of_good {bs : List UInt8} {top n b entry r : Nat} (hb : top.testBit b = true)
    (hgood : ¬BlockBad bs b entry r) :
    blockTags bs top (n + 1) b entry r =
      (blockTags bs top n (b + 1) (entry + 5) (r + popcount 32 (leAt bs (entry + 1) 4))).map
        ((bits 32 (leAt bs (entry + 1) 4)).map (· + (32 * b + 1)) ++ ·) := by
  rw [blockTags, if_pos hb]
  exact if_neg hgood

/-- A loop over the blocks that refuses bad entries and counts the tags of the others. `n`
blocks are left from `b`, the next entry is at `entry`, and `r` tags precede it. -/
structure BlockScan (e : Stop ε) (bs : List UInt8) (top : Nat) (result : Nat → α)
    (scan : (n b entry r : Nat) → Checked ε α) : Prop where
  done (b entry r : Nat) : scan 0 b entry r = .ok (result r)
  clear {n b entry r : Nat} : b < 8 → top.testBit b = false →
    scan (n + 1) b entry r = scan n (b + 1) entry r
  bad {n b entry r : Nat} : b < 8 → top.testBit b = true → entry + 5 ≤ bs.length →
    BlockBad bs b entry r → scan (n + 1) b entry r = .error e
  good {n b entry r : Nat} : b < 8 → top.testBit b = true → entry + 5 ≤ bs.length →
    ¬BlockBad bs b entry r →
    scan (n + 1) b entry r =
      scan n (b + 1) (entry + 5) (r + popcount 32 (leAt bs (entry + 1) 4))

theorem entry_room {top n b entry len : Nat} (hn : b + (n + 1) = 8) (hb : top.testBit b = true)
    (hroom : entry + 5 * (popcount 8 top - popcount b top) ≤ len) :
    entry + 5 ≤ len ∧ entry + 5 + 5 * (popcount 8 top - popcount (b + 1) top) ≤ len := by
  have hsucc := popcount_succ b top
  have hmono := popcount_mono (show b + 1 ≤ 8 by omega) top
  rw [hb, if_pos rfl] at hsucc
  omega

theorem BlockScan.eq {e : Stop ε} {bs : List UInt8} {top : Nat} {result : Nat → α}
    {scan : (n b entry r : Nat) → Checked ε α} (h : BlockScan e bs top result scan)
    (n b entry r : Nat) (hn : b + n = 8)
    (hroom : entry + 5 * (popcount 8 top - popcount b top) ≤ bs.length) :
    scan n b entry r =
      orRaise e ((blockTags bs top n b entry r).map fun tags => result (r + tags.length)) := by
  induction n generalizing b entry r with
  | zero => exact h.done b entry r
  | succ n ih =>
    have hlt : b < 8 := by omega
    cases hb : top.testBit b with
    | false =>
      have hsucc := popcount_succ b top
      rw [hb, if_neg (by decide), Nat.add_zero] at hsucc
      rw [h.clear hlt hb, blockTags_succ_clear hb, ih _ _ _ (by omega) (by rwa [hsucc])]
    | true =>
      obtain ⟨hentry, hrest⟩ := entry_room hn hb hroom
      by_cases hbad : BlockBad bs b entry r
      · rw [h.bad hlt hb hentry hbad, blockTags_of_bad hb hbad]
        rfl
      · rw [h.good hlt hb hentry hbad, blockTags_of_good hb hbad, ih _ _ _ (by omega) hrest,
          Option.map_map]
        congr 2
        funext tags
        rw [Function.comp_apply, List.length_append, List.length_map, popcount, Nat.add_assoc]

theorem blockTags_top_ne_nil {bs : List UInt8} {top dir : Nat} {tags : List Nat} (htop : top < 2 ^ 8)
    (hne : top ≠ 0) (h : blockTags bs top 8 0 dir 0 = some tags) : tags.length ≠ 0 := by
  obtain ⟨B, hB⟩ := Nat.exists_testBit_of_ne_zero hne
  have hlt : B < 8 := lt_of_testBit htop hB
  simpa using blockTags_ne_nil h (Nat.zero_le B) (by omega) hB

/-! ## Tiny directories -/

theorem tinyAscends_rule {e : Stop ε} {bs : List UInt8} {dir : Nat}
    {scan : (n i : Nat) → Checked ε Unit} (hdone : ∀ i, scan 0 i = .ok ())
    (hstep : ∀ n i, 0 < i → dir + i < bs.length → scan (n + 1) i =
      if byteAt bs (dir + i) ≤ byteAt bs (dir + i - 1) then .error e else scan n (i + 1))
    {n i : Nat} (hi : 0 < i) (hroom : dir + i + n ≤ bs.length) :
    scan n i =
      if ∀ j < n, byteAt bs (dir + i + j - 1) < byteAt bs (dir + i + j) then .ok ()
      else .error e := by
  induction n generalizing i with
  | zero => rw [hdone, if_pos fun j hj => absurd hj (Nat.not_lt_zero j)]
  | succ n ih =>
    rw [hstep n i hi (by omega)]
    by_cases hle : byteAt bs (dir + i) ≤ byteAt bs (dir + i - 1)
    · rw [if_pos hle, if_neg]
      intro hall
      have := hall 0 (by omega)
      rw [Nat.add_zero] at this
      omega
    · rw [if_neg hle, ih (by omega) (by omega)]
      congr 1
      rw [eq_iff_iff]
      constructor
      · intro hall j hj
        rcases j with _ | j
        · rw [Nat.add_zero]
          omega
        · have := hall j (by omega)
          rwa [show dir + (i + 1) + j = dir + i + (j + 1) by omega] at this
      · intro hall j hj
        have := hall (j + 1) (by omega)
        rwa [show dir + i + (j + 1) = dir + (i + 1) + j by omega] at this

theorem tinyScan_eq {e : Stop ε} {bs : List UInt8} {dir : Nat}
    (scan : (n i : Nat) → Checked ε Unit) (hdone : ∀ i, scan 0 i = .ok ())
    (hstep : ∀ n i, 0 < i → dir + i < bs.length → scan (n + 1) i =
      if byteAt bs (dir + i) ≤ byteAt bs (dir + i - 1) then .error e else scan n (i + 1))
    {n : Nat} (hn : 0 < n) (hroom : dir + n ≤ bs.length) :
    (if byteAt bs dir = 0 then .error e else scan (n - 1) 1) =
      orRaise e ((tinyTags bs dir n).map fun _ => ()) := by
  obtain ⟨m, rfl⟩ := Nat.exists_eq_add_of_lt hn
  rw [Nat.zero_add] at *
  have hshift : ∀ j, dir + 1 + j = dir + (j + 1) ∧ dir + (j + 1) - 1 = dir + j := by omega
  rw [Nat.add_sub_cancel, tinyAscends_rule hdone hstep (by omega) (by omega)]
  unfold tinyTags
  simp only [pairwise_cons_map_range, Nat.add_zero, hshift]
  by_cases hzero : byteAt bs dir = 0
  · rw [if_pos hzero, if_neg (by omega)]
    rfl
  · rw [if_neg hzero]
    by_cases hall : ∀ j < m, byteAt bs (dir + j) < byteAt bs (dir + (j + 1))
    · rw [if_pos hall, if_pos ⟨by omega, hall⟩]
      rfl
    · rw [if_neg hall, if_neg fun h => hall h.2]
      rfl

/-! ## Mask directories -/

theorem maskTags_cases (bs : List UInt8) (dir : Nat) {w : Nat} (hw : w ≤ 4) :
    (popcount 32 (leAt bs dir w) = 0 ∧ maskTags bs dir w = none) ∨
      ∃ tags, popcount 32 (leAt bs dir w) ≠ 0 ∧ maskTags bs dir w = some tags ∧
        tags.length = popcount 32 (leAt bs dir w) := by
  have hlt : leAt bs dir w < 2 ^ (8 * w) := by
    rw [Nat.pow_mul]
    exact leAt_lt bs dir w
  have hcount := popcount_of_lt (show 8 * w ≤ 32 by omega) hlt
  have hzero : popcount 32 (leAt bs dir w) = 0 ↔ leAt bs dir w = 0 := by
    rw [hcount, popcount_eq_zero hlt]
  cases htags : maskTags bs dir w with
  | none =>
    refine .inl ⟨hzero.mpr (by_contra fun h => ?_), rfl⟩
    simp [maskTags, h] at htags
  | some tags =>
    refine .inr ⟨tags, fun h => (maskTags_eq_some htags).1 (hzero.mp h), rfl, ?_⟩
    rw [maskTags_length htags, hcount]

/-! ## From the header to the boundaries -/

/-- The tags of a directory of the given kind, when there is room for one. -/
def locate (bs : List UInt8) (kind : DirectoryKind) : Option (List Nat) :=
  let size := directorySize kind (byteAt bs (bs.length - 2))
  if size + 1 ≤ bs.length - 4 then directoryTags bs kind (bs.length - 1 - size) else none

def located (bs : List UInt8) (kind : DirectoryKind) (tags : List Nat) : Decoded :=
  let size := directorySize kind (byteAt bs (bs.length - 2))
  let width := 2 ^ (control bs % 4)
  ⟨kind, width, bs.length - 1 - size, bs.length - 1 - size - (tags.length - 1) * width, tags⟩

section Locate

variable {bs : List UInt8} (kind : DirectoryKind)

theorem locate_of_room {n : Nat} (hn : directorySize kind (byteAt bs (bs.length - 2)) = n)
    (hroom : n + 1 ≤ bs.length - 4) :
    locate bs kind = directoryTags bs kind (bs.length - 1 - n) := by
  subst hn
  exact if_pos hroom

theorem locate_of_short {n : Nat} (hn : directorySize kind (byteAt bs (bs.length - 2)) = n)
    (hroom : ¬n + 1 ≤ bs.length - 4) : locate bs kind = none := by
  subst hn
  exact if_neg hroom

variable {kind}

theorem locate_eq_some {tags : List Nat} (h : locate bs kind = some tags) :
    directorySize kind (byteAt bs (bs.length - 2)) + 1 ≤ bs.length - 4 ∧
      directoryTags bs kind
        (bs.length - 1 - directorySize kind (byteAt bs (bs.length - 2))) = some tags := by
  by_cases hroom : directorySize kind (byteAt bs (bs.length - 2)) + 1 ≤ bs.length - 4
  · rw [locate_of_room kind rfl hroom] at h
    exact ⟨hroom, h⟩
  · rw [locate_of_short kind rfl hroom] at h
    cases h

theorem decodeDirectory_of_unlocated (hok : HeaderOk bs)
    (hkind : DirectoryKind.ofCode (control bs / 4) = some kind) (h : locate bs kind = none) :
    decodeDirectory bs = none := by
  by_cases hroom : directorySize kind (byteAt bs (bs.length - 2)) + 1 ≤ bs.length - 4
  · rw [locate_of_room kind rfl hroom] at h
    exact decodeDirectory_of_no_tags hok hkind h
  · exact decodeDirectory_of_short hok hkind hroom

theorem decodeDirectory_of_located {tags : List Nat} (hok : HeaderOk bs)
    (hkind : DirectoryKind.ofCode (control bs / 4) = some kind) (h : locate bs kind = some tags) :
    decodeDirectory bs =
      if (tags.length - 1) * 2 ^ (control bs % 4) +
          directorySize kind (byteAt bs (bs.length - 2)) + 1 ≤ bs.length - 4 ∧
          (tags = [] → bs.length = 5) then
        some (located bs kind tags)
      else none := by
  obtain ⟨hroom, htags⟩ := locate_eq_some h
  exact decodeDirectory_of_tags hok hkind hroom htags

end Locate

/-! ## Boundaries -/

section Boundaries

variable {e : Stop ε} {bs : List UInt8} {d : Decoded} (scan : (n i previous : Nat) → Checked ε Unit)

theorem boundaryScan_eq (hdone : ∀ i previous, scan 0 i previous = .ok ())
    (hstep : ∀ n i previous, i + 1 < d.tags.length → scan (n + 1) i previous =
      if d.boundary bs i < previous ∨ d.boundary bs i > d.payloadSize then .error e
      else scan n (i + 1) (d.boundary bs i))
    {n i : Nat} (hn : i + n + 1 ≤ d.tags.length) (previous : Nat) :
    scan n i previous = if d.Ascends bs n i previous then .ok () else .error e := by
  induction n generalizing i previous with
  | zero =>
    rw [hdone]
    rfl
  | succ n ih =>
    rw [hstep n i previous (by omega)]
    by_cases hbad : d.boundary bs i < previous ∨ d.boundary bs i > d.payloadSize
    · rw [if_pos hbad, if_neg]
      rintro ⟨hgood, -⟩
      omega
    · have hgood : previous ≤ d.boundary bs i ∧ d.boundary bs i ≤ d.payloadSize := by omega
      rw [if_neg hbad, ih (by omega)]
      by_cases hrest : d.Ascends bs n (i + 1) (d.boundary bs i)
      · rw [if_pos hrest, if_pos ⟨hgood, hrest⟩]
      · rw [if_neg hrest, if_neg fun hall => hrest hall.2]

theorem readBoundaries_eq {kind : DirectoryKind} {tags : List Nat} (hok : HeaderOk bs)
    (hkind : DirectoryKind.ofCode (control bs / 4) = some kind) (h : locate bs kind = some tags)
    (hd : d = located bs kind tags) (result : Decoded → α)
    (hdone : ∀ i previous, scan 0 i previous = .ok ())
    (hstep : d.Sound bs → ∀ n i previous, i + 1 < d.tags.length → scan (n + 1) i previous =
      if d.boundary bs i < previous ∨ d.boundary bs i > d.payloadSize then .error e
      else scan n (i + 1) (d.boundary bs i)) :
    (if (d.tags.length - 1) * d.width + d.size bs + 1 > bs.length - 4 then .error e
      else do
        scan (d.tags.length - 1) 0 0
        if d.tags.length = 0 ∧ d.boundaries ≠ 4 then .error e else .ok (result d)) =
      orRaise e ((decode bs).map result) := by
  have hdecode := decodeDirectory_of_located hok hkind h
  have hlen := hok.1
  have hroom := (locate_eq_some h).1
  have hdw : d.width = 2 ^ (control bs % 4) := by rw [hd]; rfl
  have hds : d.size bs = directorySize kind (byteAt bs (bs.length - 2)) := by rw [hd]; rfl
  have hdt : d.tags = tags := by rw [hd]; rfl
  rw [← hd, ← hdw, ← hds, ← hdt] at hdecode
  rw [← hds] at hroom
  unfold decode
  rw [hdecode]
  by_cases hfit : (d.tags.length - 1) * d.width + d.size bs + 1 ≤ bs.length - 4
  swap
  · rw [if_pos (by omega), if_neg fun hall => hfit hall.1]
    rfl
  rw [if_neg (by omega)]
  by_cases hnil : d.tags = []
  · -- without tags the payload has to be empty
    have hbound : d.boundaries = bs.length - 1 - d.size bs := by
      rw [hd] at hnil ⊢
      have hzero : tags.length - 1 = 0 := by
        change tags = [] at hnil
        rw [hnil]
        rfl
      change _ - (tags.length - 1) * _ = _
      rw [hzero, Nat.zero_mul]
      rfl
    have hsize : d.size bs = 0 := by
      obtain rfl : kind = .empty := (directoryTags_eq_nil (locate_eq_some h).2).mp (hdt ▸ hnil)
      rw [hds]
      rfl
    have hall : d.BoundariesOk bs := fun r hr => by simp [hnil] at hr
    have hscan : scan (d.tags.length - 1) 0 0 = .ok () := by
      rw [hnil]
      exact hdone 0 0
    rw [hscan, ok_bind]
    by_cases hempty : bs.length = 5
    · rw [if_neg fun hp => hp.2 (by omega), if_pos ⟨hfit, fun _ => hempty⟩, Option.filter_some,
        if_pos (by simpa using hall)]
      rfl
    · rw [if_pos ⟨by rw [hnil]; rfl, by omega⟩, if_neg fun hp => hempty (hp.2 hnil)]
      rfl
  · have hpos := List.length_pos_iff.mpr hnil
    have hfits : (d.tags.length - 1) * d.width + d.size bs + 1 ≤ bs.length - 4 ∧
        (d.tags = [] → bs.length = 5) := ⟨hfit, fun h => absurd h hnil⟩
    rw [if_pos hfits] at hdecode
    have hsound := decodeDirectory_eq_some.mp hdecode
    rw [if_pos hfits, Option.filter_some, boundaryScan_eq scan hdone (hstep hsound) (by omega)]
    by_cases hasc : d.BoundariesOk bs
    · rw [if_pos ((Decoded.boundariesOk_iff hnil).mpr hasc), ok_bind, if_neg (by omega),
        if_pos (by simpa using hasc)]
      rfl
    · rw [if_neg fun hall => hasc ((Decoded.boundariesOk_iff hnil).mp hall), error_bind,
        if_neg (by simpa using hasc)]
      rfl

end Boundaries

/-! ## Ranks -/

section Ranks

variable {bs : List UInt8} {d : Decoded}

theorem tagSearch_rule {tag : Nat} {search : (n r : Nat) → Checked ε (Option α)}
    {result : Nat → α} (hp : d.tags.Pairwise (· < ·)) (hdone : ∀ r, search 0 r = .ok none)
    (hstep : ∀ n r (hr : r < d.tags.length), search (n + 1) r =
      if d.tags[r] = tag then .ok (some (result r))
      else if d.tags[r] > tag then .ok none
      else search n (r + 1))
    {n r : Nat} (hn : r + n = d.tags.length)
    (hlow : ∀ (j : Nat) (hj : j < d.tags.length), j < r → d.tags[j] < tag) :
    search n r = .ok ((d.rank? tag).map result) := by
  induction n generalizing r with
  | zero =>
    have hnot : tag ∉ d.tags := by
      intro hmem
      obtain ⟨j, hj, hjt⟩ := List.getElem_of_mem hmem
      have := hlow j hj (by omega)
      omega
    rw [hdone, Decoded.rank?, if_neg hnot]
    rfl
  | succ n ih =>
    have hr : r < d.tags.length := by omega
    rw [hstep n r hr]
    by_cases heq : d.tags[r] = tag
    · have hrank := d.rank?_getElem hp hr
      rw [heq] at hrank
      rw [if_pos heq, hrank]
      rfl
    rw [if_neg heq]
    by_cases hgt : d.tags[r] > tag
    · -- the tags from here on are too high
      have hnot : tag ∉ d.tags := by
        intro hmem
        obtain ⟨j, hj, hjt⟩ := List.getElem_of_mem hmem
        rcases Nat.lt_trichotomy j r with hjr | rfl | hjr
        · have := hlow j hj hjr
          omega
        · omega
        · have := List.pairwise_iff_getElem.mp hp r j hr hj hjr
          omega
      rw [if_pos hgt, Decoded.rank?, if_neg hnot]
      rfl
    · rw [if_neg hgt, ih (by omega)]
      intro j hj hjr
      rcases Nat.eq_or_lt_of_le (Nat.lt_succ_iff.mp hjr) with rfl | hlt
      · omega
      · exact hlow j hj hlt

theorem tagSearch_eq (tag : Nat) (search : (n r : Nat) → Checked ε (Option α))
    (result : Nat → α) (hp : d.tags.Pairwise (· < ·)) (hdone : ∀ r, search 0 r = .ok none)
    (hstep : ∀ n r (hr : r < d.tags.length), search (n + 1) r =
      if d.tags[r] = tag then .ok (some (result r))
      else if d.tags[r] > tag then .ok none
      else search n (r + 1)) :
    search d.tags.length 0 = .ok ((d.rank? tag).map result) :=
  tagSearch_rule hp hdone hstep (Nat.zero_add _) fun j _ hlow => absurd hlow (Nat.not_lt_zero j)

theorem rank?_mask {w : Nat} (htags : maskTags bs d.directory w = some d.tags) (i : Nat) :
    d.rank? (i + 1) =
      if i < 8 * w ∧ (leAt bs d.directory w).testBit i = true then
        some (popcount i (leAt bs d.directory w))
      else none := by
  unfold Decoded.rank?
  by_cases h : i < 8 * w ∧ (leAt bs d.directory w).testBit i = true
  · rw [if_pos h, if_pos ((mem_maskTags htags).mpr h), rank_maskTags htags (by omega)]
  · rw [if_neg h, if_neg fun hmem => h ((mem_maskTags htags).mp hmem)]

theorem rank?_blocks {top : Nat} (htags : blockTags bs top 8 0 d.directory 0 = some d.tags)
    {B i : Nat} (hB : B < 8) (hi : i < 32) :
    d.rank? (i + (32 * B + 1)) =
      if top.testBit B = true ∧
          (leAt bs (d.directory + 5 * popcount B top + 1) 4).testBit i = true then
        some (byteAt bs (d.directory + 5 * popcount B top) +
          popcount i (leAt bs (d.directory + 5 * popcount B top + 1) 4))
      else none := by
  have hentry : blockEntry top 0 d.directory B = d.directory + 5 * popcount B top := by
    rw [blockEntry, zero_popcount, Nat.sub_zero]
  have hmem := mem_blockTags rfl htags (Nat.zero_le B) hB hi
  have hrank := rank_blockTags rfl htags (Nat.zero_le B) hB hi
  rw [hentry] at hmem hrank
  unfold Decoded.rank?
  by_cases h : top.testBit B = true ∧
      (leAt bs (d.directory + 5 * popcount B top + 1) 4).testBit i = true
  · have hsum := hrank h.1
    rw [Nat.zero_add] at hsum
    rw [if_pos h, if_pos (hmem.mpr h), hsum]
  · rw [if_neg h, if_neg fun hin => h (hmem.mp hin)]

theorem blockEntry_room {top len dir B : Nat} (hB : B < 8) (hpresent : top.testBit B = true)
    (hroom : dir + 5 * popcount 8 top ≤ len) : dir + 5 * popcount B top + 5 ≤ len := by
  have hsucc := popcount_succ B top
  have hmono := popcount_mono (show B + 1 ≤ 8 from hB) top
  rw [hpresent, if_pos rfl] at hsucc
  omega

theorem tag_block_bit {tag : Nat} (htag : 1 ≤ tag ∧ tag ≤ 255) :
    ∃ B i, B < 8 ∧ i < 32 ∧ tag = i + (32 * B + 1) :=
  ⟨(tag - 1) / 32, (tag - 1) % 32, by omega, by omega, by omega⟩

end Ranks

end Bebop.Message
