import Bebop.Lib.Swar
import Bebop.Lib.Bytes

/-!
# Bebop — the groups of a C map

A map of `bebop_wire.c` has a control byte for each slot: `EMPTY`, `DELETED`, or the low
seven bits of the hash of its key. A lookup reads the control bytes of a group of eight as
one word, the byte of the first slot at its low end. `mapMatchH2` may find more slots than
it should, but no slot without a key (`mapMatchH2_full`).
-/

namespace Bebop.C

open Bytes Bits

/-! ## Control bytes -/

def mapGroupSize : Nat := 8

def ctrlEmpty : Nat := 0x80

def ctrlDeleted : Nat := 0xFE

/-- `CTRL_IS_FULL` -/
def CtrlIsFull (c : Nat) : Prop := c < 0x80

def IsCtrl (c : Nat) : Prop := c = ctrlEmpty ∨ c = ctrlDeleted ∨ CtrlIsFull c

/-- The control bytes of a group, the first slot at the low end. -/
structure CtrlWord where
  word : BitVec 64
  control : ∀ i < mapGroupSize, IsCtrl (byte word i)

variable (ctrlWord : BitVec 64)

/-- `bebop__map_match_h2` -/
def mapMatchH2 (h2 : BitVec 7) : BitVec 64 :=
  let broadcast := 0x0101010101010101#64 * h2.setWidth 64
  let diff := ctrlWord ^^^ broadcast
  (diff - 0x0101010101010101#64) &&& ~~~diff &&& 0x8080808080808080#64

/-- `bebop__map_match_empty` -/
def mapMatchEmpty : BitVec 64 :=
  ctrlWord &&& ~~~(ctrlWord <<< 1) &&& 0x8080808080808080#64

/-- `bebop__map_match_empty_or_deleted` -/
def mapMatchEmptyOrDeleted : BitVec 64 := ctrlWord &&& 0x8080808080808080#64

variable (found : BitVec 64)

/-- `bebop__map_match_first`, with `__builtin_ctzll`. -/
def mapMatchFirst : Nat := if found = 0 then mapGroupSize else found.ctz.toNat / 8

/-- `bebop__map_clear_match` -/
def mapClearMatch (offset : Nat) : BitVec 64 :=
  let shift := (offset + 1) * 8
  if shift < 64 then found &&& ~~~((1#64 <<< shift) - 1) else 0

def Flagged (i : Nat) : Prop := found.getLsbD (8 * i + 7) = true

instance (found : BitVec 64) (i : Nat) : Decidable (Flagged found i) := inferInstanceAs (Decidable (_ = true))

def IsMatch : Prop := ∀ j, found.getLsbD j = true → j % 8 = 7

/-! ## The loops -/

/-- The offsets that `bebop__map_match_first` gives, each of which is cleared. -/
def matchOffsets : Nat → BitVec 64 → Option (List Nat)
  | 0, _ => none
  | fuel + 1, found =>
    if found = 0 then some []
    else do
      let offset := mapMatchFirst found
      return offset :: (← matchOffsets fuel (mapClearMatch found offset))

/-- The matches of a group: the slots whose keys are compared, and the one found. -/
def scanGroup (next : BitVec 64 → Nat → BitVec 64) (eq : Nat → Bool) (groupStart : Nat) :
    Nat → BitVec 64 → Option (List Nat × Option Nat)
  | 0, _ => none
  | fuel + 1, found =>
    if found = 0 then some ([], none)
    else
      let offset := mapMatchFirst found
      let idx := groupStart + offset
      if eq idx then some ([idx], some idx)
      else do
        let (compared, slot) ← scanGroup next eq groupStart fuel (next found offset)
        return (idx :: compared, slot)

/-- How `bebop_map_get` goes on: `match &= match - 1` before the match is cleared. -/
def mapGetNext (offset : Nat) : BitVec 64 := mapClearMatch (found &&& (found - 1)) offset

/-- The control bytes of a map, the extra group at the end included. -/
structure MapCtrl where
  ctrl : List UInt8
  capacity : Nat
  control : ∀ i < ctrl.length, IsCtrl (byteAt ctrl i)
  room : capacity + mapGroupSize ≤ ctrl.length

/-- `bebop__map_probe_offset` -/
def mapProbeOffset (i : Nat) : Nat := i * (i + 1) / 2

/-- The first slot of the group of a probe; a group starts at a multiple of eight. -/
def mapGroupStart (mask start probe : Nat) : Nat :=
  let groupStart := (start + mapProbeOffset probe) &&& mask
  groupStart - groupStart % mapGroupSize

/-- The loop over the groups: it ends with the key, or with a group that has an empty slot. -/
def probeGroups (next : BitVec 64 → Nat → BitVec 64) (m : MapCtrl) (h2 : BitVec 7) (start : Nat) (eq : Nat → Bool) :
    Nat → Nat → Option (List Nat × Option Nat)
  | 0, _ => some ([], none)
  | remaining + 1, probe => do
    let groupStart := mapGroupStart (m.capacity - 1) start probe
    let ctrlWord := BitVec.ofNat 64 (leAt m.ctrl groupStart mapGroupSize)
    let (compared, slot) ← scanGroup next eq groupStart (mapGroupSize + 1) (mapMatchH2 ctrlWord h2)
    if slot.isSome || mapMatchEmpty ctrlWord ≠ 0 then return (compared, slot)
    let (more, slot) ← probeGroups next m h2 start eq remaining (probe + 1)
    return (compared ++ more, slot)

/-- The search in a map that is not empty; `eq` compares the key of a slot. -/
def mapSearch (next : BitVec 64 → Nat → BitVec 64) (m : MapCtrl) (hash : BitVec 64) (eq : Nat → Bool) :
    Option (List Nat × Option Nat) :=
  let h2 := hash.setWidth 7
  let start := (hash.toNat >>> 7) &&& (m.capacity - 1)
  probeGroups next m h2 start eq (m.capacity / mapGroupSize + 2) 0

/-- `bebop_map_get` -/
def mapGet : MapCtrl → BitVec 64 → (Nat → Bool) → Option (List Nat × Option Nat) := mapSearch mapGetNext

/-- The search of `bebop_map_set`, after the map has grown. -/
def mapSetSearch : MapCtrl → BitVec 64 → (Nat → Bool) → Option (List Nat × Option Nat) := mapSearch mapClearMatch

/-- The search of `bebop_map_remove`. -/
def mapRemoveSearch : MapCtrl → BitVec 64 → (Nat → Bool) → Option (List Nat × Option Nat) :=
  mapSearch mapClearMatch

/-! ## What is flagged -/

theorem isMatch_and_highBits (w : BitVec 64) : IsMatch (w &&& 0x8080808080808080#64) := by
  intro j hj
  rw [BitVec.getLsbD_and, Bool.and_eq_true] at hj
  exact ((getLsbD_highBits j).mp hj.2).2

theorem flagged_and_highBits (w : BitVec 64) {i : Nat} (hi : i < mapGroupSize) :
    Flagged (w &&& 0x8080808080808080#64) i ↔ w.getLsbD (8 * i + 7) = true := by
  have hmask : 8 * i + 7 < 64 ∧ (8 * i + 7) % 8 = 7 := by
    unfold mapGroupSize at hi
    omega
  rw [Flagged, BitVec.getLsbD_and, Bool.and_eq_true, getLsbD_highBits]
  exact and_iff_left hmask

theorem byte_broadcast (h2 : BitVec 7) {i : Nat} (hi : i < mapGroupSize) :
    byte (0x0101010101010101#64 * h2.setWidth 64) i = h2.toNat := by
  have hlt := h2.isLt
  have hwide : (h2.setWidth 64).toNat = h2.toNat := by
    rw [BitVec.toNat_setWidth]
    exact Nat.mod_eq_of_lt (by omega)
  have hproduct : (0x0101010101010101#64 * h2.setWidth 64).toNat = repeatByte h2.toNat 8 := by
    have hones : repeatByte 1 8 * h2.toNat = repeatByte h2.toNat 8 := by rw [repeatByte_mul, Nat.one_mul]
    rw [← hones, BitVec.toNat_mul, hwide]
    exact Nat.mod_eq_of_lt (show 0x0101010101010101 * h2.toNat < 2 ^ 64 by omega)
  unfold byte
  rw [hproduct]
  exact repeatByte_div_mod (by omega) hi

theorem mapMatchH2_eq (h2 : BitVec 7) :
    mapMatchH2 ctrlWord h2 = zeroBytes (ctrlWord ^^^ 0x0101010101010101#64 * h2.setWidth 64) := rfl

theorem mapMatchH2_of_eq {ctrlWord : BitVec 64} {h2 : BitVec 7} {i : Nat} (hi : i < mapGroupSize)
    (h : byte ctrlWord i = h2.toNat) : Flagged (mapMatchH2 ctrlWord h2) i := by
  rw [Flagged, mapMatchH2_eq, zeroBytes_iff _ hi]
  left
  rw [byte_xor, byte_broadcast h2 hi, h, Nat.xor_self]

theorem mapMatchH2_full {ctrlWord : BitVec 64} {h2 : BitVec 7} {i : Nat} (hi : i < mapGroupSize)
    (h : Flagged (mapMatchH2 ctrlWord h2) i) : CtrlIsFull (byte ctrlWord i) := by
  rw [Flagged, mapMatchH2_eq, zeroBytes_iff _ hi, byte_xor, byte_broadcast h2 hi] at h
  have hdiff : byte ctrlWord i ^^^ h2.toNat < 2 ^ 7 := by
    rcases h with h | ⟨h, -⟩
    · omega
    · omega
  have hback : (byte ctrlWord i ^^^ h2.toNat) ^^^ h2.toNat = byte ctrlWord i := Nat.xor_xor_cancel_right _ _
  have hfull := Nat.xor_lt_two_pow hdiff h2.isLt
  rw [hback] at hfull
  exact hfull

theorem mapMatchEmpty_iff (ctrlWord : CtrlWord) {i : Nat} (hi : i < mapGroupSize) :
    Flagged (mapMatchEmpty ctrlWord.word) i ↔ byte ctrlWord.word i = ctrlEmpty := by
  have hlt : 8 * i + 7 < 64 := by
    unfold mapGroupSize at hi
    omega
  have hshift : (ctrlWord.word <<< 1).getLsbD (8 * i + 7) = (byte ctrlWord.word i).testBit 6 := by
    rw [BitVec.getLsbD_shiftLeft, testBit_byte _ _ (by decide), decide_eq_true hlt]
    simp
  rw [mapMatchEmpty, flagged_and_highBits _ hi, BitVec.getLsbD_and, BitVec.getLsbD_not, decide_eq_true hlt, hshift,
    ← testBit_byte _ _ (by decide)]
  rcases ctrlWord.control i hi with hempty | hdeleted | hfull
  · rw [hempty]
    decide
  · rw [hdeleted]
    decide
  · have hclear : (byte ctrlWord.word i).testBit 7 = false := Nat.testBit_lt_two_pow hfull
    have hne : byte ctrlWord.word i ≠ ctrlEmpty := by
      unfold CtrlIsFull at hfull
      unfold ctrlEmpty
      omega
    rw [hclear, Bool.false_and]
    exact iff_of_false Bool.false_ne_true hne

theorem mapMatchEmptyOrDeleted_iff {i : Nat} (hi : i < mapGroupSize) :
    Flagged (mapMatchEmptyOrDeleted ctrlWord) i ↔ ¬CtrlIsFull (byte ctrlWord i) := by
  rw [mapMatchEmptyOrDeleted, flagged_and_highBits _ hi, getLsbD_high, decide_eq_true_eq, CtrlIsFull, Nat.not_lt]

/-! ## One flag after the other -/

theorem mapMatchFirst_spec {found : BitVec 64} (h : IsMatch found) (hne : found ≠ 0) :
    found.ctz.toNat = 8 * mapMatchFirst found + 7 ∧ mapMatchFirst found < mapGroupSize ∧
      Flagged found (mapMatchFirst found) ∧ ∀ i < mapMatchFirst found, ¬Flagged found i := by
  have hbit := BitVec.getLsbD_true_ctz_of_ne_zero hne
  have hlt : found.ctz.toNat < 64 := BitVec.lt_of_getLsbD hbit
  have hmod := h _ hbit
  have hfirst : mapMatchFirst found = found.ctz.toNat / 8 := if_neg hne
  have hctz : found.ctz.toNat = 8 * mapMatchFirst found + 7 := by omega
  refine ⟨hctz, by unfold mapGroupSize; omega, ?_, ?_⟩
  · rw [Flagged, ← hctz]
    exact hbit
  · intro i hi hflagged
    have hclear := BitVec.getLsbD_false_of_lt_ctz (x := found) (i := 8 * i + 7) (by omega)
    exact Bool.false_ne_true (hclear.symm.trans hflagged)

theorem getLsbD_ones_below {shift j : Nat} (h : shift < 64) :
    ((1#64 <<< shift) - 1).getLsbD j = decide (j < shift) := by
  have hpow : 2 ^ shift < 2 ^ 64 := Nat.pow_lt_pow_right (by decide) h
  have hpos : 0 < 2 ^ shift := Nat.two_pow_pos shift
  have hshift : (1#64 <<< shift).toNat = 2 ^ shift := by
    have hone : (1#64).toNat = 1 := rfl
    rw [BitVec.toNat_shiftLeft, Nat.shiftLeft_eq, hone, Nat.one_mul]
    exact Nat.mod_eq_of_lt hpow
  have hones : ((1#64 <<< shift) - 1).toNat = 2 ^ shift - 1 := by
    rw [BitVec.toNat_sub_of_le, hshift]
    · rfl
    · rw [BitVec.le_def, hshift]
      exact hpos
  rw [BitVec.getLsbD, hones, Nat.testBit_two_pow_sub_one]

theorem getLsbD_mapClearMatch (offset j : Nat) :
    (mapClearMatch found offset).getLsbD j = (found.getLsbD j && decide ((offset + 1) * 8 ≤ j)) := by
  unfold mapClearMatch
  dsimp only
  split
  · rename_i hshift
    rw [BitVec.getLsbD_and, BitVec.getLsbD_not, getLsbD_ones_below hshift]
    by_cases hj : j < 64
    · by_cases hle : (offset + 1) * 8 ≤ j
      · simp [hj, hle, Nat.not_lt.mpr hle]
      · simp [hle, Nat.lt_of_not_le hle]
    · rw [BitVec.getLsbD_of_ge _ _ (Nat.le_of_not_lt hj), Bool.false_and, Bool.false_and]
  · rename_i hshift
    by_cases hj : j < 64
    · rw [decide_eq_false (by omega), Bool.and_false]
      exact BitVec.getLsbD_zero
    · rw [BitVec.getLsbD_of_ge _ _ (Nat.le_of_not_lt hj), BitVec.getLsbD_of_ge _ _ (Nat.le_of_not_lt hj),
        Bool.false_and]

theorem flagged_mapClearMatch {found : BitVec 64} {offset i : Nat} :
    Flagged (mapClearMatch found offset) i ↔ Flagged found i ∧ offset < i := by
  rw [Flagged, getLsbD_mapClearMatch, Bool.and_eq_true, decide_eq_true_eq]
  refine and_congr_right fun _ => ?_
  omega

theorem IsMatch.clear {found : BitVec 64} (h : IsMatch found) (offset : Nat) :
    IsMatch (mapClearMatch found offset) := by
  intro j hj
  rw [getLsbD_mapClearMatch, Bool.and_eq_true] at hj
  exact h j hj.1

theorem mapGetNext_eq {found : BitVec 64} (h : IsMatch found) (hne : found ≠ 0) :
    mapGetNext found (mapMatchFirst found) = mapClearMatch found (mapMatchFirst found) := by
  obtain ⟨hctz, -, -, -⟩ := mapMatchFirst_spec h hne
  apply BitVec.eq_of_getLsbD_eq
  intro j hj
  rw [mapGetNext, getLsbD_mapClearMatch, getLsbD_mapClearMatch, BitVec.getLsbD_and]
  by_cases hle : (mapMatchFirst found + 1) * 8 ≤ j
  · -- the bits above the lowest one are those of the word
    have hbit := BitVec.getLsbD_true_ctz_of_ne_zero hne
    rw [hctz] at hbit
    obtain ⟨k, rfl⟩ := Nat.exists_eq_add_of_le hle
    have hpos : found.toNat % 2 ^ ((mapMatchFirst found + 1) * 8) ≠ 0 := by
      intro hzero
      have hclear := Nat.testBit_mod_two_pow found.toNat ((mapMatchFirst found + 1) * 8) (8 * mapMatchFirst found + 7)
      rw [hzero, Nat.zero_testBit, decide_eq_true (by omega), Bool.true_and] at hclear
      exact Bool.false_ne_true (hclear.trans hbit)
    have hpred : (found - 1).toNat = found.toNat - 1 := by
      refine BitVec.toNat_sub_of_le ?_
      rw [BitVec.le_def]
      refine Nat.one_le_iff_ne_zero.mpr fun hzero => hne (BitVec.eq_of_toNat_eq hzero)
    have hdiv : (found.toNat - 1) / 2 ^ ((mapMatchFirst found + 1) * 8) =
        found.toNat / 2 ^ ((mapMatchFirst found + 1) * 8) := by
      have hsum := Nat.div_add_mod found.toNat (2 ^ ((mapMatchFirst found + 1) * 8))
      have hlt := Nat.mod_lt found.toNat (Nat.two_pow_pos ((mapMatchFirst found + 1) * 8))
      refine Nat.div_eq_of_lt_le ?_ ?_
      · rw [Nat.mul_comm]
        omega
      · rw [Nat.succ_mul, Nat.mul_comm]
        omega
    have hsame : (found - 1).getLsbD ((mapMatchFirst found + 1) * 8 + k) =
        found.getLsbD ((mapMatchFirst found + 1) * 8 + k) := by
      rw [BitVec.getLsbD, BitVec.getLsbD, hpred, Nat.add_comm, ← Nat.testBit_div_two_pow, ← Nat.testBit_div_two_pow, hdiv]
    rw [hsame, Bool.and_self]
  · rw [decide_eq_false hle, Bool.and_false, Bool.and_false]

/-- The offsets are those of the flags, from the first to the last. -/
structure Visits (found : BitVec 64) (offsets : List Nat) : Prop where
  increasing : offsets.Pairwise (· < ·)
  mem_iff : ∀ i, i ∈ offsets ↔ i < mapGroupSize ∧ Flagged found i

theorem Visits.cons {found : BitVec 64} {offsets : List Nat} (h : IsMatch found) (hne : found ≠ 0)
    (hrest : Visits (mapClearMatch found (mapMatchFirst found)) offsets) :
    Visits found (mapMatchFirst found :: offsets) := by
  obtain ⟨-, hlt, hflagged, hbelow⟩ := mapMatchFirst_spec h hne
  refine ⟨List.pairwise_cons.mpr ⟨?_, hrest.increasing⟩, ?_⟩
  · intro i hi
    exact (flagged_mapClearMatch.mp ((hrest.mem_iff i).mp hi).2).2
  · intro i
    rw [List.mem_cons, hrest.mem_iff, flagged_mapClearMatch]
    constructor
    · rintro (rfl | ⟨hi, hfl, -⟩)
      · exact ⟨hlt, hflagged⟩
      · exact ⟨hi, hfl⟩
    · rintro ⟨hi, hfl⟩
      rcases Nat.lt_trichotomy i (mapMatchFirst found) with hless | hsame | hmore
      · exact absurd hfl (hbelow i hless)
      · exact .inl hsame
      · exact .inr ⟨hi, hfl, hmore⟩

theorem matchOffsets_visits (fuel : Nat) {k : Nat} {found : BitVec 64} (h : IsMatch found) (hbelow : ∀ i < k, ¬Flagged found i)
    (hend : k ≤ mapGroupSize) (hfuel : mapGroupSize < fuel + k) : ∃ offsets, matchOffsets fuel found = some offsets ∧ Visits found offsets := by
  induction fuel generalizing k found with
  | zero => omega
  | succ fuel ih =>
    by_cases hzero : found = 0
    · subst hzero
      refine ⟨[], if_pos rfl, List.Pairwise.nil, ?_⟩
      intro i
      simp [Flagged]
    · obtain ⟨-, hlt, hflagged, -⟩ := mapMatchFirst_spec h hzero
      have hk : k ≤ mapMatchFirst found := by
        by_contra hcon
        exact hbelow _ (Nat.lt_of_not_le hcon) hflagged
      have hclear : ∀ i < mapMatchFirst found + 1, ¬Flagged (mapClearMatch found (mapMatchFirst found)) i := by
        intro i hi hfl
        have hbehind := (flagged_mapClearMatch.mp hfl).2
        omega
      obtain ⟨offsets, hoffsets, hvisits⟩ := ih (h.clear _) hclear hlt (by omega)
      refine ⟨mapMatchFirst found :: offsets, ?_, hvisits.cons h hzero⟩
      unfold matchOffsets
      dsimp only
      rw [if_neg hzero, hoffsets]
      rfl

/-- What a lookup may do to go on with the next match. -/
def ClearsFirst (next : BitVec 64 → Nat → BitVec 64) : Prop :=
  ∀ found, IsMatch found → found ≠ 0 → next found (mapMatchFirst found) = mapClearMatch found (mapMatchFirst found)

theorem clearsFirst_mapGetNext : ClearsFirst mapGetNext := fun _ => mapGetNext_eq

theorem clearsFirst_mapClearMatch : ClearsFirst mapClearMatch := fun _ _ _ => rfl

theorem scanGroup_eq {next : BitVec 64 → Nat → BitVec 64} (hnext : ClearsFirst next) (eq : Nat → Bool)
    (groupStart : Nat) {fuel : Nat} {found : BitVec 64} {offsets : List Nat} (h : IsMatch found)
    (hoffsets : matchOffsets fuel found = some offsets) :
    ∃ compared, scanGroup next eq groupStart fuel found =
        some (compared, (offsets.map (groupStart + ·)).find? eq) ∧ compared <+: offsets.map (groupStart + ·) := by
  induction fuel generalizing found offsets with
  | zero => exact absurd hoffsets (by simp [matchOffsets])
  | succ fuel ih =>
    unfold matchOffsets at hoffsets
    unfold scanGroup
    dsimp only at hoffsets ⊢
    by_cases hzero : found = 0
    · rw [if_pos hzero] at hoffsets ⊢
      obtain rfl := Option.some.inj hoffsets
      exact ⟨[], rfl, List.nil_prefix⟩
    · rw [if_neg hzero] at hoffsets ⊢
      obtain ⟨rest, hrest, hsome⟩ := Option.bind_eq_some_iff.mp hoffsets
      obtain rfl := Option.some.inj hsome
      rw [List.map_cons]
      by_cases heq : eq (groupStart + mapMatchFirst found) = true
      · rw [if_pos heq, List.find?_cons_of_pos heq]
        exact ⟨[groupStart + mapMatchFirst found], rfl, List.prefix_append [_] _⟩
      · obtain ⟨compared, hscan, hprefix⟩ := ih (h.clear _) hrest
        rw [if_neg heq, List.find?_cons_of_neg heq, hnext found h hzero, hscan]
        exact ⟨_, rfl, (List.prefix_cons_inj _).mpr hprefix⟩

/-! ## The keys a lookup compares -/

theorem byte_leAt {ctrl : List UInt8} {start : Nat} (hstart : start + mapGroupSize ≤ ctrl.length) {i : Nat}
    (hi : i < mapGroupSize) : byte (BitVec.ofNat 64 (leAt ctrl start mapGroupSize)) i = byteAt ctrl (start + i) := by
  have hword : (BitVec.ofNat 64 (leAt ctrl start mapGroupSize)).toNat = leAt ctrl start mapGroupSize := by
    rw [BitVec.toNat_ofNat]
    exact Nat.mod_eq_of_lt (leAt_lt ctrl start mapGroupSize)
  unfold byte
  rw [hword]
  clear hword
  -- each byte is the lowest one of what is read from its place on
  generalize mapGroupSize = n at *
  induction n generalizing start i with
  | zero => omega
  | succ n ih =>
    have hlt := byteAt_lt ctrl start
    rw [leAt_succ (by omega)]
    cases i with
    | zero =>
      rw [Nat.pow_zero, Nat.div_one, Nat.add_mul_mod_self_left, Nat.add_zero]
      exact Nat.mod_eq_of_lt hlt
    | succ i =>
      rw [Nat.pow_succ', ← Nat.div_div_eq_div_mul, Nat.add_mul_div_left _ _ (by decide), Nat.div_eq_of_lt hlt,
        Nat.zero_add, ih (by omega) (by omega)]
      congr 1
      omega

theorem isMatch_mapMatchH2 (h2 : BitVec 7) : IsMatch (mapMatchH2 ctrlWord h2) :=
  isMatch_and_highBits _

def MapCtrl.group (m : MapCtrl) (start : Nat) (h : start + mapGroupSize ≤ m.ctrl.length) : CtrlWord where
  word := BitVec.ofNat 64 (leAt m.ctrl start mapGroupSize)
  control := by
    intro i hi
    rw [byte_leAt h hi]
    exact m.control (start + i) (by omega)

theorem mapGroupStart_le (m : MapCtrl) (start probe : Nat) :
    mapGroupStart (m.capacity - 1) start probe + mapGroupSize ≤ m.ctrl.length := by
  have hmask : (start + mapProbeOffset probe) &&& (m.capacity - 1) ≤ m.capacity - 1 := Nat.and_le_right
  have hroom := m.room
  unfold mapGroupStart
  dsimp only
  omega

theorem probeGroups_full {next : BitVec 64 → Nat → BitVec 64} (hnext : ClearsFirst next) (m : MapCtrl) (h2 : BitVec 7)
    (start : Nat) (eq : Nat → Bool) (remaining probe : Nat) :
    ∃ compared slot, probeGroups next m h2 start eq remaining probe = some (compared, slot) ∧
      ∀ idx ∈ compared, CtrlIsFull (byteAt m.ctrl idx) := by
  induction remaining generalizing probe with
  | zero => exact ⟨[], none, rfl, by simp⟩
  | succ remaining ih =>
    have hroom := mapGroupStart_le m start probe
    unfold probeGroups
    dsimp only
    generalize mapGroupStart (m.capacity - 1) start probe = groupStart at *
    obtain ⟨offsets, hoffsets, hvisits⟩ := matchOffsets_visits (mapGroupSize + 1) (k := 0)
      (isMatch_mapMatchH2 (m.group groupStart hroom).word h2) (by omega) (by omega) (by omega)
    obtain ⟨compared, hscan, hfirst⟩ := scanGroup_eq hnext eq groupStart (isMatch_mapMatchH2 _ h2) hoffsets
    have hfull : ∀ idx ∈ compared, CtrlIsFull (byteAt m.ctrl idx) := by
      intro idx hidx
      obtain ⟨i, hi, rfl⟩ := List.mem_map.mp (hfirst.subset hidx)
      obtain ⟨hlt, hflagged⟩ := (hvisits.mem_iff i).mp hi
      rw [← byte_leAt hroom hlt]
      exact mapMatchH2_full hlt hflagged
    rw [show scanGroup next eq groupStart (mapGroupSize + 1)
      (mapMatchH2 (BitVec.ofNat 64 (leAt m.ctrl groupStart mapGroupSize)) h2) = _ from hscan]
    obtain ⟨more, slot, hmore, hmorefull⟩ := ih (probe + 1)
    rw [hmore]
    dsimp only [bind, Option.bind]
    split
    · exact ⟨_, _, rfl, hfull⟩
    · refine ⟨_, _, rfl, ?_⟩
      intro idx hidx
      rcases List.mem_append.mp hidx with hidx | hidx
      · exact hfull idx hidx
      · exact hmorefull idx hidx

/-- Searches compare only keys that are there, and the loop visits each flag once. -/
theorem map_matching : (∀ (ctrlWord : CtrlWord) (h2 : BitVec 7),
      (∀ i < mapGroupSize,
        (byte ctrlWord.word i = h2.toNat → Flagged (mapMatchH2 ctrlWord.word h2) i) ∧
        (Flagged (mapMatchH2 ctrlWord.word h2) i → CtrlIsFull (byte ctrlWord.word i)) ∧
        (Flagged (mapMatchEmpty ctrlWord.word) i ↔ byte ctrlWord.word i = ctrlEmpty) ∧
        (Flagged (mapMatchEmptyOrDeleted ctrlWord.word) i ↔ ¬CtrlIsFull (byte ctrlWord.word i))) ∧
      ∀ found ∈ [mapMatchH2 ctrlWord.word h2, mapMatchEmpty ctrlWord.word, mapMatchEmptyOrDeleted ctrlWord.word],
        IsMatch found ∧ ∃ offsets, matchOffsets (mapGroupSize + 1) found = some offsets ∧ Visits found offsets) ∧
    ∀ (m : MapCtrl) (hash : BitVec 64) (eq : Nat → Bool), ∀ search ∈ [mapGet, mapSetSearch, mapRemoveSearch],
      ∃ compared slot, search m hash eq = some (compared, slot) ∧ ∀ idx ∈ compared, CtrlIsFull (byteAt m.ctrl idx) := by
  refine ⟨?_, ?_⟩
  · intro ctrlWord h2
    refine ⟨?_, ?_⟩
    · intro i hi
      exact ⟨mapMatchH2_of_eq hi, mapMatchH2_full hi, mapMatchEmpty_iff ctrlWord hi, mapMatchEmptyOrDeleted_iff _ hi⟩
    · intro found hfound
      have hmatch : IsMatch found := by
        -- each of the three masks the high bits
        simp only [List.mem_cons, List.not_mem_nil, or_false] at hfound
        rcases hfound with rfl | rfl | rfl
        · exact isMatch_mapMatchH2 _ _
        · exact isMatch_and_highBits _
        · exact isMatch_and_highBits _
      exact ⟨hmatch, matchOffsets_visits _ (k := 0) hmatch (by omega) (by omega) (by omega)⟩
  · intro m hash eq search hsearch
    simp only [List.mem_cons, List.not_mem_nil, or_false] at hsearch
    rcases hsearch with rfl | rfl | rfl
    · exact probeGroups_full clearsFirst_mapGetNext m _ _ eq _ _
    · exact probeGroups_full clearsFirst_mapClearMatch m _ _ eq _ _
    · exact probeGroups_full clearsFirst_mapClearMatch m _ _ eq _ _

/-! ## The multiply of the key hash -/

/-- `bebop__wymum` with `__uint128_t`: what it leaves in `*a` and in `*b`. -/
def wymumWide (a b : BitVec 64) : BitVec 64 × BitVec 64 :=
  let r : BitVec 128 := a.setWidth 128 * b.setWidth 128
  (r.setWidth 64, (r >>> 64).setWidth 64)

/-- The fallback of `bebop__wymum`. -/
def wymum (a b : BitVec 64) : BitVec 64 × BitVec 64 :=
  let ha := a >>> 32
  let la := (a.setWidth 32).setWidth 64
  let hb := b >>> 32
  let lb := (b.setWidth 32).setWidth 64
  let rh := ha * hb
  let rl := la * lb
  let rm0 := ha * lb
  let rm1 := hb * la
  let t := rl + (rm0 <<< 32)
  let c : BitVec 64 := if t < rl then 1 else 0
  let lo := t + (rm1 <<< 32)
  let c := c + (if lo < t then 1 else 0)
  let hi := rh + (rm0 >>> 32) + (rm1 >>> 32) + c
  (lo, hi)

theorem toNat_carry (x y : BitVec 64) :
    (if x + y < x then (1 : BitVec 64) else 0).toNat = (x.toNat + y.toNat) / 2 ^ 64 := by
  have hx := x.isLt
  have hy := y.isLt
  have hsum : (x + y).toNat = (x.toNat + y.toNat) % 2 ^ 64 := BitVec.toNat_add x y
  by_cases hcarry : x.toNat + y.toNat < 2 ^ 64
  · have hnot : ¬x + y < x := by
      rw [BitVec.lt_def]
      omega
    rw [if_neg hnot, Nat.div_eq_of_lt hcarry]
    rfl
  · have hlt : x + y < x := by
      rw [BitVec.lt_def]
      omega
    rw [if_pos hlt]
    show 1 = _
    omega

theorem toNat_mul_halves {x y : BitVec 64} (hx : x.toNat < 2 ^ 32) (hy : y.toNat < 2 ^ 32) :
    (x * y).toNat = x.toNat * y.toNat ∧ x.toNat * y.toNat ≤ (2 ^ 32 - 1) * (2 ^ 32 - 1) := by
  have hle : x.toNat * y.toNat ≤ (2 ^ 32 - 1) * (2 ^ 32 - 1) := Nat.mul_le_mul (by omega) (by omega)
  refine ⟨?_, hle⟩
  rw [BitVec.toNat_mul]
  exact Nat.mod_eq_of_lt (by omega)

theorem wymum_value (a b : BitVec 64) :
    (wymum a b).1.toNat + 2 ^ 64 * (wymum a b).2.toNat = a.toNat * b.toNat := by
  have hha : (a >>> 32).toNat = a.toNat / 2 ^ 32 := by
    rw [BitVec.toNat_ushiftRight, Nat.shiftRight_eq_div_pow]
  have hhb : (b >>> 32).toNat = b.toNat / 2 ^ 32 := by
    rw [BitVec.toNat_ushiftRight, Nat.shiftRight_eq_div_pow]
  have hla : ((a.setWidth 32).setWidth 64).toNat = a.toNat % 2 ^ 32 := by
    rw [BitVec.toNat_setWidth_of_le (by decide), BitVec.toNat_setWidth]
  have hlb : ((b.setWidth 32).setWidth 64).toNat = b.toNat % 2 ^ 32 := by
    rw [BitVec.toNat_setWidth_of_le (by decide), BitVec.toNat_setWidth]
  have ha := a.isLt
  have hb := b.isLt
  obtain ⟨hrh, hrhle⟩ := toNat_mul_halves (x := a >>> 32) (y := b >>> 32) (by omega) (by omega)
  obtain ⟨hrl, hrlle⟩ := toNat_mul_halves (x := (a.setWidth 32).setWidth 64) (y := (b.setWidth 32).setWidth 64) (by omega) (by omega)
  obtain ⟨hrm0, hrm0le⟩ := toNat_mul_halves (x := a >>> 32) (y := (b.setWidth 32).setWidth 64) (by omega) (by omega)
  obtain ⟨hrm1, hrm1le⟩ := toNat_mul_halves (x := b >>> 32) (y := (a.setWidth 32).setWidth 64) (by omega) (by omega)
  have hproduct : a.toNat * b.toNat = 2 ^ 64 * ((a >>> 32).toNat * (b >>> 32).toNat) +
      2 ^ 32 * ((a >>> 32).toNat * ((b.setWidth 32).setWidth 64).toNat + (b >>> 32).toNat * ((a.setWidth 32).setWidth 64).toNat) +
      ((a.setWidth 32).setWidth 64).toNat * ((b.setWidth 32).setWidth 64).toNat := by
    rw [hha, hhb, hla, hlb]
    conv_lhs => rw [← Nat.div_add_mod a.toNat (2 ^ 32), ← Nat.div_add_mod b.toNat (2 ^ 32)]
    ring
  have hlt : a.toNat * b.toNat < 2 ^ 64 * 2 ^ 64 := Nat.mul_lt_mul'' ha hb
  rw [← hrh, ← hrl, ← hrm0, ← hrm1] at hproduct
  rw [← hrh] at hrhle
  rw [← hrl] at hrlle
  rw [← hrm0] at hrm0le
  rw [← hrm1] at hrm1le
  unfold wymum
  dsimp only
  generalize a >>> 32 * b >>> 32 = rh at *
  generalize (a.setWidth 32).setWidth 64 * (b.setWidth 32).setWidth 64 = rl at *
  generalize a >>> 32 * (b.setWidth 32).setWidth 64 = rm0 at *
  generalize b >>> 32 * (a.setWidth 32).setWidth 64 = rm1 at *
  clear hha hhb hla hlb hrh hrl hrm0 hrm1
  -- what the additions drop is what the comparisons count
  have hcarry := toNat_carry rl (rm0 <<< 32)
  have hcarry' := toNat_carry (rl + rm0 <<< 32) (rm1 <<< 32)
  simp only [BitVec.toNat_add, BitVec.toNat_ushiftRight, BitVec.toNat_shiftLeft, Nat.shiftRight_eq_div_pow,
    Nat.shiftLeft_eq] at hcarry hcarry' ⊢
  omega

theorem wymumWide_value (a b : BitVec 64) : (wymumWide a b).1.toNat = a.toNat * b.toNat % 2 ^ 64 ∧
    (wymumWide a b).2.toNat = a.toNat * b.toNat / 2 ^ 64 := by
  have ha := a.isLt
  have hb := b.isLt
  have hlt : a.toNat * b.toNat < 2 ^ 64 * 2 ^ 64 := Nat.mul_lt_mul'' ha hb
  unfold wymumWide
  simp only [BitVec.toNat_setWidth, BitVec.toNat_ushiftRight, BitVec.toNat_mul, Nat.shiftRight_eq_div_pow]
  rw [Nat.mod_eq_of_lt (show a.toNat < 2 ^ 128 by omega), Nat.mod_eq_of_lt (show b.toNat < 2 ^ 128 by omega),
    Nat.mod_eq_of_lt (show a.toNat * b.toNat < 2 ^ 128 by omega)]
  exact ⟨rfl, Nat.mod_eq_of_lt (by omega)⟩

/-- The fallback computes the product of the compilers with a 128-bit type. -/
theorem wymum_exact : wymum = wymumWide ∧ ∀ a b : BitVec 64,
    (wymum a b).1.toNat = a.toNat * b.toNat % 2 ^ 64 ∧ (wymum a b).2.toNat = a.toNat * b.toNat / 2 ^ 64 := by
  have hwords : ∀ a b : BitVec 64, (wymum a b).1.toNat = a.toNat * b.toNat % 2 ^ 64 ∧
      (wymum a b).2.toNat = a.toNat * b.toNat / 2 ^ 64 := by
    intro a b
    have hvalue := wymum_value a b
    have hlow := (wymum a b).1.isLt
    omega
  refine ⟨?_, hwords⟩
  funext a b
  obtain ⟨hlow, hhigh⟩ := hwords a b
  obtain ⟨hlow', hhigh'⟩ := wymumWide_value a b
  exact Prod.ext (BitVec.eq_of_toNat_eq (hlow.trans hlow'.symm)) (BitVec.eq_of_toNat_eq (hhigh.trans hhigh'.symm))

end Bebop.C
