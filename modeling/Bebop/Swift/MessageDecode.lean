import Bebop.Message.Reader
import Bebop.Swift.MessageIndex

/-!
# Bebop — the Swift reader decodes the format

`parseMessageIndex` accepts exactly what `Message.decode` does
(`parseMessageIndex_eq`), and none of its reads, subtractions and ranges traps.
-/

namespace Bebop.Swift

open Checked Bytes Bits Message

/-! ## Loads -/

theorem loadUnaligned_eq {bs : List UInt8} {i n : Nat} (h : i + n ≤ bs.length) :
    loadUnaligned bs i n = .ok (leAt bs i n) := by
  induction n generalizing i with
  | zero =>
    rw [leAt_zero]
    rfl
  | succ n ih =>
    have hrest : loadUnaligned bs ((i : Int) + 1) n = .ok (leAt bs (i + 1) n) :=
      ih (i := i + 1) (by omega)
    rw [loadUnaligned, readAt_natCast (by omega), ok_bind, hrest, ok_bind, leAt_succ (by omega)]
    rfl

theorem loadLittleEndian_eq {bs : List UInt8} {i w : Nat} (hw : w = 1 ∨ w = 2 ∨ w = 4)
    (h : i + w ≤ bs.length) : loadLittleEndian bs i w = .ok (leAt bs i w) := by
  rcases hw with rfl | rfl | rfl
  · rw [leAt_succ (by omega), leAt_zero]
    exact readAt_natCast (by omega)
  · exact loadUnaligned_eq h
  · exact loadUnaligned_eq h

theorem rangeCount_natCast {n : Int} (lower : Nat) {upper : Nat} (hn : (upper : Int) = n)
    (h : lower ≤ upper) : rangeCount lower n = .ok (upper - lower) := by
  subst hn
  rw [rangeCount, if_pos (by omega)]
  congr 1
  omega

/-! ## Header -/

theorem readAt_control {bs : List UInt8} (hlen : 5 ≤ bs.length) :
    (readAt bs ((bs.length : Int) - 1) : Attempt Nat) = .ok (control bs) := by
  rw [show (bs.length : Int) - 1 = ((bs.length - 1 : Nat) : Int) by omega]
  exact readAt_natCast (by omega)

theorem parseHeader_of_ok {bs : List UInt8} (h : HeaderOk bs) {kind : DirectoryKind}
    (hkind : DirectoryKind.ofCode (control bs / 4) = some kind) :
    parseHeader bs = .ok (((bs.length - 4 : Nat) : Int), ((2 ^ (control bs % 4) : Nat) : Int),
      kind) := by
  obtain ⟨hlen, hbody, hlow, hwidth⟩ := h
  obtain ⟨h3, h7, he0⟩ := control_fields (byteAt_lt bs (bs.length - 1))
  rw [← Message.control] at h3 h7 he0
  have hcode : control bs / 4 % 8 = control bs / 4 := Nat.mod_eq_of_lt (by omega)
  have hload : loadLittleEndian bs 0 4 = .ok (leAt bs 0 4) :=
    loadLittleEndian_eq (i := 0) (w := 4) (by decide) (by omega)
  have hgood : ¬¬(control bs &&& 0xe0 = 0 ∧ control bs % 4 ≠ 3) := by
    rw [not_not, he0]
    exact ⟨hlow, hwidth⟩
  unfold parseHeader
  rw [rejectIf_of_not (by omega), ok_bind, hload, ok_bind, rejectIf_of_not (by omega), ok_bind,
    readAt_control hlen, ok_bind]
  dsimp only
  rw [h3, h7, hcode, rejectIf_of_not hgood, ok_bind, hkind, Nat.one_shiftLeft, hbody]
  rfl

theorem parseHeader_of_not {bs : List UInt8} (h : ¬HeaderOk bs) :
    parseHeader bs = .error malformedMessage := by
  obtain ⟨h3, h7, he0⟩ := control_fields (byteAt_lt bs (bs.length - 1))
  rw [← Message.control] at h3 h7 he0
  unfold parseHeader
  by_cases hlen : ¬(bs.length : Int) ≥ 5
  · rw [rejectIf_of hlen, error_bind]
  have hload : loadLittleEndian bs 0 4 = .ok (leAt bs 0 4) :=
    loadLittleEndian_eq (i := 0) (w := 4) (by decide) (by omega)
  rw [rejectIf_of_not hlen, ok_bind, hload, ok_bind]
  by_cases hbody : ¬((leAt bs 0 4 : Int) = (bs.length : Int) - 4 ∧ (leAt bs 0 4 : Int) > 0)
  · rw [rejectIf_of hbody, error_bind]
  rw [rejectIf_of_not hbody, ok_bind, readAt_control (by omega), ok_bind]
  dsimp only
  rw [h3]
  have hbad : ¬(control bs &&& 0xe0 = 0 ∧ control bs % 4 ≠ 3) := by
    rw [he0]
    exact fun hgood => h ⟨by omega, by omega, hgood.1, hgood.2⟩
  rw [rejectIf_of hbad, error_bind]

/-! ## Directory -/

theorem maskBad_iff {b m : Nat} :
    ¬(m ≠ 0 ∧ (b ≠ 7 ∨ m &&& 0x80000000 = 0)) ↔ (m = 0 ∨ (b = 7 ∧ m.testBit 31 = true)) := by
  have hsign : m &&& 0x80000000 = 0 ↔ m.testBit 31 = false := and_one_shiftLeft_eq_zero (i := 31)
  rw [hsign, not_and_or, not_not, not_or, not_not, Bool.not_eq_false]

theorem parseBlocks_scan (bs : List UInt8) (top : Nat) :
    BlockScan malformedMessage bs top (fun r => (r : Int))
      (fun n b entry r => parseBlocks bs top n b entry r) where
  done b entry r := rfl
  clear {n b entry r} _ hbit := by
    rw [parseBlocks, if_neg (not_not.mpr (and_one_shiftLeft_eq_zero.mpr hbit))]
  bad {n b entry r} _ hbit hroom hbad := by
    have hset : top &&& (1 <<< b) ≠ 0 := by
      rw [Ne, and_one_shiftLeft_eq_zero, hbit]
      decide
    have hload : loadLittleEndian bs ((entry : Int) + 1) 4 = .ok (leAt bs (entry + 1) 4) :=
      loadLittleEndian_eq (i := entry + 1) (w := 4) (by decide) (by omega)
    rw [parseBlocks, if_pos hset, readAt_natCast (by omega), ok_bind]
    rcases hbad with hrank | hmask
    · rw [rejectIf_of (by omega), error_bind]
    · rw [rejectIf_bind, hload, ok_bind, rejectIf_of (maskBad_iff.mpr hmask), error_bind, ite_self]
  good {n b entry r} _ hbit hroom hgood := by
    have hset : top &&& (1 <<< b) ≠ 0 := by
      rw [Ne, and_one_shiftLeft_eq_zero, hbit]
      decide
    have hload : loadLittleEndian bs ((entry : Int) + 1) 4 = .ok (leAt bs (entry + 1) 4) :=
      loadLittleEndian_eq (i := entry + 1) (w := 4) (by decide) (by omega)
    rw [BlockBad, not_or] at hgood
    rw [parseBlocks, if_pos hset, readAt_natCast (by omega), ok_bind, rejectIf_of_not (by omega),
      ok_bind, hload, ok_bind, rejectIf_of_not (mt maskBad_iff.mp hgood.2), ok_bind]
    rfl

theorem tinyValid_eq {bs : List UInt8} {dir n : Nat} (hn : 0 < n) (hroom : dir + n ≤ bs.length) :
    tinyValid bs dir n = orRaise malformedMessage ((tinyTags bs dir n).map fun _ => ()) := by
  have hcount : rangeCount 1 n = .ok (n - 1) := rangeCount_natCast 1 rfl hn
  rw [tinyValid, readAt_natCast (by omega), ok_bind, rejectIf_bind, hcount]
  simp only [not_not, ok_bind]
  apply tinyScan_eq (fun n i => tinyAscends bs dir n i) (fun _ => rfl) _ hn hroom
  intro n i hi hdir
  have htag : (readAt bs ((dir : Int) + i) : Attempt Nat) = .ok (byteAt bs (dir + i)) :=
    readAt_natCast (i := dir + i) hdir
  have hbefore : (readAt bs ((dir : Int) + i - 1) : Attempt Nat) = .ok (byteAt bs (dir + i - 1)) := by
    rw [show (dir : Int) + i - 1 = ((dir + i - 1 : Nat) : Int) by omega]
    exact readAt_natCast (by omega)
  rw [tinyAscends, htag, ok_bind, hbefore, ok_bind, rejectIf_bind]
  rfl

/-- The field count a tiny kind announces by its code. -/
def tinyCount : DirectoryKind → Nat
  | .tiny1 => 1
  | .tiny2 => 2
  | .tiny3 => 3
  | _ => 0

theorem readAt_blockMask {bs : List UInt8} (hlen : 5 ≤ bs.length) :
    (readAt bs ((bs.length : Int) - 2) : Attempt Nat) = .ok (byteAt bs (bs.length - 2)) := by
  rw [show (bs.length : Int) - 2 = ((bs.length - 2 : Nat) : Int) by omega]
  exact readAt_natCast (by omega)

theorem directoryShape_eq {bs : List UInt8} (hlen : 5 ≤ bs.length) (kind : DirectoryKind) :
    directoryShape bs ((bs.length - 4 : Nat) : Int) kind =
      if kind = .blocks ∧ bs.length - 4 < 2 then .error malformedMessage
      else .ok ((directorySize kind (byteAt bs (bs.length - 2)) : Int), (tinyCount kind : Int)) := by
  cases kind with
  | blocks =>
    rw [directoryShape, readAt_blockMask hlen, rejectIf_bind, ok_bind]
    by_cases hbody : bs.length - 4 < 2
    · rw [if_pos (by omega), if_pos ⟨rfl, hbody⟩]
    · rw [if_neg (by omega), if_neg fun h => hbody h.2, directorySize]
      rfl
  | _ => rfl

section Fields

variable {bs : List UInt8} {n : Nat} {kind : DirectoryKind} (hroom : n + 1 ≤ bs.length - 4)

def finishDirectory (bs : List UInt8) (kind : DirectoryKind) (n : Nat) (fieldCount : Int) :
    Attempt (Int × Int × Int) := do
  rejectIf malformedMessage (¬(fieldCount = 0 ↔ kind = .empty))
  (if kind = .tiny1 ∨ kind = .tiny2 ∨ kind = .tiny3 then
    tinyValid bs ((bs.length - 1 - n : Nat) : Int) fieldCount else return ())
  return (((bs.length - 1 - n : Nat) : Int), (n : Int), fieldCount)

theorem finishDirectory_of_wide {count : Nat} (hcount : count ≠ 0) (hempty : kind ≠ .empty)
    (hwide : ¬(kind = .tiny1 ∨ kind = .tiny2 ∨ kind = .tiny3)) :
    finishDirectory bs kind n count =
      .ok (((bs.length - 1 - n : Nat) : Int), (n : Int), (count : Int)) := by
  unfold finishDirectory
  rw [rejectIf_of_not (by simp [hcount, hempty]), ok_bind, if_neg hwide]
  rfl

include hroom

theorem tinyFields_eq (hn : 0 < n) (hempty : kind ≠ .empty)
    (htiny : kind = .tiny1 ∨ kind = .tiny2 ∨ kind = .tiny3) :
    finishDirectory bs kind n n =
      orRaise malformedMessage ((tinyTags bs (bs.length - 1 - n) n).map fun tags =>
        (((bs.length - 1 - n : Nat) : Int), (n : Int), (tags.length : Int))) := by
  have hpos : n ≠ 0 := by omega
  unfold finishDirectory
  rw [rejectIf_of_not (by simp [hpos, hempty]), ok_bind, if_pos htiny, tinyValid_eq hn (by omega)]
  cases htags : tinyTags bs (bs.length - 1 - n) n with
  | none => rfl
  | some tags =>
    rw [Option.map_some, Option.map_some, tinyTags_length htags]
    rfl

theorem maskFields_eq (hn : n = 1 ∨ n = 2 ∨ n = 4) (hempty : kind ≠ .empty)
    (hwide : ¬(kind = .tiny1 ∨ kind = .tiny2 ∨ kind = .tiny3)) :
    (do
      let mask ← loadLittleEndian bs ((bs.length - 1 - n : Nat) : Int) n
      finishDirectory bs kind n (popcount 32 mask : Nat)) =
      orRaise malformedMessage ((maskTags bs (bs.length - 1 - n) n).map fun tags =>
        (((bs.length - 1 - n : Nat) : Int), (n : Int), (tags.length : Int))) := by
  rw [loadLittleEndian_eq hn (by omega), ok_bind]
  rcases maskTags_cases bs (bs.length - 1 - n) (show n ≤ 4 by omega) with
    ⟨hzero, hnone⟩ | ⟨tags, hpos, hsome, hcount⟩
  · unfold finishDirectory
    rw [hzero, rejectIf_of (by simp [hempty]), error_bind, hnone]
    rfl
  · rw [finishDirectory_of_wide hpos hempty hwide, hsome, Option.map_some, hcount]
    rfl

theorem blockFields_eq (hlen : 5 ≤ bs.length) (hpos : 0 < n)
    (hn : n = 1 + 5 * popcount 8 (byteAt bs (bs.length - 2))) :
    (do
      let blockMask ← readAt bs (((bs.length - 1 - n : Nat) : Int) + n - 1)
      rejectIf malformedMessage (¬blockMask ≠ 0)
      let fieldCount ← parseBlocks bs blockMask 8 0 ((bs.length - 1 - n : Nat) : Int) 0
      finishDirectory bs .blocks n fieldCount) =
      orRaise malformedMessage ((directoryTags bs .blocks (bs.length - 1 - n)).map fun tags =>
        (((bs.length - 1 - n : Nat) : Int), (n : Int), (tags.length : Int))) := by
  have htop := byteAt_lt bs (bs.length - 2)
  have hmask : (readAt bs (((bs.length - 1 - n : Nat) : Int) + n - 1) : Attempt Nat) =
      .ok (byteAt bs (bs.length - 2)) := by
    rw [← readAt_blockMask hlen]
    congr 1
    omega
  have hscan := (parseBlocks_scan bs (byteAt bs (bs.length - 2))).eq 8 0 (bs.length - 1 - n) 0 rfl (by rw [zero_popcount]; omega)
  rw [hmask, ok_bind, directoryTags]
  by_cases hzero : byteAt bs (bs.length - 2) = 0
  · rw [rejectIf_of (not_not.mpr hzero), error_bind, if_pos hzero]
    rfl
  · rw [rejectIf_of_not (not_not.mpr hzero), ok_bind, if_neg hzero]
    change (do
      let fieldCount ← parseBlocks bs (byteAt bs (bs.length - 2)) 8 0
        ((bs.length - 1 - n : Nat) : Int) ((0 : Nat) : Int)
      finishDirectory bs .blocks n fieldCount : Attempt (Int × Int × Int)) = _
    rw [hscan]
    cases htags : blockTags bs (byteAt bs (bs.length - 2)) 8 0 (bs.length - 1 - n) 0 with
    | none => rfl
    | some tags =>
      have hnil := blockTags_top_ne_nil htop hzero htags
      rw [Option.map_some, orRaise_some, ok_bind, Nat.zero_add,
        finishDirectory_of_wide hnil (by decide) (by decide)]
      rfl

end Fields

theorem directoryFields_eq {bs : List UInt8} (hlen : 5 ≤ bs.length) (kind : DirectoryKind) {n : Nat}
    (hn : directorySize kind (byteAt bs (bs.length - 2)) = n) (hroom : n + 1 ≤ bs.length - 4) :
    (do
      let fieldCount ← directoryFields bs kind ((bs.length - 1 - n : Nat) : Int) n (tinyCount kind)
      finishDirectory bs kind n fieldCount) =
      orRaise malformedMessage ((directoryTags bs kind (bs.length - 1 - n)).map fun tags =>
        (((bs.length - 1 - n : Nat) : Int), (n : Int), (tags.length : Int))) := by
  cases kind with
  | empty => rfl
  | tiny1 | tiny2 | tiny3 =>
    subst hn
    unfold directoryFields
    rw [pure_eq_ok, ok_bind]
    refine tinyFields_eq hroom ?_ ?_ ?_
    · rw [directorySize]
      decide
    · decide
    · decide
  | mask8 | mask16 | mask32 =>
    subst hn
    unfold directoryFields
    simp only [bind_assoc, pure_eq_ok, ok_bind]
    refine maskFields_eq hroom ?_ ?_ ?_
    · rw [directorySize]
      decide
    · decide
    · decide
  | blocks =>
    rw [← blockFields_eq hroom hlen (by rw [directorySize] at hn; omega) hn.symm]
    unfold directoryFields
    simp only [bind_assoc]

theorem parseDirectory_eq {bs : List UInt8} (hlen : 5 ≤ bs.length) (kind : DirectoryKind) :
    parseDirectory bs ((bs.length - 4 : Nat) : Int) kind =
      orRaise malformedMessage ((locate bs kind).map fun tags =>
        (((bs.length - 1 - directorySize kind (byteAt bs (bs.length - 2)) : Nat) : Int),
          (directorySize kind (byteAt bs (bs.length - 2)) : Int), (tags.length : Int))) := by
  unfold parseDirectory
  rw [directoryShape_eq hlen]
  by_cases hshort : kind = .blocks ∧ bs.length - 4 < 2
  · have hsize : ¬directorySize kind (byteAt bs (bs.length - 2)) + 1 ≤ bs.length - 4 := by
      rw [hshort.1, directorySize]
      omega
    rw [if_pos hshort, error_bind, locate_of_short kind rfl hsize]
    rfl
  rw [if_neg hshort, ok_bind]
  dsimp only
  by_cases hroom : directorySize kind (byteAt bs (bs.length - 2)) + 1 ≤ bs.length - 4
  · have hdir : (bs.length : Int) - 1 - (directorySize kind (byteAt bs (bs.length - 2)) : Int) =
        ((bs.length - 1 - directorySize kind (byteAt bs (bs.length - 2)) : Nat) : Int) := by omega
    rw [rejectIf_of_not (by omega), ok_bind, locate_of_room kind rfl hroom, hdir]
    exact directoryFields_eq hlen kind rfl hroom
  · rw [rejectIf_of (by omega), error_bind, locate_of_short kind rfl hroom]
    rfl

/-! ## The reader -/

/-- The index `parseMessageIndex` returns. -/
def indexOf (bs : List UInt8) (d : Decoded) : ParsedMessageIndex :=
  ⟨bs.length, d.boundaries, d.boundaries, d.directory, d.tags.length, d.width, d.kind.code⟩

theorem load_boundary {bs : List UInt8} {d : Decoded} (h : d.Sound bs) {i : Nat}
    (hi : i + 1 < d.tags.length) :
    loadLittleEndian bs ((d.boundaries : Int) + i * d.width) d.width = .ok (d.boundary bs i) := by
  have hroom := h.boundary_room hi
  have hlayout := h.layout
  have hoffset : (d.boundaries : Int) + i * d.width = ((d.boundaries + i * d.width : Nat) : Int) := by
    push_cast
    rfl
  rw [hoffset, loadLittleEndian_eq h.width_cases (by omega)]
  rfl

theorem boundariesAscend_step {bs : List UInt8} {d : Decoded} (h : d.Sound bs) (n i previous : Nat)
    (hi : i + 1 < d.tags.length) :
    boundariesAscend bs d.boundaries d.width d.boundaries (n + 1) i previous =
      if d.boundary bs i < previous ∨ d.boundary bs i > d.payloadSize then .error malformedMessage
      else boundariesAscend bs d.boundaries d.width d.boundaries n ((i + 1 : Nat) : Int)
        (d.boundary bs i) := by
  have hlayout := h.layout
  have htest : ¬(d.boundary bs i ≥ previous ∧
      (d.boundary bs i : Int) ≤ (d.boundaries : Int) - 4) ↔
      (d.boundary bs i < previous ∨ d.boundary bs i > d.payloadSize) := by
    unfold Decoded.payloadSize
    omega
  rw [boundariesAscend, load_boundary h hi, ok_bind, rejectIf_bind]
  simp only [htest]
  rfl

theorem parseMessageIndex_eq (bs : List UInt8) :
    parseMessageIndex bs = orRaise malformedMessage ((decode bs).map (indexOf bs)) := by
  unfold parseMessageIndex
  by_cases hok : HeaderOk bs
  swap
  · rw [parseHeader_of_not hok, decode, decodeDirectory_of_not_header hok]
    rfl
  obtain ⟨kind, hkind⟩ := hok.kind
  rw [parseHeader_of_ok hok hkind, ok_bind]
  dsimp only
  rw [parseDirectory_eq hok.1]
  cases hloc : locate bs kind with
  | none =>
    rw [decode, decodeDirectory_of_unlocated hok hkind hloc]
    rfl
  | some tags =>
    have hlen := hok.1
    have hroom := (locate_eq_some hloc).1
    obtain ⟨d, hd⟩ : ∃ d, d = located bs kind tags := ⟨_, rfl⟩
    refine Eq.trans ?_ (readBoundaries_eq (e := malformedMessage)
      (fun n i previous => boundariesAscend bs d.boundaries d.width d.boundaries n i previous)
      hok hkind hloc hd (indexOf bs) (fun _ _ => rfl) ?_)
    swap
    · exact fun h => boundariesAscend_step h
    subst hd
    -- the counts and offsets are those of the format
    have hcount : max 0 ((tags.length : Int) - 1) = ((tags.length - 1 : Nat) : Int) := by omega
    have hrange : rangeCount 0 ((tags.length - 1 : Nat) : Int) = .ok (tags.length - 1) :=
      rangeCount_natCast 0 rfl (Nat.zero_le _)
    have hsize : ((tags.length - 1 : Nat) : Int) * ((2 ^ (control bs % 4) : Nat) : Int) =
        (((tags.length - 1) * 2 ^ (control bs % 4) : Nat) : Int) := (Int.natCast_mul _ _).symm
    simp only [Option.map_some, orRaise_some, ok_bind, hcount, hsize, hrange]
    change _ = if (tags.length - 1) * 2 ^ (control bs % 4) +
      directorySize kind (byteAt bs (bs.length - 2)) + 1 > bs.length - 4 then _ else _
    by_cases hfit : (tags.length - 1) * 2 ^ (control bs % 4) +
        directorySize kind (byteAt bs (bs.length - 2)) + 1 > bs.length - 4
    · rw [rejectIf_of (by omega), if_pos hfit, error_bind]
    · have hbound : ((bs.length - 1 - directorySize kind (byteAt bs (bs.length - 2)) : Nat) : Int) -
          (((tags.length - 1) * 2 ^ (control bs % 4) : Nat) : Int) =
          ((located bs kind tags).boundaries : Int) := by
        change _ = ((bs.length - 1 - directorySize kind (byteAt bs (bs.length - 2)) -
          (tags.length - 1) * 2 ^ (control bs % 4) : Nat) : Int)
        omega
      have hpay : ¬((tags.length : Int) ≠ 0 ∨ ((located bs kind tags).boundaries : Int) = 4) ↔
          (tags.length = 0 ∧ (located bs kind tags).boundaries ≠ 4) := by omega
      rw [rejectIf_of_not (by omega), if_neg hfit, ok_bind, hbound]
      simp only [rejectIf_bind, hpay]
      rfl

end Bebop.Swift
