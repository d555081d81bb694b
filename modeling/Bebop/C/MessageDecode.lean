import Bebop.C.MessageIndex
import Bebop.Message.Reader

/-!
# Bebop — the C readers decode the format

`messageIndexParse` accepts exactly what `Message.decode` does and `messageIndexBegin`
exactly what `Message.decodeDirectory` does. Both are equalities of outcomes over every
byte string, so they also say that neither reader ever faults.
-/

namespace Bebop.C

open Checked Bytes Bits Message

/-! ## Loads -/

theorem or_shiftLeft {a b k : Nat} (ha : a < 2 ^ k) : a ||| (b <<< k) = a + 2 ^ k * b := by
  rw [Nat.or_comm, ← Nat.shiftLeft_add_eq_or_of_lt ha, Nat.shiftLeft_eq]
  ring

theorem wireLoadLe_one {bs : List UInt8} {i : Nat} (h : i + 1 ≤ bs.length) :
    wireLoadLe bs i 1 = .ok (leAt bs i 1) := by
  rw [leAt_succ (by omega), leAt_zero]
  simp [wireLoadLe, read_of_lt (show i < bs.length by omega)]

theorem wireLoadLe_two {bs : List UInt8} {i : Nat} (h : i + 2 ≤ bs.length) :
    wireLoadLe bs i 2 = .ok (leAt bs i 2) := by
  have h0 := byteAt_lt bs i
  rw [leAt_succ (by omega), leAt_succ (by omega), leAt_zero]
  simp only [wireLoadLe, read_of_lt (show i < bs.length by omega),
    read_of_lt (show i + 1 < bs.length by omega), ok_bind]
  rw [if_pos (by omega), if_neg (by omega), or_shiftLeft (show byteAt bs i < 2 ^ 8 from h0)]
  rfl

theorem wireLoadLe_four {bs : List UInt8} {i : Nat} (h : i + 4 ≤ bs.length) :
    wireLoadLe bs i 4 = .ok (leAt bs i 4) := by
  have h0 := byteAt_lt bs i
  have h1 := byteAt_lt bs (i + 1)
  have h2 := byteAt_lt bs (i + 2)
  rw [leAt_succ (by omega), leAt_succ (by omega), leAt_succ (by omega), leAt_succ (by omega),
    leAt_zero]
  simp only [wireLoadLe, read_of_lt (show i < bs.length by omega),
    read_of_lt (show i + 1 < bs.length by omega), read_of_lt (show i + 2 < bs.length by omega),
    read_of_lt (show i + 3 < bs.length by omega), ok_bind]
  rw [if_pos (by omega), if_pos (by omega), or_shiftLeft (show byteAt bs i < 2 ^ 8 from h0),
    or_shiftLeft (show byteAt bs i + 2 ^ 8 * byteAt bs (i + 1) < 2 ^ 16 by omega),
    or_shiftLeft (show byteAt bs i + 2 ^ 8 * byteAt bs (i + 1) +
      2 ^ 16 * byteAt bs (i + 2) < 2 ^ 24 by omega)]
  rw [pure_eq_ok]
  congr 1
  ring

theorem wireLoadLe_eq {bs : List UInt8} {i w : Nat} (hw : w = 1 ∨ w = 2 ∨ w = 4)
    (h : i + w ≤ bs.length) : wireLoadLe bs i w = .ok (leAt bs i w) := by
  rcases hw with rfl | rfl | rfl
  · exact wireLoadLe_one h
  · exact wireLoadLe_two h
  · exact wireLoadLe_four h

/-! ## Header -/


theorem messageHeader_of_ok {bs : List UInt8} (h : HeaderOk bs) {kind : DirectoryKind}
    (hkind : DirectoryKind.ofCode (control bs / 4) = some kind) :
    messageHeader bs = .ok ⟨bs.length - 4, 2 ^ (control bs % 4), kind⟩ := by
  obtain ⟨hlen, hbody, hlow, hwidth⟩ := h
  have hlen4 := wireSizeLen_eq
  obtain ⟨h3, h7, he0⟩ := control_fields (byteAt_lt bs (bs.length - 1))
  rw [← Message.control] at h3 h7 he0
  have hcode : control bs / 4 % 8 = control bs / 4 := Nat.mod_eq_of_lt (by omega)
  unfold messageHeader
  rw [rejectIf_of_not (by omega), ok_bind, wireLoadLe_four (by omega), ok_bind,
    rejectIf_of_not (by omega), ok_bind, back_of_le (by omega), ok_bind, read_of_lt (by omega),
    ok_bind]
  dsimp only
  rw [← Message.control, h3, h7, hcode, rejectIf_of_not (by tauto), ok_bind, hkind,
    Nat.one_shiftLeft, hbody]
  rfl

theorem messageHeader_of_not {bs : List UInt8} (h : ¬HeaderOk bs) :
    messageHeader bs = .error malformed := by
  have hlen4 := wireSizeLen_eq
  obtain ⟨h3, h7, he0⟩ := control_fields (byteAt_lt bs (bs.length - 1))
  rw [← Message.control] at h3 h7 he0
  unfold messageHeader
  by_cases hlen : bs.length < wireSizeLen + 1
  · rw [rejectIf_of hlen, error_bind]
  rw [rejectIf_of_not hlen, ok_bind, wireLoadLe_four (by omega), ok_bind]
  by_cases hbody : leAt bs 0 4 ≠ bs.length - wireSizeLen ∨ leAt bs 0 4 = 0
  · rw [rejectIf_of hbody, error_bind]
  rw [rejectIf_of_not hbody, ok_bind, back_of_le (by omega), ok_bind, read_of_lt (by omega),
    ok_bind]
  dsimp only
  rw [← Message.control, h3]
  have hctl : control bs &&& 0xe0 ≠ 0 ∨ control bs % 4 = 3 := by
    by_contra hgood
    exact h ⟨by omega, by omega, he0.mp (by tauto), by tauto⟩
  rw [rejectIf_of hctl, error_bind]

/-! ## Directory -/

theorem high_bit {b m : Nat} :
    (b = 7 ∧ m &&& 0x80000000 ≠ 0) ↔ (b = 7 ∧ m.testBit 31 = true) := by
  have h : m &&& 0x80000000 = 0 ↔ m.testBit 31 = false :=
    and_one_shiftLeft_eq_zero (i := 31)
  rw [Ne, h, Bool.not_eq_false]

theorem parseBlocks_scan (bs : List UInt8) (top : Nat) :
    BlockScan malformed bs top id (parseBlocks bs top) where
  done b entry r := rfl
  clear {n b entry r} _ hb := by
    rw [parseBlocks, if_pos (and_one_shiftLeft_eq_zero.mpr hb)]
  bad {n b entry r} _ hb hroom hbad := by
    rw [parseBlocks, if_neg (by simp [and_one_shiftLeft_eq_zero, hb]), read_of_lt (by omega), ok_bind]
    rcases hbad with hrank | hmask
    · rw [rejectIf_of hrank, error_bind]
    · rw [rejectIf_bind, wireLoadLe_four (by omega), ok_bind,
        rejectIf_of (hmask.imp_right high_bit.mpr), error_bind, ite_self]
  good {n b entry r} _ hb hroom hgood := by
    rw [BlockBad, not_or, ← high_bit] at hgood
    rw [parseBlocks, if_neg (by simp [and_one_shiftLeft_eq_zero, hb]), read_of_lt (by omega), ok_bind,
      rejectIf_of_not hgood.1, ok_bind, wireLoadLe_four (by omega), ok_bind,
      rejectIf_of_not hgood.2, ok_bind]

theorem beginBlocks_scan (bs : List UInt8) (top : Nat) :
    BlockScan malformed bs top id (beginBlocks bs top) where
  done b entry r := rfl
  clear {n b entry r} _ hb := by
    rw [beginBlocks, if_pos (and_one_shiftLeft_eq_zero.mpr hb)]
  bad {n b entry r} _ hb hroom hbad := by
    rw [BlockBad, ← high_bit] at hbad
    rw [beginBlocks, if_neg (by simp [and_one_shiftLeft_eq_zero, hb]), wireLoadLe_four (by omega),
      ok_bind, read_of_lt (by omega), ok_bind, rejectIf_of hbad, error_bind]
  good {n b entry r} _ hb hroom hgood := by
    rw [BlockBad, ← high_bit] at hgood
    rw [beginBlocks, if_neg (by simp [and_one_shiftLeft_eq_zero, hb]), wireLoadLe_four (by omega),
      ok_bind, read_of_lt (by omega), ok_bind, rejectIf_of_not hgood, ok_bind]

theorem tinyValid_eq {bs : List UInt8} {dir n : Nat} (hn : 0 < n) (hroom : dir + n ≤ bs.length) :
    tinyValid bs dir n = orRaise malformed ((tinyTags bs dir n).map fun _ => ()) := by
  rw [tinyValid, read_of_lt (by omega), ok_bind, rejectIf_bind]
  apply tinyScan_eq (tinyAscends bs dir) (fun _ => rfl) _ hn hroom
  intro n i hi hdir
  rw [tinyAscends, read_of_lt hdir, ok_bind, back_of_le (by omega), ok_bind,
    read_of_lt (by omega), ok_bind, rejectIf_bind]

/-- Where the directory is, its size, and the number of its tags. -/
def directoryOf (bs : List UInt8) (kind : DirectoryKind) (tags : List Nat) : Directory :=
  let size := directorySize kind (byteAt bs (bs.length - 2))
  ⟨bs.length - 1 - size, size, tags.length⟩

section Locate

variable (bs : List UInt8)

theorem locateTiny (n : Nat) (hn : 0 < n) :
    ((if bs.length - 4 < n + 1 then .error malformed
      else do
        let dir ← back bs.length (n + 1)
        tinyValid bs dir n
        return Directory.mk dir n n) : Outcome Directory) =
      orRaise malformed ((if n + 1 ≤ bs.length - 4 then tinyTags bs (bs.length - 1 - n) n else none).map
        fun tags => ⟨bs.length - 1 - n, n, tags.length⟩) := by
  by_cases hroom : n + 1 ≤ bs.length - 4
  · rw [if_neg (by omega), if_pos hroom, back_of_le (by omega), ok_bind,
      show bs.length - (n + 1) = bs.length - 1 - n by omega, tinyValid_eq hn (by omega)]
    cases htags : tinyTags bs (bs.length - 1 - n) n with
    | none => rfl
    | some tags =>
      rw [Option.map_some, Option.map_some, tinyTags_length htags]
      rfl
  · rw [if_pos (by omega), if_neg hroom]
    rfl

theorem locateMask (n : Nat) (hn : n = 1 ∨ n = 2 ∨ n = 4) :
    ((if bs.length - 4 < n + 1 then .error malformed
      else do
        let dir ← back bs.length (n + 1)
        let mask ← wireLoadLe bs dir n
        if wirePopcount32 mask = 0 then .error malformed
        else return Directory.mk dir n (wirePopcount32 mask)) : Outcome Directory) =
      orRaise malformed ((if n + 1 ≤ bs.length - 4 then maskTags bs (bs.length - 1 - n) n else none).map
        fun tags => ⟨bs.length - 1 - n, n, tags.length⟩) := by
  by_cases hroom : n + 1 ≤ bs.length - 4
  · rw [if_neg (by omega), if_pos hroom, back_of_le (by omega), ok_bind,
      show bs.length - (n + 1) = bs.length - 1 - n by omega, wireLoadLe_eq hn (by omega), ok_bind]
    rcases maskTags_cases bs (bs.length - 1 - n) (show n ≤ 4 by omega) with
      ⟨hzero, hnone⟩ | ⟨tags, hpos, hsome, hcount⟩
    · rw [if_pos hzero, hnone]
      rfl
    · rw [if_neg hpos, hsome, Option.map_some, orRaise_some, hcount]
      rfl
  · rw [if_pos (by omega), if_neg hroom]
    rfl

theorem locateBlocks {top dir : Nat} (htop : top < 2 ^ 8) (hne : top ≠ 0)
    {scan : Outcome Nat}
    (hscan : scan = orRaise malformed ((blockTags bs top 8 0 dir 0).map fun tags => 0 + tags.length))
    (n : Nat) :
    ((do
        let fieldCount ← scan
        if fieldCount = 0 then .error malformed
        else return Directory.mk dir n fieldCount) : Outcome Directory) =
      orRaise malformed ((blockTags bs top 8 0 dir 0).map fun tags => ⟨dir, n, tags.length⟩) := by
  rw [hscan]
  cases htags : blockTags bs top 8 0 dir 0 with
  | none => rfl
  | some tags =>
    have hnil := blockTags_top_ne_nil htop hne htags
    simp only [Option.map_some, orRaise_some, Nat.zero_add, ok_bind, if_neg hnil, pure_eq_ok]

theorem blockMask_eq {n : Nat} (hn : 0 < n) (hroom : n + 1 ≤ bs.length - 4) :
    back bs.length (1 + n) = (.ok (bs.length - 1 - n) : Outcome Nat) ∧
      back (bs.length - 1 - n + n) 1 = (.ok (bs.length - 2) : Outcome Nat) := by
  rw [back_of_le (by omega), back_of_le (by omega), show bs.length - (1 + n) = bs.length - 1 - n by omega,
    show bs.length - 1 - n + n - 1 = bs.length - 2 by omega]
  exact ⟨rfl, rfl⟩

end Locate

theorem blocks_top {bs : List UInt8} (hlen : 5 ≤ bs.length) :
    popcount 32 (byteAt bs (bs.length - 2)) = popcount 8 (byteAt bs (bs.length - 2)) ∧
      back bs.length 2 = (.ok (bs.length - 2) : Outcome Nat) ∧
      read bs (bs.length - 2) = (.ok (byteAt bs (bs.length - 2)) : Outcome Nat) :=
  ⟨popcount_of_lt (by decide) (byteAt_lt ..), back_of_le (by omega), read_of_lt (by omega)⟩

theorem parseDirectory_eq {bs : List UInt8} (hlen : 5 ≤ bs.length) (w : Nat)
    (kind : DirectoryKind) :
    parseDirectory bs ⟨bs.length - 4, w, kind⟩ =
      orRaise malformed ((locate bs kind).map (directoryOf bs kind)) := by
  unfold parseDirectory
  cases kind with
  | empty =>
    have hback : back bs.length (1 + 0) = (.ok (bs.length - 1) : Outcome Nat) :=
      back_of_le (by omega)
    rw [locate_of_room .empty rfl (show 0 + 1 ≤ bs.length - 4 by omega)]
    dsimp only
    rw [pure_eq_ok, ok_bind]
    dsimp only
    rw [rejectIf_of_not (by omega), ok_bind, hback]
    rfl
  | tiny1 | tiny2 | tiny3 =>
    simp only [rejectIf_bind, isMask, isTiny, DirectoryKind.code, pure_eq_ok, ok_bind, reduceCtorEq,
      ne_eq, not_false_eq_true, and_true, and_false, if_false, if_true, Nat.reduceLeDiff,
      Nat.reduceAdd, gt_iff_lt]
    exact locateTiny bs _ (by decide)
  | mask8 | mask16 | mask32 =>
    simp only [rejectIf_bind, isMask, isTiny, DirectoryKind.code, pure_eq_ok, ok_bind, reduceCtorEq,
      ne_eq, not_false_eq_true, and_true, and_false, if_false, if_true, Nat.reduceLeDiff,
      Nat.reduceAdd, gt_iff_lt]
    exact locateMask bs _ (by decide)
  | blocks =>
    have htop := byteAt_lt bs (bs.length - 2)
    obtain ⟨hcount, hback, hread⟩ := blocks_top hlen
    simp only [rejectIf_bind, isMask, isTiny, DirectoryKind.code, pure_eq_ok, ok_bind, reduceCtorEq,
      ne_eq, not_false_eq_true, and_true, and_false, if_false, if_true, Nat.reduceLeDiff, gt_iff_lt,
      hback, hread, wirePopcount32, hcount]
    by_cases hroom : 1 + 5 * popcount 8 (byteAt bs (bs.length - 2)) + 1 ≤ bs.length - 4
    · obtain ⟨hdir, hlast⟩ := blockMask_eq bs (by omega) hroom
      rw [if_neg (by omega), if_neg (by omega), locate_of_room .blocks rfl hroom, hdir, ok_bind, hlast,
        ok_bind, hread, ok_bind, directoryTags]
      by_cases hne : byteAt bs (bs.length - 2) = 0
      · rw [if_pos hne, if_pos hne]
        rfl
      · rw [if_neg hne, if_neg hne]
        exact locateBlocks bs htop hne ((parseBlocks_scan bs _).eq 8 0 _ 0 rfl (by rw [zero_popcount]; omega)) _
    · rw [locate_of_short .blocks rfl hroom]
      by_cases hbody : bs.length - 4 < 2
      · rw [if_pos hbody]
        rfl
      · rw [if_neg hbody, if_pos (by omega)]
        rfl

theorem beginDirectory_eq {bs : List UInt8} (hlen : 5 ≤ bs.length) (w : Nat)
    (kind : DirectoryKind) :
    beginDirectory bs ⟨bs.length - 4, w, kind⟩ =
      orRaise malformed ((locate bs kind).map (directoryOf bs kind)) := by
  unfold beginDirectory
  cases kind with
  | empty =>
    have hback : back bs.length (1 + 0) = (.ok (bs.length - 1) : Outcome Nat) :=
      back_of_le (by omega)
    rw [locate_of_room .empty rfl (show 0 + 1 ≤ bs.length - 4 by omega)]
    dsimp only
    rw [pure_eq_ok, ok_bind]
    dsimp only
    rw [rejectIf_of_not (by omega), ok_bind, hback]
    rfl
  | tiny1 | tiny2 | tiny3 =>
    simp only [rejectIf_bind, isMask, isTiny, DirectoryKind.code, pure_eq_ok, ok_bind, reduceCtorEq,
      ne_eq, not_false_eq_true, and_true, if_false, if_true, Nat.reduceLeDiff,
      Nat.reduceAdd, gt_iff_lt]
    exact locateTiny bs _ (by decide)
  | mask8 | mask16 | mask32 =>
    simp only [rejectIf_bind, isMask, isTiny, DirectoryKind.code, pure_eq_ok, ok_bind, reduceCtorEq,
      ne_eq, not_false_eq_true, and_true, and_false, if_false, if_true, Nat.reduceLeDiff,
      Nat.reduceAdd, gt_iff_lt]
    exact locateMask bs _ (by decide)
  | blocks =>
    have htop := byteAt_lt bs (bs.length - 2)
    obtain ⟨hcount, hback, hread⟩ := blocks_top hlen
    simp only [rejectIf_bind, isMask, isTiny, DirectoryKind.code, pure_eq_ok, ok_bind, reduceCtorEq,
      ne_eq, not_false_eq_true, and_true, and_false, if_false, if_true, Nat.reduceLeDiff, gt_iff_lt,
      hback, hread, wirePopcount32, hcount]
    by_cases hroom : 1 + 5 * popcount 8 (byteAt bs (bs.length - 2)) + 1 ≤ bs.length - 4
    · obtain ⟨hdir, hlast⟩ := blockMask_eq bs (by omega) hroom
      rw [if_neg (by omega), locate_of_room .blocks rfl hroom, directoryTags]
      by_cases hne : byteAt bs (bs.length - 2) = 0
      · rw [if_pos hne, if_pos hne]
        rfl
      · rw [if_neg hne, if_neg hne, if_neg (by omega), hdir, ok_bind, hlast, ok_bind, hread, ok_bind]
        exact locateBlocks bs htop hne ((beginBlocks_scan bs _).eq 8 0 _ 0 rfl (by rw [zero_popcount]; omega)) _
    · rw [locate_of_short .blocks rfl hroom]
      by_cases hbody : bs.length - 4 < 2
      · rw [if_pos hbody]
        rfl
      · rw [if_neg hbody, if_pos (show bs.length - 4 < _ by omega), ite_self]
        rfl

/-! ## The readers -/

def indexOf (bs : List UInt8) (d : Decoded) : MessageIndex :=
  ⟨bs, d.boundaries, d.directory, d.tags.length, d.width, d.kind⟩

section IndexOf

variable (bs : List UInt8) (d : Decoded)

@[simp] theorem indexOf_encoded : (indexOf bs d).encoded = bs := rfl

@[simp] theorem indexOf_directory : (indexOf bs d).directory = d.directory := rfl

@[simp] theorem indexOf_fieldCount : (indexOf bs d).fieldCount = d.tags.length := rfl

@[simp] theorem indexOf_directoryKind : (indexOf bs d).directoryKind = d.kind := rfl

end IndexOf

theorem messageIndexBegin_eq (bs : List UInt8) :
    messageIndexBegin bs = orRaise malformed ((decodeDirectory bs).map (indexOf bs)) := by
  unfold messageIndexBegin
  by_cases hok : HeaderOk bs
  swap
  · rw [messageHeader_of_not hok, decodeDirectory_of_not_header hok]
    rfl
  obtain ⟨kind, hkind⟩ := hok.kind
  rw [messageHeader_of_ok hok hkind, ok_bind, beginDirectory_eq hok.1]
  cases hloc : locate bs kind with
  | none =>
    rw [decodeDirectory_of_unlocated hok hkind hloc]
    rfl
  | some tags =>
    rw [decodeDirectory_of_located hok hkind hloc]
    simp only [Option.map_some, orRaise_some, ok_bind, directoryOf]
    have hlen := hok.1
    by_cases hnil : tags = []
    · -- without tags, only a body of the control byte alone is accepted
      obtain rfl : kind = .empty := (directoryTags_eq_nil (locate_eq_some hloc).2).mp hnil
      subst hnil
      by_cases hbody : bs.length = 5
      · simp [located, directorySize, hbody, rejectIf, back, indexOf]
      · have hbody' : ¬bs.length - 4 = 1 := by omega
        simp [directorySize, hbody, hbody', rejectIf]
    · have hne : tags.length ≠ 0 := by simpa using hnil
      rw [if_neg hne, if_neg hne]
      by_cases hfit : (tags.length - 1) * 2 ^ (control bs % 4) +
          directorySize kind (byteAt bs (bs.length - 2)) + 1 ≤ bs.length - 4
      · rw [rejectIf_of_not (by omega), ok_bind, back_of_le (by omega),
          if_pos ⟨hfit, fun h => absurd h hnil⟩]
        rfl
      · rw [rejectIf_of (by omega), error_bind, if_neg fun h => hfit h.1]
        rfl

theorem directorySize_le (kind : DirectoryKind) (top : Nat) : directorySize kind top ≤ 41 := by
  cases kind with
  | blocks =>
    have := popcount_le 8 top
    rw [directorySize]
    omega
  | _ => simp [directorySize]

theorem boundaryCount_le {count size width : Nat} (hcount : count ≤ 254) (hsize : size ≤ 41)
    (hwidth : width = 1 ∨ width = 2 ∨ width = 4) : ¬count > (sizeMax - size - 1) / width := by
  rw [Nat.not_lt, Nat.le_div_iff_mul_le (by omega)]
  unfold sizeMax
  rcases hwidth with rfl | rfl | rfl <;> omega

theorem messageIndexParse_eq (bs : List UInt8) :
    messageIndexParse bs = orRaise malformed ((decode bs).map (indexOf bs)) := by
  unfold messageIndexParse
  by_cases hok : HeaderOk bs
  swap
  · rw [messageHeader_of_not hok, decode, decodeDirectory_of_not_header hok]
    rfl
  obtain ⟨kind, hkind⟩ := hok.kind
  rw [messageHeader_of_ok hok hkind, ok_bind, parseDirectory_eq hok.1]
  cases hloc : locate bs kind with
  | none =>
    rw [decode, decodeDirectory_of_unlocated hok hkind hloc]
    rfl
  | some tags =>
    have hsize4 := wireSizeLen_eq
    have hlen := hok.1
    have hle := directoryTags_length_le (locate_eq_some hloc).2
    have hroom := (locate_eq_some hloc).1
    have hcount : (if tags.length = 0 then 0 else tags.length - 1) = tags.length - 1 := by
      split <;> omega
    have hguard := boundaryCount_le (show tags.length - 1 ≤ 254 by omega)
      (directorySize_le kind (byteAt bs (bs.length - 2))) hok.width_cases
    obtain ⟨d, hd⟩ : ∃ d, d = located bs kind tags := ⟨_, rfl⟩
    refine Eq.trans ?_ (readBoundaries_eq (e := malformed)
      (boundariesAscend bs d.boundaries d.width d.payloadSize) hok hkind hloc hd (indexOf bs)
      (fun _ _ => rfl) ?_)
    swap
    · intro h n i previous hi
      have hboundary := h.boundary_room hi
      have hlayout := h.layout
      rw [boundariesAscend, wireLoadLe_eq h.width_cases (by omega), ok_bind, rejectIf_bind]
      rfl
    subst hd
    simp only [Option.map_some, orRaise_some, ok_bind, directoryOf, hcount]
    rw [rejectIf_of_not hguard, ok_bind]
    change _ = if (tags.length - 1) * 2 ^ (control bs % 4) +
      directorySize kind (byteAt bs (bs.length - 2)) + 1 > bs.length - 4 then _ else _
    by_cases hfit : (tags.length - 1) * 2 ^ (control bs % 4) +
        directorySize kind (byteAt bs (bs.length - 2)) + 1 > bs.length - 4
    · rw [rejectIf_of hfit, if_pos hfit, error_bind]
    · rw [rejectIf_of_not hfit, if_neg hfit, ok_bind, back_of_le (by omega), ok_bind,
        back_of_le (by omega), ok_bind]
      -- the payload size is only ever compared with zero
      have hpay : (tags.length = 0 ∧ bs.length - 1 -
            directorySize kind (byteAt bs (bs.length - 2)) -
            (tags.length - 1) * 2 ^ (control bs % 4) - wireSizeLen ≠ 0) ↔
          (tags.length = 0 ∧ (located bs kind tags).boundaries ≠ 4) := by
        change _ ↔ (_ ∧ bs.length - 1 - directorySize kind (byteAt bs (bs.length - 2)) -
            (tags.length - 1) * 2 ^ (control bs % 4) ≠ 4)
        omega
      simp only [rejectIf_bind, hpay]
      rfl

end Bebop.C
