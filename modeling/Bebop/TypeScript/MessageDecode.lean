import Bebop.Lib.Swar
import Bebop.Message.Reader
import Bebop.TypeScript.MessageIndex

/-!
# Bebop — the TypeScript reader decodes the format

`parseMessageIndex` accepts exactly what `Message.decode` does. Its numbers are those of the
format: each 32-bit operator is applied where its signed result cannot be told from the
unsigned one, or is only compared with zero.
-/

namespace Bebop.TypeScript

open Checked Bytes Bits JavaScript Message

/-! ## Words -/

theorem pairs_eq {m : Nat} (hm : m < 2 ^ 32) :
    (m : Int) - land (shru m 1) 0x55555555 = (pairCounts 4 m : Nat) := by
  have hhalf : m >>> 1 ≤ m := Nat.shiftRight_le m 1
  have hle : (m >>> 1) &&& 0x55555555 ≤ m := Nat.and_le_left.trans hhalf
  have hshru : shru (m : Int) 1 = ((m >>> 1 : Nat) : Int) := shru_natCast hm (by decide)
  have hland : land ((m >>> 1 : Nat) : Int) 0x55555555 =
      (((m >>> 1) &&& 0x55555555 : Nat) : Int) := land_mask (by omega) (by decide)
  rw [hshru, hland]
  change _ = ((m - ((m >>> 1) &&& 0x55555555) : Nat) : Int)
  omega

theorem nibbles_eq {v : Nat} (hv : v < 2 ^ 32) :
    land v 0x33333333 + land (shru v 2) 0x33333333 = (nibbleCounts 4 v : Nat) := by
  have hquarter : v >>> 2 ≤ v := Nat.shiftRight_le v 2
  have hshru : shru (v : Int) 2 = ((v >>> 2 : Nat) : Int) := shru_natCast hv (by decide)
  have hlow : land (v : Int) 0x33333333 = ((v &&& 0x33333333 : Nat) : Int) :=
    land_mask hv (by decide)
  have hhigh : land ((v >>> 2 : Nat) : Int) 0x33333333 =
      (((v >>> 2) &&& 0x33333333 : Nat) : Int) := land_mask (by omega) (by decide)
  rw [hshru, hlow, hhigh]
  rfl

theorem nibbleCounts_lt (v : Nat) : nibbleCounts 4 v < 2 ^ 31 := by
  have hlow : v &&& 0x33333333 ≤ 0x33333333 := Nat.and_le_right
  have hhigh : (v >>> 2) &&& 0x33333333 ≤ 0x33333333 := Nat.and_le_right
  change (v &&& 0x33333333) + ((v >>> 2) &&& 0x33333333) < 2 ^ 31
  omega

theorem bytes_eq {v : Nat} (hv : v < 2 ^ 31) :
    land (v + shru v 4) 0x0f0f0f0f = (byteCounts 4 v : Nat) := by
  have hshift : v >>> 4 ≤ v := Nat.shiftRight_le v 4
  have hshru : shru (v : Int) 4 = ((v >>> 4 : Nat) : Int) :=
    shru_natCast (by omega) (by decide)
  have hland : land ((v + v >>> 4 : Nat) : Int) 0x0f0f0f0f =
      (((v + v >>> 4) &&& 0x0f0f0f0f : Nat) : Int) := land_mask (by omega) (by decide)
  rw [hshru, ← Int.natCast_add, hland]
  rfl

theorem popcount32_eq {m : Nat} (hm : m < 2 ^ 32) : popcount32 m = (popcount 32 m : Nat) := by
  have hpairs : pairCounts 4 m ≤ m := Nat.sub_le _ _
  have htop : shru ((byteCounts 4 (nibbleCounts 4 (pairCounts 4 m)) * 0x01010101 : Nat) : Int) 24 =
      (swarPopcount m : Nat) := shru_natCast_mod _ (by decide)
  unfold popcount32
  dsimp only
  rw [shru_zero, toUint32_natCast hm, pairs_eq hm, nibbles_eq (by omega),
    bytes_eq (nibbleCounts_lt _), ← swarPopcount_eq hm, ← htop, Int.natCast_mul]
  rfl

theorem element_of_lt {bs : List UInt8} {i : Nat} (h : i < bs.length) :
    element bs i = .ok (byteAt bs i : Int) := by
  rw [element, readAt_natCast h]
  rfl

theorem toUint32_lor_shl {x : Int} {b k : Nat} (hb : b < 256) (hk : k ≤ 24)
    (hx : toUint32 x < 2 ^ k) :
    toUint32 (lor x (shl b k)) = toUint32 x + 2 ^ k * b := by
  have hshift : b <<< k < 2 ^ 32 := by
    rw [Nat.shiftLeft_eq]
    have hpow : 2 ^ k ≤ 2 ^ 24 := Nat.pow_le_pow_right (by decide) hk
    calc b * 2 ^ k ≤ b * 2 ^ 24 := Nat.mul_le_mul_left b hpow
      _ < 2 ^ 32 := by omega
  rw [toUint32_lor, toUint32_shl (by omega) hshift, Nat.or_comm,
    ← Nat.shiftLeft_add_eq_or_of_lt hx, Nat.shiftLeft_eq]
  ring

theorem loadLittleEndian_eq {bs : List UInt8} {i w : Nat} (hw : w = 1 ∨ w = 2 ∨ w = 4)
    (h : i + w ≤ bs.length) : loadLittleEndian bs i w = .ok (leAt bs i w : Int) := by
  have h0 := byteAt_lt bs i
  have h1 := byteAt_lt bs (i + 1)
  have h2 := byteAt_lt bs (i + 2)
  have h3 := byteAt_lt bs (i + 3)
  have e0 : element bs (i : Int) = .ok (byteAt bs i : Int) := element_of_lt (by omega)
  have u0 : toUint32 (byteAt bs i : Int) = byteAt bs i := toUint32_natCast (by omega)
  rcases hw with rfl | rfl | rfl
  · rw [leAt_succ (by omega), leAt_zero]
    exact e0
  · have e1 : element bs ((i : Int) + 1) = .ok (byteAt bs (i + 1) : Int) := element_of_lt (i := i + 1) (by omega)
    have u1 := toUint32_lor_shl (x := byteAt bs i) (k := 8) h1 (by decide) (by omega)
    have hword : leAt bs i 2 = byteAt bs i + 2 ^ 8 * byteAt bs (i + 1) := by
      rw [leAt_succ (by omega), leAt_succ (by omega), leAt_zero]
      ring
    rw [u0, ← hword] at u1
    have hvalue := lor_eq_natCast u1 (by omega)
    change (do
      let low ← element bs (i : Int)
      let high ← element bs ((i : Int) + 1)
      return lor low (shl high 8) : Attempt Int) = _
    rw [e0, ok_bind, e1, ok_bind]
    exact congrArg Except.ok hvalue
  · have e1 : element bs ((i : Int) + 1) = .ok (byteAt bs (i + 1) : Int) := element_of_lt (i := i + 1) (by omega)
    have e2 : element bs ((i : Int) + 2) = .ok (byteAt bs (i + 2) : Int) := element_of_lt (i := i + 2) (by omega)
    have e3 : element bs ((i : Int) + 3) = .ok (byteAt bs (i + 3) : Int) := element_of_lt (i := i + 3) (by omega)
    -- each byte joins above the bytes before it
    have u1 := toUint32_lor_shl (x := byteAt bs i) (k := 8) h1 (by decide) (by omega)
    have u2 := toUint32_lor_shl (k := 16) h2 (by decide) (show toUint32 (lor _ _) < _ by
      rw [u1]
      omega)
    have u3 := toUint32_lor_shl (k := 24) h3 (by decide) (show toUint32 (lor _ _) < _ by
      rw [u2, u1]
      omega)
    have hword : leAt bs i 4 = byteAt bs i + 2 ^ 8 * byteAt bs (i + 1) +
        2 ^ 16 * byteAt bs (i + 2) + 2 ^ 24 * byteAt bs (i + 3) := by
      rw [leAt_succ (by omega), leAt_succ (by omega), leAt_succ (by omega), leAt_succ (by omega),
        leAt_zero]
      ring
    rw [u2, u1, u0, ← hword] at u3
    change (do
      let b0 ← element bs (i : Int)
      let b1 ← element bs ((i : Int) + 1)
      let b2 ← element bs ((i : Int) + 2)
      let b3 ← element bs ((i : Int) + 3)
      return shru (lor (lor (lor b0 (shl b1 8)) (shl b2 16)) (shl b3 24)) 0 : Attempt Int) = _
    rw [e0, ok_bind, e1, ok_bind, e2, ok_bind, e3, ok_bind, shru_zero]
    exact congrArg (fun n : Nat => (Except.ok (n : Int) : Attempt Int)) u3

theorem land_one_shl {m i : Nat} (hm : m < 2 ^ 32) (hi : i < 32) :
    land m (shl 1 i) = 0 ↔ m.testBit i = false := by
  rw [land_eq_zero, toUint32_natCast hm, toUint32_one_shl hi]
  exact and_one_shiftLeft_eq_zero

/-! ## Header -/

theorem control_land (bs : List UInt8) :
    land (control bs) 3 = ((control bs % 4 : Nat) : Int) ∧
      land (shru (control bs) 2) 7 = ((control bs / 4 % 8 : Nat) : Int) ∧
      (land (control bs) 0xe0 = 0 ↔ control bs < 32) := by
  have hc : control bs < 256 := byteAt_lt bs (bs.length - 1)
  obtain ⟨h3, h7, he0⟩ := control_fields hc
  have hshift : control bs >>> 2 ≤ control bs := Nat.shiftRight_le _ 2
  have hshru : shru (control bs) 2 = ((control bs >>> 2 : Nat) : Int) :=
    shru_natCast (by omega) (by decide)
  refine ⟨?_, ?_, ?_⟩
  · rw [← h3]
    exact land_mask (by omega) (by decide)
  · rw [hshru, ← h7]
    exact land_mask (by omega) (by decide)
  · rw [land_eq_zero, toUint32_natCast (by omega), ← he0]
    rfl

theorem parseHeader_of_ok {bs : List UInt8} (h : HeaderOk bs) :
    parseHeader bs = .ok (((bs.length - 4 : Nat) : Int), ((2 ^ (control bs % 4) : Nat) : Int),
      ((control bs / 4 : Nat) : Int)) := by
  obtain ⟨hlen, hbody, hlow, hwidth⟩ := h
  obtain ⟨h3, h7, he0⟩ := control_land bs
  have hload : loadLittleEndian bs 0 4 = .ok (leAt bs 0 4 : Int) :=
    loadLittleEndian_eq (i := 0) (w := 4) (by decide) (by omega)
  have hctl : element bs ((bs.length : Int) - 1) = .ok (control bs : Int) := by
    rw [show (bs.length : Int) - 1 = ((bs.length - 1 : Nat) : Int) by omega]
    exact element_of_lt (by omega)
  have hone : shl 1 ((control bs % 4 : Nat) : Int) = ((2 ^ (control bs % 4) : Nat) : Int) := by
    have hlt : control bs % 4 < 4 := Nat.mod_lt _ (by decide)
    rw [← Nat.one_shiftLeft]
    refine shl_natCast (n := 1) (by omega) ?_
    rw [Nat.one_shiftLeft]
    exact Nat.pow_lt_pow_right (by decide) (by omega)
  have hgood : ¬(land (control bs) 0xe0 ≠ 0 ∨ ((control bs % 4 : Nat) : Int) = 3) := by
    rw [not_or, not_not, he0]
    exact ⟨hlow, by omega⟩
  unfold parseHeader
  rw [rejectIf_of_not (by omega), ok_bind, hload, ok_bind, rejectIf_of_not (by omega), ok_bind,
    hctl, ok_bind]
  dsimp only
  rw [h3, h7, rejectIf_of_not hgood, ok_bind, hone, hbody,
    Nat.mod_eq_of_lt (show control bs / 4 < 8 by omega)]
  rfl

theorem parseHeader_of_not {bs : List UInt8} (h : ¬HeaderOk bs) :
    parseHeader bs = .error malformedMessage := by
  obtain ⟨h3, h7, he0⟩ := control_land bs
  unfold parseHeader
  by_cases hlen : (bs.length : Int) < 5
  · rw [rejectIf_of hlen, error_bind]
  have hload : loadLittleEndian bs 0 4 = .ok (leAt bs 0 4 : Int) :=
    loadLittleEndian_eq (i := 0) (w := 4) (by decide) (by omega)
  have hctl : element bs ((bs.length : Int) - 1) = .ok (control bs : Int) := by
    rw [show (bs.length : Int) - 1 = ((bs.length - 1 : Nat) : Int) by omega]
    exact element_of_lt (by omega)
  rw [rejectIf_of_not hlen, ok_bind, hload, ok_bind]
  by_cases hbody : (leAt bs 0 4 : Int) ≠ (bs.length : Int) - 4 ∨ (leAt bs 0 4 : Int) = 0
  · rw [rejectIf_of hbody, error_bind]
  rw [rejectIf_of_not hbody, ok_bind, hctl, ok_bind]
  dsimp only
  rw [h3]
  have hbad : land (control bs) 0xe0 ≠ 0 ∨ ((control bs % 4 : Nat) : Int) = 3 := by
    by_contra hgood
    rw [not_or, not_not, he0] at hgood
    exact h ⟨by omega, by omega, hgood.1, by omega⟩
  rw [rejectIf_of hbad, error_bind]

/-! ## Directory -/

theorem maskBad_iff {bs : List UInt8} {b entry : Nat} :
    ((leAt bs (entry + 1) 4 : Int) = 0 ∨
      ((b : Int) = 7 ∧ land (leAt bs (entry + 1) 4) 0x80000000 ≠ 0)) ↔
    (leAt bs (entry + 1) 4 = 0 ∨ (b = 7 ∧ (leAt bs (entry + 1) 4).testBit 31 = true)) := by
  have hword : leAt bs (entry + 1) 4 < 2 ^ 32 := leAt_lt bs (entry + 1) 4
  have hsign : land (leAt bs (entry + 1) 4) 0x80000000 = 0 ↔
      (leAt bs (entry + 1) 4).testBit 31 = false := by
    rw [land_eq_zero, toUint32_natCast hword]
    exact and_one_shiftLeft_eq_zero (i := 31)
  rw [Ne, hsign, Bool.not_eq_false]
  exact or_congr (by omega) (and_congr_left' (by omega))

theorem parseBlocks_scan (bs : List UInt8) {top : Nat} (htop : top < 256) :
    BlockScan malformedMessage bs top (fun r => (r : Int))
      (fun n b entry r => parseBlocks bs top n b entry r) where
  done b entry r := rfl
  clear {n b entry r} hb hbit := by
    have hland : land top (shl 1 b) = 0 := (land_one_shl (by omega) (by omega)).mpr hbit
    rw [parseBlocks, if_pos hland]
    rfl
  bad {n b entry r} hb hbit hroom hbad := by
    have hland : land top (shl 1 b) ≠ 0 := by
      rw [Ne, land_one_shl (by omega) (by omega), hbit]
      decide
    have hload : loadLittleEndian bs ((entry : Int) + 1) 4 = .ok (leAt bs (entry + 1) 4 : Int) :=
      loadLittleEndian_eq (i := entry + 1) (w := 4) (by decide) (by omega)
    rw [parseBlocks, if_neg hland, element_of_lt (by omega), ok_bind]
    rcases hbad with hrank | hmask
    · rw [rejectIf_of (by omega), error_bind]
    · rw [rejectIf_bind, hload, ok_bind, rejectIf_of (maskBad_iff.mpr hmask), error_bind, ite_self]
  good {n b entry r} hb hbit hroom hgood := by
    have hland : land top (shl 1 b) ≠ 0 := by
      rw [Ne, land_one_shl (by omega) (by omega), hbit]
      decide
    have hload : loadLittleEndian bs ((entry : Int) + 1) 4 = .ok (leAt bs (entry + 1) 4 : Int) :=
      loadLittleEndian_eq (i := entry + 1) (w := 4) (by decide) (by omega)
    have hword : leAt bs (entry + 1) 4 < 2 ^ 32 := leAt_lt bs (entry + 1) 4
    rw [BlockBad, not_or] at hgood
    rw [parseBlocks, if_neg hland, element_of_lt (by omega), ok_bind, rejectIf_of_not (by omega),
      ok_bind, hload, ok_bind, rejectIf_of_not (mt maskBad_iff.mp hgood.2), ok_bind,
      popcount32_eq hword]
    rfl

theorem tinyValid_eq {bs : List UInt8} {dir n : Nat} (hn : 0 < n) (hroom : dir + n ≤ bs.length) :
    tinyValid bs dir n = orRaise malformedMessage ((tinyTags bs dir n).map fun _ => ()) := by
  have hleft : ((n : Int) - 1).toNat = n - 1 := by omega
  rw [tinyValid, element_of_lt (by omega), ok_bind, rejectIf_bind, hleft]
  simp only [Int.natCast_eq_zero]
  apply tinyScan_eq (fun n i => tinyAscends bs dir n i) (fun _ => rfl) _ hn hroom
  intro n i hi hdir
  have htag : element bs ((dir : Int) + i) = .ok (byteAt bs (dir + i) : Int) :=
    element_of_lt (i := dir + i) hdir
  have hbefore : element bs ((dir : Int) + i - 1) = .ok (byteAt bs (dir + i - 1) : Int) := by
    rw [show (dir : Int) + i - 1 = ((dir + i - 1 : Nat) : Int) by omega]
    exact element_of_lt (by omega)
  rw [tinyAscends, htag, ok_bind, hbefore, ok_bind, rejectIf_bind]
  simp only [Int.ofNat_le]
  rfl

/-- The field count a tiny kind announces by its code. -/
def tinyCount : DirectoryKind → Nat
  | .tiny1 => 1
  | .tiny2 => 2
  | .tiny3 => 3
  | _ => 0

theorem element_blockMask {bs : List UInt8} (hlen : 5 ≤ bs.length) :
    element bs ((bs.length : Int) - 2) = .ok (byteAt bs (bs.length - 2) : Int) := by
  rw [show (bs.length : Int) - 2 = ((bs.length - 2 : Nat) : Int) by omega]
  exact element_of_lt (by omega)

theorem directoryShape_eq {bs : List UInt8} (hlen : 5 ≤ bs.length) (kind : DirectoryKind) :
    directoryShape bs ((bs.length - 4 : Nat) : Int) kind.code =
      if kind = .blocks ∧ bs.length - 4 < 2 then .error malformedMessage
      else .ok ((directorySize kind (byteAt bs (bs.length - 2)) : Int), (tinyCount kind : Int)) := by
  cases kind with
  | blocks =>
    have htop := byteAt_lt bs (bs.length - 2)
    have hcount := popcount32_eq (show byteAt bs (bs.length - 2) < 2 ^ 32 by omega)
    rw [popcount_of_lt (show 8 ≤ 32 by decide) htop] at hcount
    change (do
      rejectIf malformedMessage (((bs.length - 4 : Nat) : Int) < 2)
      let blockMask ← element bs ((bs.length : Int) - 2)
      return (1 + 5 * popcount32 blockMask, 0) : Attempt (Int × Int)) = _
    rw [element_blockMask hlen, rejectIf_bind, ok_bind, hcount]
    by_cases hbody : bs.length - 4 < 2
    · rw [if_pos (by omega), if_pos ⟨rfl, hbody⟩]
    · rw [if_neg (by omega), if_neg fun h => hbody h.2, directorySize]
      rfl
  | _ => rfl

section Fields

variable {bs : List UInt8} {n : Nat} (hroom : n + 1 ≤ bs.length - 4)

include hroom

theorem tinyFields_eq (hn : 1 ≤ n ∧ n ≤ 3) :
    (do
      rejectIf malformedMessage (¬((n : Int) = 0 ↔ (n : Int) = 0))
      (if 1 ≤ (n : Int) ∧ (n : Int) ≤ 3 then
        tinyValid bs ((bs.length - 1 - n : Nat) : Int) n else return ())
      return (((bs.length - 1 - n : Nat) : Int), (n : Int), (n : Int)) : Attempt (Int × Int × Int)) =
      orRaise malformedMessage ((tinyTags bs (bs.length - 1 - n) n).map fun tags =>
        (((bs.length - 1 - n : Nat) : Int), (n : Int), (tags.length : Int))) := by
  rw [rejectIf_of_not (by tauto), ok_bind, if_pos (by omega), tinyValid_eq hn.1 (by omega)]
  cases htags : tinyTags bs (bs.length - 1 - n) n with
  | none => rfl
  | some tags =>
    rw [Option.map_some, Option.map_some, tinyTags_length htags]
    rfl

theorem maskFields_eq (hn : n = 1 ∨ n = 2 ∨ n = 4) {code : Int} (hcode : 3 < code) :
    (do
      let fieldCount ← (return popcount32 (← loadLittleEndian bs ((bs.length - 1 - n : Nat) : Int) n))
      rejectIf malformedMessage (¬(fieldCount = 0 ↔ code = 0))
      (if 1 ≤ code ∧ code ≤ 3 then
        tinyValid bs ((bs.length - 1 - n : Nat) : Int) fieldCount else return ())
      return (((bs.length - 1 - n : Nat) : Int), (n : Int), fieldCount) : Attempt (Int × Int × Int)) =
      orRaise malformedMessage ((maskTags bs (bs.length - 1 - n) n).map fun tags =>
        (((bs.length - 1 - n : Nat) : Int), (n : Int), (tags.length : Int))) := by
  have hlt : leAt bs (bs.length - 1 - n) n < 2 ^ 32 := by
    refine Nat.lt_of_lt_of_le (leAt_lt bs (bs.length - 1 - n) n) ?_
    rcases hn with rfl | rfl | rfl <;> decide
  rw [loadLittleEndian_eq hn (by omega), ok_bind, pure_eq_ok, ok_bind, popcount32_eq hlt]
  rcases maskTags_cases bs (bs.length - 1 - n) (show n ≤ 4 by omega) with
    ⟨hzero, hnone⟩ | ⟨tags, hpos, hsome, hcount⟩
  · rw [rejectIf_of (by omega), error_bind, hnone]
    rfl
  · rw [rejectIf_of_not (by omega), ok_bind, if_neg (by omega), hsome, Option.map_some, hcount]
    rfl

theorem blockFields_eq (hlen : 5 ≤ bs.length) (hpos : 0 < n)
    (hn : n = 1 + 5 * popcount 8 (byteAt bs (bs.length - 2))) :
    (do
      let fieldCount ← (do
        let blockMask ← element bs (((bs.length - 1 - n : Nat) : Int) + n - 1)
        rejectIf malformedMessage (blockMask = 0)
        parseBlocks bs blockMask 8 0 ((bs.length - 1 - n : Nat) : Int) 0)
      rejectIf malformedMessage (¬(fieldCount = 0 ↔ (7 : Int) = 0))
      (if (1 : Int) ≤ 7 ∧ (7 : Int) ≤ 3 then
        tinyValid bs ((bs.length - 1 - n : Nat) : Int) fieldCount else return ())
      return (((bs.length - 1 - n : Nat) : Int), (n : Int), fieldCount) : Attempt (Int × Int × Int)) =
      orRaise malformedMessage ((directoryTags bs .blocks (bs.length - 1 - n)).map fun tags =>
        (((bs.length - 1 - n : Nat) : Int), (n : Int), (tags.length : Int))) := by
  have htop := byteAt_lt bs (bs.length - 2)
  have hmask : element bs (((bs.length - 1 - n : Nat) : Int) + n - 1) =
      .ok (byteAt bs (bs.length - 2) : Int) := by
    rw [← element_blockMask hlen]
    congr 1
    omega
  have hscan := (parseBlocks_scan bs htop).eq 8 0 (bs.length - 1 - n) 0 rfl (by rw [zero_popcount]; omega)
  rw [hmask, ok_bind, directoryTags]
  by_cases hzero : byteAt bs (bs.length - 2) = 0
  · rw [rejectIf_of (by omega), error_bind, error_bind, if_pos hzero]
    rfl
  · rw [rejectIf_of_not (by omega), ok_bind, if_neg hzero]
    change (do
      let fieldCount ← parseBlocks bs (byteAt bs (bs.length - 2) : Int) 8 ((0 : Nat) : Int)
        ((bs.length - 1 - n : Nat) : Int) ((0 : Nat) : Int)
      _ : Attempt (Int × Int × Int)) = _
    rw [hscan]
    cases htags : blockTags bs (byteAt bs (bs.length - 2)) 8 0 (bs.length - 1 - n) 0 with
    | none => rfl
    | some tags =>
      have hnil := blockTags_top_ne_nil htop hzero htags
      rw [Option.map_some, orRaise_some, ok_bind, rejectIf_of_not (by omega), ok_bind, if_neg (by omega),
        Nat.zero_add]
      rfl

end Fields

theorem directoryFields_eq {bs : List UInt8} (hlen : 5 ≤ bs.length) (kind : DirectoryKind) {n : Nat}
    (hn : directorySize kind (byteAt bs (bs.length - 2)) = n) (hroom : n + 1 ≤ bs.length - 4) :
    (do
      let fieldCount ← directoryFields bs kind.code ((bs.length - 1 - n : Nat) : Int) n
        (tinyCount kind)
      rejectIf malformedMessage (¬(fieldCount = 0 ↔ (kind.code : Int) = 0))
      (if 1 ≤ (kind.code : Int) ∧ (kind.code : Int) ≤ 3 then
        tinyValid bs ((bs.length - 1 - n : Nat) : Int) fieldCount else return ())
      return (((bs.length - 1 - n : Nat) : Int), (n : Int), fieldCount) : Attempt (Int × Int × Int)) =
      orRaise malformedMessage ((directoryTags bs kind (bs.length - 1 - n)).map fun tags =>
        (((bs.length - 1 - n : Nat) : Int), (n : Int), (tags.length : Int))) := by
  cases kind with
  | empty => rfl
  | tiny1 | tiny2 | tiny3 =>
    subst hn
    exact tinyFields_eq hroom (by rw [directorySize]; decide)
  | mask8 | mask16 | mask32 =>
    subst hn
    exact maskFields_eq hroom (by rw [directorySize]; decide) (by decide)
  | blocks => exact blockFields_eq hroom hlen (by rw [directorySize] at hn; omega) hn.symm

theorem parseDirectory_eq {bs : List UInt8} (hlen : 5 ≤ bs.length) (kind : DirectoryKind) :
    parseDirectory bs ((bs.length - 4 : Nat) : Int) kind.code =
      orRaise malformedMessage ((locate bs kind).map fun tags =>
        (((bs.length - 1 - directorySize kind (byteAt bs (bs.length - 2)) : Nat) : Int),
          (directorySize kind (byteAt bs (bs.length - 2)) : Int), (tags.length : Int))) := by
  unfold parseDirectory
  rw [directoryShape_eq hlen]
  by_cases hshort : kind = .blocks ∧ bs.length - 4 < 2
  · have hsize : ¬directorySize kind (byteAt bs (bs.length - 2)) + 1 ≤ bs.length - 4 := by
      rw [hshort.1, directorySize]
      omega
    rw [if_pos hshort, error_bind, locate_of_short kind rfl hsize]
    rfl
  rw [if_neg hshort, ok_bind]
  dsimp only
  by_cases hroom : directorySize kind (byteAt bs (bs.length - 2)) + 1 ≤ bs.length - 4
  · have hdir : (bs.length : Int) - 1 - (directorySize kind (byteAt bs (bs.length - 2)) : Int) =
        ((bs.length - 1 - directorySize kind (byteAt bs (bs.length - 2)) : Nat) : Int) := by omega
    rw [rejectIf_of_not (by omega), ok_bind, locate_of_room kind rfl hroom, hdir]
    exact directoryFields_eq hlen kind rfl hroom
  · rw [rejectIf_of (by omega), error_bind, locate_of_short kind rfl hroom]
    rfl

/-! ## The reader -/

/-- The index `parseMessageIndex` fills in. -/
def indexOf (d : Decoded) : ParsedMessageIndex :=
  ⟨d.boundaries, d.boundaries, d.directory, d.tags.length, d.width, d.kind.code⟩

theorem load_boundary {bs : List UInt8} {d : Decoded} (h : d.Sound bs) {i : Nat}
    (hi : i + 1 < d.tags.length) :
    loadLittleEndian bs ((d.boundaries : Int) + i * d.width) d.width = .ok (d.boundary bs i : Int) := by
  have hroom := h.boundary_room hi
  have hlayout := h.layout
  have hoffset : (d.boundaries : Int) + i * d.width = ((d.boundaries + i * d.width : Nat) : Int) := by
    push_cast
    rfl
  rw [hoffset, loadLittleEndian_eq h.width_cases (by omega)]
  rfl

theorem boundariesAscend_step {bs : List UInt8} {d : Decoded} (h : d.Sound bs) (n i previous : Nat)
    (hi : i + 1 < d.tags.length) :
    boundariesAscend bs d.boundaries d.width d.boundaries (n + 1) i previous =
      if d.boundary bs i < previous ∨ d.boundary bs i > d.payloadSize then .error malformedMessage
      else boundariesAscend bs d.boundaries d.width d.boundaries n ((i + 1 : Nat) : Int)
        (d.boundary bs i) := by
  have hlayout := h.layout
  have htest : ((d.boundary bs i : Int) < previous ∨
      (d.boundary bs i : Int) > (d.boundaries : Int) - 4) ↔
      (d.boundary bs i < previous ∨ d.boundary bs i > d.payloadSize) := by
    unfold Decoded.payloadSize
    omega
  rw [boundariesAscend, load_boundary h hi, ok_bind, rejectIf_bind]
  simp only [htest]
  rfl

theorem parseMessageIndex_eq (bs : List UInt8) :
    parseMessageIndex bs = orRaise malformedMessage ((decode bs).map indexOf) := by
  unfold parseMessageIndex
  by_cases hok : HeaderOk bs
  swap
  · rw [parseHeader_of_not hok, decode, decodeDirectory_of_not_header hok]
    rfl
  obtain ⟨kind, hkind⟩ := hok.kind
  rw [parseHeader_of_ok hok, ok_bind, DirectoryKind.code_of_ofCode hkind]
  dsimp only
  rw [parseDirectory_eq hok.1]
  cases hloc : locate bs kind with
  | none =>
    rw [decode, decodeDirectory_of_unlocated hok hkind hloc]
    rfl
  | some tags =>
    have hlen := hok.1
    have hroom := (locate_eq_some hloc).1
    obtain ⟨d, hd⟩ : ∃ d, d = located bs kind tags := ⟨_, rfl⟩
    refine Eq.trans ?_ (readBoundaries_eq (e := malformedMessage)
      (fun n i previous => boundariesAscend bs d.boundaries d.width d.boundaries n i previous)
      hok hkind hloc hd indexOf (fun _ _ => rfl) ?_)
    swap
    · exact fun h => boundariesAscend_step h
    subst hd
    -- the counts and offsets are those of the format
    have hcount : max 0 ((tags.length : Int) - 1) = ((tags.length - 1 : Nat) : Int) := by omega
    have hsize : ((tags.length - 1 : Nat) : Int) * ((2 ^ (control bs % 4) : Nat) : Int) =
        (((tags.length - 1) * 2 ^ (control bs % 4) : Nat) : Int) := (Int.natCast_mul _ _).symm
    simp only [Option.map_some, orRaise_some, ok_bind, hcount, hsize, Int.toNat_natCast]
    change _ = if (tags.length - 1) * 2 ^ (control bs % 4) +
      directorySize kind (byteAt bs (bs.length - 2)) + 1 > bs.length - 4 then _ else _
    by_cases hfit : (tags.length - 1) * 2 ^ (control bs % 4) +
        directorySize kind (byteAt bs (bs.length - 2)) + 1 > bs.length - 4
    · rw [rejectIf_of (by omega), if_pos hfit, error_bind]
    · have hbound : ((bs.length - 1 - directorySize kind (byteAt bs (bs.length - 2)) : Nat) : Int) -
          (((tags.length - 1) * 2 ^ (control bs % 4) : Nat) : Int) =
          ((located bs kind tags).boundaries : Int) := by
        change _ = ((bs.length - 1 - directorySize kind (byteAt bs (bs.length - 2)) -
          (tags.length - 1) * 2 ^ (control bs % 4) : Nat) : Int)
        omega
      have hpay : ((tags.length : Int) = 0 ∧ ((located bs kind tags).boundaries : Int) ≠ 4) ↔
          (tags.length = 0 ∧ (located bs kind tags).boundaries ≠ 4) := by omega
      rw [rejectIf_of_not (by omega), if_neg hfit, ok_bind, hbound]
      simp only [rejectIf_bind, hpay]
      rfl

end Bebop.TypeScript
