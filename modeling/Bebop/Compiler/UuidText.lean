import Bebop.C.Uuid
import Bebop.Compiler.Scanner
import Bebop.Lib.Loops

/-!
# Bebop — UUID text in the runtime and in the compiler

`bebop_util_parse_uuid` of `bebop_utils.c` reads a digit at fixed places of a text with 36 or 32
characters. The runtime's `bebop_uuid_parse` is a loop that stops behind sixteen bytes, and
accepts texts with characters left that it never looks at (`Overlong`).
-/

namespace Bebop.Compiler

open Bytes C

/-! ## `bebop_util_parse_uuid` -/

/-- `bebop__util_parse_hex_byte` at `at` -/
def utilParseHexByte (str : List UInt8) (at_ : Nat) : Option UInt8 :=
  match hexValue (str.getD at_ 0), hexValue (str.getD (at_ + 1) 0) with
  | some hi, some lo => some (.ofNat (hi <<< 4 ||| lo))
  | _, _ => none

/-- `bebop_util_parse_uuid`, for a text of the given length. -/
def utilParseUuid (str : List UInt8) : Option (List UInt8) :=
  if str.length = 36 then
    if str.getD 8 0 ≠ hyphen ∨ str.getD 13 0 ≠ hyphen ∨ str.getD 18 0 ≠ hyphen ∨
        str.getD 23 0 ≠ hyphen then none
    else
      -- time_low, time_mid, time_hi_and_version, clock_seq and node
      [0, 2, 4, 6, 9, 11, 14, 16, 19, 21, 24, 26, 28, 30, 32, 34].mapM (utilParseHexByte str)
  else if str.length = 32 then ((List.range 16).map (2 * ·)).mapM (utilParseHexByte str)
  else none

/-! ## Digits -/

def hexByte (c d : UInt8) : Option UInt8 := do
  let hi ← hexValue c
  let lo ← hexValue d
  return .ofNat (16 * hi + lo)

theorem forall_uint8 {p : UInt8 → Prop} (h : ∀ i : Fin 256, p (.ofNat i)) (c : UInt8) : p c := by
  have hc := h ⟨c.toNat, c.toNat_lt⟩
  simpa using hc

set_option maxRecDepth 8000 in
theorem hexValue_eq (c : UInt8) :
    hexValue c = if isxdigit c then some (asciiToHex c).toNat else none := by
  revert c
  exact forall_uint8 (by decide)

theorem asciiToHex_lt (c : UInt8) : (asciiToHex c).toNat < 16 := by
  have hall : (asciiToHexTable.all fun v => v.toNat < 16) = true := by decide
  rw [asciiToHex, List.getD_eq_getElem?_getD]
  cases hentry : asciiToHexTable[c.toNat]? with
  | none => decide
  | some v => exact of_decide_eq_true (List.all_eq_true.mp hall v (List.mem_of_getElem? hentry))

theorem hexValue_lt {c : UInt8} {v : Nat} (h : hexValue c = some v) : v < 16 := by
  rw [hexValue_eq] at h
  split at h
  · cases h
    exact asciiToHex_lt c
  · cases h

theorem hexByte_eq (c d : UInt8) :
    hexByte c d =
      if isxdigit c && isxdigit d then some ((asciiToHex c <<< 4) ||| asciiToHex d) else none := by
  have hbyte : UInt8.ofNat (16 * (asciiToHex c).toNat + (asciiToHex d).toNat) =
      (asciiToHex c <<< 4) ||| asciiToHex d := by
    have hhi := asciiToHex_lt c
    have hlo := asciiToHex_lt d
    have hor := Nat.shiftLeft_add_eq_or_of_lt (i := 4) hlo (asciiToHex c).toNat
    rw [Nat.shiftLeft_eq] at hor
    apply UInt8.toNat_inj.mp
    rw [UInt8.toNat_or, UInt8.toNat_shiftLeft, UInt8.toNat_ofNat', Nat.mod_eq_of_lt (by omega)]
    rw [show (4 : UInt8).toNat % 8 = 4 from rfl, Nat.shiftLeft_eq, Nat.mod_eq_of_lt (by omega), ← hor]
    omega
  cases hc : isxdigit c with
  | false => simp [hexByte, hexValue_eq, hc]
  | true =>
    cases hd : isxdigit d with
    | false => simp [hexByte, hexValue_eq, hd]
    | true =>
      rw [hexByte, hexValue_eq, hexValue_eq, if_pos hc, if_pos hd]
      exact congrArg some hbyte

theorem hexByte_format (byte : UInt8) :
    hexByte (hexChars.getD ((byte >>> 4) &&& 0xf).toNat 0)
      (hexChars.getD (byte &&& 0xf).toNat 0) = some byte := by
  have hdigit : ∀ n < 16, hexValue (hexChars.getD n 0) = some n := by decide
  have hlt := byte.toNat_lt
  have hhi : ((byte >>> 4) &&& 0xf).toNat = byte.toNat / 16 := by
    rw [UInt8.toNat_and, UInt8.toNat_shiftRight, show (4 : UInt8).toNat % 8 = 4 from rfl, Nat.shiftRight_eq_div_pow,
      show (0xf : UInt8).toNat = 2 ^ 4 - 1 from rfl, Nat.and_two_pow_sub_one_eq_mod]
    omega
  have hlo : (byte &&& 0xf).toNat = byte.toNat % 16 := by
    rw [UInt8.toNat_and, show (0xf : UInt8).toNat = 2 ^ 4 - 1 from rfl, Nat.and_two_pow_sub_one_eq_mod]
  rw [hexByte, hhi, hlo, hdigit _ (by omega), hdigit _ (by omega)]
  have hsum : 16 * (byte.toNat / 16) + byte.toNat % 16 = byte.toNat := by omega
  have hbyte : UInt8.ofNat (16 * (byte.toNat / 16) + byte.toNat % 16) = byte := by
    rw [hsum, UInt8.ofNat_toNat]
  exact congrArg some hbyte

theorem utilParseHexByte_eq (str : List UInt8) (i : Nat) :
    utilParseHexByte str i = hexByte (str.getD i 0) (str.getD (i + 1) 0) := by
  unfold utilParseHexByte hexByte
  cases hhi : hexValue (str.getD i 0) with
  | none => rfl
  | some hi =>
    cases hlo : hexValue (str.getD (i + 1) 0) with
    | none => rfl
    | some lo =>
      have hor := Nat.shiftLeft_add_eq_or_of_lt (i := 4) (hexValue_lt hlo) hi
      have hbyte : hi <<< 4 ||| lo = 16 * hi + lo := by
        rw [← hor, Nat.shiftLeft_eq]
        omega
      exact congrArg (fun v => some (UInt8.ofNat v)) hbyte

/-! ## What the loop consumes -/

/-- Pairs of digits and their bytes, with hyphens before, between and behind the pairs. -/
inductive HexPairs : List UInt8 → List UInt8 → Prop
  | nil : HexPairs [] []
  | skip {front bytes} : HexPairs front bytes → HexPairs (hyphen :: front) bytes
  | pair {c d front byte bytes} :
    hexByte c d = some byte → HexPairs front bytes →
      HexPairs (c :: d :: front) (byte :: bytes)

inductive Spells : List UInt8 → List UInt8 → Prop
  | nil : Spells [] []
  | pair {c d text byte bytes} :
    hexByte c d = some byte → Spells text bytes → Spells (c :: d :: text) (byte :: bytes)

/-- Sixteen bytes that are not all zero, and then a character that is no hyphen. -/
def Overlong (str : List UInt8) : Prop :=
  ∃ front tail bytes, str = front ++ tail ∧ HexPairs front bytes ∧
    bytes.length = 16 ∧ bytes ≠ List.replicate 16 0 ∧ ∃ c ∈ tail, c ≠ hyphen

def withoutHyphens (str : List UInt8) : List UInt8 := str.filter (· ≠ hyphen)

theorem hexByte_hyphen (d : UInt8) : hexByte hyphen d = none := by
  rw [hexByte_eq, show isxdigit hyphen = false from rfl]
  rfl

theorem hexByte_hyphen_right (c : UInt8) : hexByte c hyphen = none := by
  rw [hexByte_eq, show isxdigit hyphen = false from rfl, Bool.and_false]
  rfl

theorem ne_hyphen_of_hexByte {c d byte : UInt8} (h : hexByte c d = some byte) :
    c ≠ hyphen ∧ d ≠ hyphen := by
  constructor
  · rintro rfl
    rw [hexByte_hyphen] at h
    cases h
  · rintro rfl
    rw [hexByte_hyphen_right] at h
    cases h

theorem uuidParseLoop_pair {c d : UInt8} (hc : c ≠ hyphen) (s bytes : List UInt8)
    (hlen : bytes.length < 16) :
    uuidParseLoop (c :: d :: s) bytes =
      (hexByte c d).bind fun byte => uuidParseLoop s (bytes ++ [byte]) := by
  rw [uuidParseLoop, if_pos hlen, if_neg hc, hexByte_eq]
  cases isxdigit c <;> cases isxdigit d <;> rfl

theorem uuidParseLoop_full {bytes : List UInt8} (h : bytes.length = 16) (s : List UInt8) :
    uuidParseLoop s bytes = some bytes := by
  match s with
  | [] => simp [uuidParseLoop, h]
  | [_] => simp [uuidParseLoop, h]
  | _ :: _ :: _ => simp [uuidParseLoop, h]

theorem uuidParseLoop_consumes {s bytes out : List UInt8} (hlen : bytes.length ≤ 16)
    (h : uuidParseLoop s bytes = some out) :
    out.length = 16 ∧ ∃ front tail rest, s = front ++ tail ∧ HexPairs front rest ∧
      out = bytes ++ rest := by
  by_cases hfull : bytes.length = 16
  · rw [uuidParseLoop_full hfull] at h
    cases h
    exact ⟨hfull, [], s, [], rfl, .nil, (List.append_nil _).symm⟩
  have hlt : bytes.length < 16 := by omega
  match s with
  | [] =>
    rw [uuidParseLoop, if_pos hfull] at h
    cases h
  | [c] =>
    rw [uuidParseLoop, if_pos hlt] at h
    cases h
  | c :: d :: s =>
    by_cases hc : c = hyphen
    · rw [uuidParseLoop, if_pos hlt, if_pos hc] at h
      obtain ⟨hout, front, tail, rest, hs, hpairs, heq⟩ := uuidParseLoop_consumes hlen h
      refine ⟨hout, hyphen :: front, tail, rest, ?_, .skip hpairs, heq⟩
      rw [hs, hc]
      rfl
    · rw [uuidParseLoop_pair hc _ _ hlt] at h
      obtain ⟨byte, hbyte, h⟩ := Option.bind_eq_some_iff.mp h
      have hnext : (bytes ++ [byte]).length ≤ 16 := by
        rw [List.length_append, List.length_singleton]
        omega
      obtain ⟨hout, front, tail, rest, hs, hpairs, heq⟩ := uuidParseLoop_consumes hnext h
      refine ⟨hout, c :: d :: front, tail, byte :: rest, ?_, .pair hbyte hpairs, ?_⟩
      · rw [hs]
        rfl
      · rw [heq, List.append_assoc]
        rfl
termination_by s.length

theorem uuidParseLoop_of_pairs {front rest : List UInt8} (h : HexPairs front rest)
    (tail bytes : List UInt8) (hlen : bytes.length + rest.length = 16) :
    uuidParseLoop (front ++ tail) bytes = some (bytes ++ rest) := by
  induction h generalizing bytes with
  | nil =>
    rw [uuidParseLoop_full (by simpa using hlen), List.append_nil]
  | @skip front rest hpairs ih =>
    by_cases hfull : bytes.length = 16
    · -- nothing is left to spell
      have hrest : rest = [] := List.length_eq_zero_iff.mp (by omega)
      rw [uuidParseLoop_full hfull, hrest, List.append_nil]
    · have hnext := ih bytes hlen
      cases hs : front ++ tail with
      | nil =>
        rw [hs, uuidParseLoop, if_pos hfull] at hnext
        cases hnext
      | cons d s =>
        rw [List.cons_append, hs, uuidParseLoop, if_pos (by omega), if_pos rfl, ← hs]
        exact hnext
  | @pair c d front byte rest hbyte hpairs ih =>
    rw [List.length_cons] at hlen
    have hc := (ne_hyphen_of_hexByte hbyte).1
    rw [List.cons_append, List.cons_append, uuidParseLoop_pair hc _ _ (by omega), hbyte,
      Option.bind_some, ih _ (by simp; omega), List.append_assoc]
    rfl

/-! ## Pairs and their digits -/

theorem HexPairs.spells {front bytes : List UInt8} (h : HexPairs front bytes) :
    Spells (withoutHyphens front) bytes := by
  induction h with
  | nil => exact .nil
  | skip _ ih => simpa [withoutHyphens] using ih
  | pair hbyte _ ih =>
    obtain ⟨hc, hd⟩ := ne_hyphen_of_hexByte hbyte
    simpa [withoutHyphens, hc, hd] using Spells.pair hbyte ih

theorem Spells.length {text bytes : List UInt8} (h : Spells text bytes) :
    text.length = 2 * bytes.length := by
  induction h with
  | nil => rfl
  | pair _ _ ih =>
    simp only [List.length_cons, ih]
    omega

theorem HexPairs.zero_not_mem {front bytes : List UInt8} (h : HexPairs front bytes) :
    0 ∉ front := by
  induction h with
  | nil => simp
  | skip _ ih => simpa [hyphen] using ih
  | @pair c d front byte bytes hbyte _ ih =>
    have hzero : isxdigit 0 = false := by decide
    simp only [List.mem_cons, not_or]
    refine ⟨?_, ?_, ih⟩
    · rintro rfl
      rw [hexByte_eq, hzero] at hbyte
      cases hbyte
    · rintro rfl
      rw [hexByte_eq, hzero, Bool.and_false] at hbyte
      cases hbyte

/-! ## The formatted text -/

theorem hexPairs_format (i : Nat) (bytes : List UInt8) :
    HexPairs (uuidFormatFrom i bytes) bytes := by
  induction bytes generalizing i with
  | nil => exact .nil
  | cons byte bytes ih =>
    have hpair := HexPairs.pair (hexByte_format byte) (ih (i + 1))
    unfold uuidFormatFrom
    split
    · exact .skip hpair
    · exact hpair

/-- The text that `bebop_uuid_format` leaves in its buffer. -/
def formatted (uuid : UUID) : CString :=
  ⟨uuidFormat uuid, (hexPairs_format 0 uuid.bytes).zero_not_mem⟩

theorem uuidParse_formatted (uuid : UUID) : uuidParse (formatted uuid) = uuid := by
  have hloop := uuidParseLoop_of_pairs (hexPairs_format 0 uuid.bytes) [] [] (by simp [uuid.size])
  rw [List.append_nil, List.nil_append] at hloop
  have hparse : uuidParseLoop (formatted uuid).bytes [] = some uuid.bytes := hloop
  simp [uuidParse, hparse, uuid.size]

theorem utilParseUuid_formatted (uuid : UUID) :
    utilParseUuid (formatted uuid).bytes = some uuid.bytes := by
  obtain ⟨bytes, size⟩ := uuid
  have hofFn (n : Nat) (hn : bytes.length = n) : ∃ b : Fin n → UInt8, bytes = List.ofFn b := by
    cases hn
    exact ⟨fun i => bytes[i], (List.ofFn_getElem).symm⟩
  obtain ⟨b, rfl⟩ := hofFn 16 size
  -- every pair stands where the compiler reads it
  have hread (i : Nat) (byte : UInt8)
      (hhi : (uuidFormatFrom 0 (List.ofFn b)).getD i 0
        = hexChars.getD ((byte >>> 4) &&& 0xf).toNat 0)
      (hlo : (uuidFormatFrom 0 (List.ofFn b)).getD (i + 1) 0
        = hexChars.getD (byte &&& 0xf).toNat 0) :
      utilParseHexByte (uuidFormatFrom 0 (List.ofFn b)) i = some byte := by
    rw [utilParseHexByte_eq, hhi, hlo, hexByte_format]
  show utilParseUuid (uuidFormatFrom 0 (List.ofFn b)) = some (List.ofFn b)
  have hlen : (uuidFormatFrom 0 (List.ofFn b)).length = 36 := rfl
  rw [utilParseUuid, if_pos hlen, if_neg (by rintro (h | h | h | h) <;> exact h rfl)]
  have hpairs : List.Forall₂ (fun i byte => utilParseHexByte (uuidFormatFrom 0 (List.ofFn b)) i
      = some byte) [0, 2, 4, 6, 9, 11, 14, 16, 19, 21, 24, 26, 28, 30, 32, 34] (List.ofFn b) := by
    iterate 16 refine .cons (hread _ _ rfl rfl) ?_
    exact .nil
  exact Loops.mapM_of_forall₂ hpairs

/-! ## When the runtime's parser is strict -/

theorem uuidParse_ne_zero {str : CString} (h : uuidParse str ≠ .zero) :
    ∃ front tail, str.bytes = front ++ tail ∧ HexPairs front (uuidParse str).bytes := by
  unfold uuidParse at h ⊢
  cases hloop : uuidParseLoop str.bytes [] with
  | none =>
    rw [hloop] at h
    exact absurd rfl h
  | some bytes =>
    obtain ⟨hsize, front, tail, rest, hs, hpairs, heq⟩ := uuidParseLoop_consumes (by simp) hloop
    refine ⟨front, tail, hs, ?_⟩
    have hrest : rest = bytes := by rw [heq, List.nil_append]
    rw [hrest] at hpairs
    simpa [hsize] using hpairs

theorem uuidParse_of_pairs {str : CString} {front tail bytes : List UInt8}
    (hs : str.bytes = front ++ tail) (hpairs : HexPairs front bytes) (hsize : bytes.length = 16) :
    uuidParse str = ⟨bytes, hsize⟩ := by
  have hloop := uuidParseLoop_of_pairs hpairs tail [] (by simpa using hsize)
  rw [← hs, List.nil_append] at hloop
  simp [uuidParse, hloop, hsize]

/-- A UUID that is not zero is the value of the whole text, without its hyphens. -/
def StrictAt (str : CString) : Prop :=
  uuidParse str ≠ .zero → Spells (withoutHyphens str.bytes) (uuidParse str).bytes

theorem strictAt_of_not_overlong {str : CString} (h : ¬Overlong str.bytes) : StrictAt str := by
  intro hne
  obtain ⟨front, tail, hs, hpairs⟩ := uuidParse_ne_zero hne
  have htail : ∀ c ∈ tail, c = hyphen := by
    by_contra hc
    push Not at hc
    have hbytes : (uuidParse str).bytes ≠ List.replicate 16 0 := by
      intro hzero
      exact hne (UUID.ext hzero)
    exact h ⟨front, tail, _, hs, hpairs, (uuidParse str).size, hbytes, hc⟩
  have hfilter : withoutHyphens tail = [] := by
    simpa [withoutHyphens, List.filter_eq_nil_iff] using htail
  have hall : withoutHyphens str.bytes = withoutHyphens front := by
    rw [hs, withoutHyphens, List.filter_append]
    show withoutHyphens front ++ withoutHyphens tail = _
    rw [hfilter, List.append_nil]
  rw [hall]
  exact hpairs.spells

theorem not_strictAt_of_overlong {str : CString} (h : Overlong str.bytes) : ¬StrictAt str := by
  obtain ⟨front, tail, bytes, hs, hpairs, hsize, hbytes, c, hc, hne⟩ := h
  intro hstrict
  have hparse := uuidParse_of_pairs hs hpairs hsize
  rw [StrictAt, hparse] at hstrict
  have hspells := hstrict fun hzero => hbytes (congrArg UUID.bytes hzero)
  -- the digits of `front` are already the 32 that the bytes have
  have hfront := hpairs.spells.length
  have hwhole : (withoutHyphens str.bytes).length = 2 * bytes.length := hspells.length
  have hmem : c ∈ withoutHyphens tail := by simp [withoutHyphens, hc, hne]
  have hpos := List.length_pos_of_mem hmem
  have hsplit : (withoutHyphens str.bytes).length
      = (withoutHyphens front).length + (withoutHyphens tail).length := by
    rw [hs, withoutHyphens, List.filter_append, List.length_append]
    rfl
  omega

/-- Both parsers read a formatted UUID back. The runtime's parser is strict about a text unless
characters other than hyphens follow the sixteenth byte. -/
theorem uuid_text_strict_iff (uuid : UUID) (str : CString) :
    uuidParse (formatted uuid) = uuid ∧ utilParseUuid (formatted uuid).bytes = some uuid.bytes ∧
      (StrictAt str ↔ ¬Overlong str.bytes) := by
  refine ⟨uuidParse_formatted uuid, utilParseUuid_formatted uuid, ?_, strictAt_of_not_overlong⟩
  intro hstrict hlong
  exact not_strictAt_of_overlong hlong hstrict

/-- `12345678-1234-5678-9abc-def012345678` -/
def sampleUuid : UUID :=
  ⟨[0x12, 0x34, 0x56, 0x78, 0x12, 0x34, 0x56, 0x78, 0x9a, 0xbc, 0xde, 0xf0, 0x12, 0x34, 0x56, 0x78],
    rfl⟩

/-- The text of `sampleUuid` with `xyz` behind it. -/
def trailingText : CString :=
  ⟨uuidFormat sampleUuid ++ [0x78, 0x79, 0x7a], by decide +kernel⟩

theorem trailingText_not_strict :
    ¬∀ (uuid : UUID) (str : CString),
      uuidParse (formatted uuid) = uuid ∧ utilParseUuid (formatted uuid).bytes = some uuid.bytes ∧
        StrictAt str := by
  intro h
  have hlong : Overlong trailingText.bytes :=
    ⟨uuidFormat sampleUuid, [0x78, 0x79, 0x7a], sampleUuid.bytes, rfl, hexPairs_format 0 _, rfl,
      by decide, 0x78, by decide, by decide⟩
  exact not_strictAt_of_overlong hlong (h sampleUuid trailingText).2.2

end Bebop.Compiler
