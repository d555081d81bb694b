import Bebop.Lib.CString

/-!
# Bebop — the text of a UUID in C

`bebop_uuid_parse` and `bebop_uuid_format` of `bebop_wire.c`. The parser takes two digits for
each of sixteen bytes and skips hyphens between them. It stops behind the sixteenth byte and
does not look at what follows.
-/

namespace Bebop.C

open Bytes

/-- `Bebop_UUID` -/
@[ext]
structure UUID where
  bytes : List UInt8
  size : bytes.length = 16
  deriving DecidableEq

/-- `(Bebop_UUID) {0}` -/
def UUID.zero : UUID := ⟨List.replicate 16 0, rfl⟩

def hyphen : UInt8 := 0x2d

/-- `bebop__wire_ascii_to_hex`, without the zeros at the end -/
def asciiToHexTable : List UInt8 := [
  0, 0, 0, 0, 0, 0, 0, 0, 0, 0, 0, 0, 0, 0,  0,  0,  0,  0,  0,  0,  0,  0,  0,  0,  0,  0,
  0, 0, 0, 0, 0, 0, 0, 0, 0, 0, 0, 0, 0, 0,  0,  0,  0,  0,  0,  0,  0,  0,  0,  1,  2,  3,
  4, 5, 6, 7, 8, 9, 0, 0, 0, 0, 0, 0, 0, 10, 11, 12, 13, 14, 15, 0,  0,  0,  0,  0,  0,  0,
  0, 0, 0, 0, 0, 0, 0, 0, 0, 0, 0, 0, 0, 0,  0,  0,  0,  0,  0,  10, 11, 12, 13, 14, 15, 0,
  0, 0, 0, 0, 0, 0, 0, 0, 0, 0, 0, 0, 0, 0,  0,  0,  0,  0,  0,  0]

def asciiToHex (c : UInt8) : UInt8 := asciiToHexTable.getD c.toNat 0

/-- `isxdigit` -/
def isxdigit (c : UInt8) : Bool :=
  (0x30 ≤ c && c ≤ 0x39) || (0x41 ≤ c && c ≤ 0x46) || (0x61 ≤ c && c ≤ 0x66)

/-- The loop of `bebop_uuid_parse`; `none` where the function returns zero. -/
def uuidParseLoop : List UInt8 → List UInt8 → Option (List UInt8)
  | [], bytes => if bytes.length ≠ 16 then none else some bytes
  | [_], bytes =>
    if bytes.length < 16 then
      -- a hyphen is skipped; any other character lacks a second one
      none
    else some bytes
  | c :: d :: s, bytes =>
    if bytes.length < 16 then
      if c = hyphen then uuidParseLoop (d :: s) bytes
      else if !isxdigit c || !isxdigit d then none
      else
        let high := asciiToHex c
        let low := asciiToHex d
        uuidParseLoop s (bytes ++ [(high <<< 4) ||| low])
    else some bytes

/-- `bebop_uuid_parse` -/
def uuidParse (str : CString) : UUID :=
  match uuidParseLoop str.bytes [] with
  | none => .zero
  | some bytes => if h : bytes.length = 16 then ⟨bytes, h⟩ else .zero

/-- `bebop__wire_hex_chars` -/
def hexChars : List UInt8 :=
  [0x30, 0x31, 0x32, 0x33, 0x34, 0x35, 0x36, 0x37, 0x38, 0x39, 0x61, 0x62, 0x63, 0x64, 0x65, 0x66]

/-- The loop of `bebop_uuid_format` from byte `i` on. -/
def uuidFormatFrom : Nat → List UInt8 → List UInt8
  | _, [] => []
  | i, byte :: bytes =>
    (if i = 4 ∨ i = 6 ∨ i = 8 ∨ i = 10 then [hyphen] else []) ++
      hexChars.getD ((byte >>> 4) &&& 0xf).toNat 0 :: hexChars.getD (byte &&& 0xf).toNat 0 ::
        uuidFormatFrom (i + 1) bytes

/-- What `bebop_uuid_format` writes, before the terminator. -/
def uuidFormat (uuid : UUID) : List UInt8 := uuidFormatFrom 0 uuid.bytes

end Bebop.C
