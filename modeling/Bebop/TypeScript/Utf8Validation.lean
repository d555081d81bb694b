import Bebop.TypeScript.StringCodec
import Bebop.Compiler.Utf8

/-!
# Bebop — which bytes are UTF-8, and how many a string has

`validateUtf8` and `utf8ByteLength` of `wire.ts`. The first takes the bytes one code point
at a time, as the loop of `decodeUtf8` does, and the compiler's `bebop_utf8_valid` does the
same by other checks. The second counts the bytes that `writeString` puts between the
length and the zero byte.
-/

namespace Bebop.TypeScript

open Bytes Checked Unicode

/-- A round of `validateUtf8`, after its first byte: what follows the code point. -/
def validateCodePoint (a : Nat) (rest : List UInt8) : Rpc.Attempt (List UInt8) :=
  if a < 0x80 then .ok rest
  else if a ≥ 0xc2 ∧ a < 0xe0 then do
    let (_, rest) ← continuation rest
    return rest
  else if a ≥ 0xe0 ∧ a < 0xf0 then do
    let (b, rest) ← continuation rest
    let (_, rest) ← continuation rest
    rejectIf invalidUtf8 ((a = 0xe0 ∧ b < 0xa0) ∨ (a = 0xed ∧ b ≥ 0xa0))
    return rest
  else if a ≥ 0xf0 ∧ a < 0xf5 then do
    let (b, rest) ← continuation rest
    let (_, rest) ← continuation rest
    let (_, rest) ← continuation rest
    rejectIf invalidUtf8 ((a = 0xf0 ∧ b < 0x90) ∨ (a = 0xf4 ∧ b ≥ 0x90))
    return rest
  else .error invalidUtf8

/-- The loop of `validateUtf8`, where a round takes a byte or more. -/
def validateLoop : Nat → List UInt8 → Rpc.Attempt Unit
  | _, [] => .ok ()
  | 0, _ :: _ => .error .fault
  | fuel + 1, a :: rest => do
    let rest ← validateCodePoint a.toNat rest
    validateLoop fuel rest

def validateUtf8 (bytes : List UInt8) : Rpc.Attempt Unit := validateLoop bytes.length bytes

/-- The code unit after the last is zero, which is no surrogate. -/
def utf8ByteLength : List UInt16 → Nat
  | [] => 0
  | [first] => if first.toNat < 0x80 then 1 else if first.toNat < 0x800 then 2 else 3
  | first :: second :: rest =>
    if first.toNat < 0x80 then 1 + utf8ByteLength (second :: rest)
    else if first.toNat < 0x800 then 2 + utf8ByteLength (second :: rest)
    else if first.toNat ≥ 0xd800 ∧ first.toNat ≤ 0xdbff then
      -- the pair is taken at once
      if second.toNat ≥ 0xdc00 ∧ second.toNat ≤ 0xdfff then 4 + utf8ByteLength rest
      else 3 + utf8ByteLength (second :: rest)
    else 3 + utf8ByteLength (second :: rest)

/-! ## Code points -/

theorem continuation_eq_ok {bytes rest : List UInt8} {b : Nat} (h : continuation bytes = .ok (b, rest)) :
    ∃ byte : UInt8, bytes = byte :: rest ∧ b = byte.toNat ∧ byte.toNat &&& 0xc0 = 0x80 := by
  cases bytes with
  | nil => cases h
  | cons byte bytes =>
    rw [continuation] at h
    split at h
    · cases h
    · rename_i hmark
      cases h
      exact ⟨byte, rfl, rfl, not_not.mp hmark⟩

theorem readCodePoint_iff {a : UInt8} {bytes rest : List UInt8} {n : Nat} :
    readCodePoint a.toNat bytes = .ok (n, rest) ↔ ∃ form, Utf8Shape n form ∧ a :: bytes = form ++ rest := by
  constructor
  · intro h
    unfold readCodePoint at h
    split at h
    · rename_i ha
      cases h
      exact ⟨[a], .of_one ha, rfl⟩
    · split at h
      · rename_i ha
        obtain ⟨⟨_, _⟩, hcall, h⟩ := bind_ok h
        obtain ⟨b, rfl, rfl, hb⟩ := continuation_eq_ok hcall
        cases h
        exact ⟨[a, b], .of_two ha hb, rfl⟩
      · split at h
        · rename_i ha
          obtain ⟨⟨_, _⟩, hcall, h⟩ := bind_ok h
          obtain ⟨b, rfl, rfl, hb⟩ := continuation_eq_ok hcall
          obtain ⟨⟨_, _⟩, hcall, h⟩ := bind_ok h
          obtain ⟨c, rfl, rfl, hc⟩ := continuation_eq_ok hcall
          obtain ⟨_, hchecked, h⟩ := bind_ok h
          have hchecked := rejectIf_ok hchecked
          cases h
          exact ⟨[a, b, c], .of_three ha hb hc (by omega) (by omega), rfl⟩
        · split at h
          · rename_i ha
            obtain ⟨⟨_, _⟩, hcall, h⟩ := bind_ok h
            obtain ⟨b, rfl, rfl, hb⟩ := continuation_eq_ok hcall
            obtain ⟨⟨_, _⟩, hcall, h⟩ := bind_ok h
            obtain ⟨c, rfl, rfl, hc⟩ := continuation_eq_ok hcall
            obtain ⟨⟨_, _⟩, hcall, h⟩ := bind_ok h
            obtain ⟨d, rfl, rfl, hd⟩ := continuation_eq_ok hcall
            obtain ⟨_, hchecked, h⟩ := bind_ok h
            have hchecked := rejectIf_ok hchecked
            cases h
            exact ⟨[a, b, c, d], .of_four ha hb hc hd (by omega) (by omega), rfl⟩
          · cases h
  · rintro ⟨form, hshape, hbytes⟩
    cases form with
    | nil => cases hshape
    | cons first form =>
      obtain ⟨rfl, rfl⟩ := List.cons.inj hbytes
      exact readCodePoint_shape hshape rest

theorem validateCodePoint_eq (a : Nat) (rest : List UInt8) :
    validateCodePoint a rest = (readCodePoint a rest).map Prod.snd := by
  unfold validateCodePoint readCodePoint
  split
  · rfl
  · split
    · cases continuation rest with
      | error e => rfl
      | ok b => rfl
    · split
      · cases continuation rest with
        | error e => rfl
        | ok b =>
          rw [ok_bind, ok_bind]
          dsimp only
          cases continuation b.2 with
          | error e => rfl
          | ok c =>
            rw [ok_bind, ok_bind, rejectIf_bind, rejectIf_bind]
            split <;> rfl
      · split
        · cases continuation rest with
          | error e => rfl
          | ok b =>
            rw [ok_bind, ok_bind]
            dsimp only
            cases continuation b.2 with
            | error e => rfl
            | ok c =>
              rw [ok_bind, ok_bind]
              cases continuation c.2 with
              | error e => rfl
              | ok d =>
                rw [ok_bind, ok_bind, rejectIf_bind, rejectIf_bind]
                split <;> rfl
        · rfl

/-! ## Whole texts -/

theorem validateLoop_eq (fuel : Nat) (bytes : List UInt8) :
    validateLoop fuel bytes = (decodeLoop fuel bytes).map fun _ => () := by
  induction fuel generalizing bytes with
  | zero => cases bytes <;> rfl
  | succ fuel ih =>
    cases bytes with
    | nil => rfl
    | cons a rest =>
      rw [validateLoop, decodeLoop, validateCodePoint_eq]
      cases readCodePoint a.toNat rest with
      | error e => rfl
      | ok read =>
        change validateLoop fuel read.2 = _
        rw [ih, ok_bind]
        dsimp only
        cases decodeLoop fuel read.2 with
        | error e => rfl
        | ok value => rfl

theorem decodeLoop_iff (bytes : List UInt8) :
    (∃ value, decodeLoop bytes.length bytes = .ok value) ↔ WellFormedUtf8 bytes := by
  refine @accepts_iff_wellFormedUtf8 (fun fuel bytes => ∃ value, decodeLoop fuel bytes = .ok value)
    ?_ ?_ _ _ (Nat.le_refl _)
  · intro fuel
    exact ⟨[], by cases fuel <;> rfl⟩
  · intro fuel a bytes
    rw [decodeLoop]
    constructor
    · rintro ⟨value, h⟩
      obtain ⟨⟨n, rest⟩, hread, h⟩ := bind_ok h
      obtain ⟨tail, htail, -⟩ := bind_ok h
      obtain ⟨form, hshape, hbytes⟩ := readCodePoint_iff.mp hread
      exact ⟨n, form, rest, hshape, hbytes, tail, htail⟩
    · rintro ⟨n, form, rest, hshape, hbytes, tail, htail⟩
      refine ⟨fromCodePoint n ++ tail, ?_⟩
      rw [readCodePoint_iff.mpr ⟨form, hshape, hbytes⟩, ok_bind]
      dsimp only
      rw [htail]
      rfl

theorem validateUtf8_iff (bytes : List UInt8) : validateUtf8 bytes = .ok () ↔ WellFormedUtf8 bytes := by
  rw [validateUtf8, validateLoop_eq, ← decodeLoop_iff]
  cases decodeLoop bytes.length bytes with
  | error e => exact ⟨nofun, nofun⟩
  | ok value => exact iff_of_true rfl ⟨value, rfl⟩

/-! ## Lengths -/

theorem length_single (unit : UInt16) : (String.utf8EncodeChar (single unit)).length =
    if unit.toNat < 0x80 then 1 else if unit.toNat < 0x800 then 2 else 3 := by
  rw [(utf8Shape _).length_eq, toNat_single]
  have hlt := unit.toNat_lt
  split
  · rename_i hlone
    rw [isHighSurrogate_iff, isLowSurrogate_iff] at hlone
    rw [if_neg (by omega), if_neg (by omega), if_pos (by omega), if_neg (by omega), if_neg (by omega)]
  · rfl

theorem utf8ByteLength_eq (value : List UInt16) : utf8ByteLength value = (utf8 (scalars value)).length := by
  induction value using scalars.induct with
  | case1 => rfl
  | case2 a =>
    rw [utf8ByteLength, scalars, length_utf8_cons, length_single]
    rfl
  | case3 a b rest hpair ih =>
    have hhigh := isHighSurrogate_iff.mp hpair.1
    have hlow := isLowSurrogate_iff.mp hpair.2
    have hcode : 0x10000 ≤ pairCodePoint a b := by
      unfold pairCodePoint
      omega
    rw [utf8ByteLength, if_neg (by omega), if_neg (by omega), if_pos hhigh, if_pos hlow, ih, scalars,
      if_pos hpair, length_utf8_cons, (utf8Shape _).length_eq, toNat_pair hpair.1 hpair.2,
      if_neg (by omega), if_neg (by omega), if_neg (by omega)]
  | case4 a b rest hpair ih =>
    rw [isHighSurrogate_iff, isLowSurrogate_iff] at hpair
    rw [scalars, if_neg (by rwa [isHighSurrogate_iff, isLowSurrogate_iff]), length_utf8_cons, ← ih,
      length_single, utf8ByteLength]
    split
    · rfl
    · split
      · rfl
      · split
        · rw [if_neg (by omega)]
        · rfl

/-- The three tests accept the well-formed bytes, and a writer puts as many bytes as
`utf8ByteLength` says between the length and the zero byte, unless it throws. -/
theorem utf8_acceptance_agrees :
    (∀ bytes : List UInt8, (validateUtf8 bytes = .ok () ↔ WellFormedUtf8 bytes) ∧
      ((∃ value, decodeLoop bytes.length bytes = .ok value) ↔ WellFormedUtf8 bytes) ∧
      (Compiler.utf8Valid bytes = true ↔ WellFormedUtf8 bytes)) ∧
    ∀ (writer : BebopWriter) (value : List UInt16),
      (∃ writer' content, writer.writeString value = .ok writer' ∧
        writer'.toArray = writer.toArray ++ (leBytes 4 content.length ++ (content ++ [0])) ∧
        content.length = utf8ByteLength value ∧ utf8ByteLength value ≤ 0xffffffff) ∨
      ((writer.fixed = true ∨ 0xffffffff < utf8ByteLength value) ∧
        ∃ error, writer.writeString value = .error error) := by
  refine ⟨fun bytes => ⟨validateUtf8_iff bytes, decodeLoop_iff bytes, Compiler.utf8Valid_iff bytes⟩, ?_⟩
  intro writer value
  rw [utf8ByteLength_eq]
  rcases writer.writeString_cases value with ⟨writer', hwrite, hlimit, harray⟩ | ⟨hwhy, error, hwrite⟩
  · exact .inl ⟨writer', _, hwrite, harray, rfl, hlimit⟩
  · exact .inr ⟨hwhy, error, hwrite⟩

end Bebop.TypeScript
