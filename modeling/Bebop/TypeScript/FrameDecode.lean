import Bebop.TypeScript.Frame

/-!
# Bebop — the TypeScript frames and the format

`validateFlags` accepts the allowed combinations of the five known flags and nothing else,
so `Frame.decode` accepts the frames whose reserved bits are clear. A frame the constructor
built fits the format, and `encode` writes it.
-/

namespace Bebop.TypeScript.Rpc

open Bebop.Rpc (Flag FlagsOk WireFrame IsFrame frameAt frameAt_ok cursorLength encodeHeader
  encodeFrame encodeCursor)
open Bytes Checked JavaScript

/-! ## Flags -/

theorem land_flag {flags : Nat} (h : flags < 256) (flag : Flag) :
    land flags ((2 ^ flag.bit : Nat) : Int) ≠ 0 ↔ flag.isSet flags := by
  have hbit : flag.bit < 32 := by cases flag <;> decide
  rw [Ne, land_two_pow (by omega) hbit, Bool.not_eq_false, Flag.isSet]

theorem land_endStream {flags : Nat} (h : flags < 256) :
    land flags FrameFlags.endStream ≠ 0 ↔ Flag.endStream.isSet flags := land_flag h .endStream

theorem land_error {flags : Nat} (h : flags < 256) :
    land flags FrameFlags.error ≠ 0 ↔ Flag.error.isSet flags := land_flag h .error

theorem land_trailer {flags : Nat} (h : flags < 256) :
    land flags FrameFlags.trailer ≠ 0 ↔ Flag.trailer.isSet flags := land_flag h .trailer

theorem land_cursor {flags : Nat} (h : flags < 256) :
    land flags FrameFlags.cursor ≠ 0 ↔ Flag.cursor.isSet flags := land_flag h .cursor

theorem land_reserved {flags : Nat} (h : flags < 256) :
    land flags (lnot knownFrameFlags) = 0 ↔ flags < 32 := by
  have hmask : toUint32 (lnot knownFrameFlags) = 0xffffffe0 := by decide
  have hall : ∀ flags < 256, (flags &&& 0xffffffe0 = 0 ↔ flags < 32) := by decide +kernel
  rw [land_eq_zero, toUint32_natCast (by omega), hmask]
  exact hall flags h

theorem validateFlags_total (flags : Int) : Frame.validateFlags flags ≠ .error .fault := by
  unfold Frame.validateFlags rpcError
  simp only [rejectIf]
  split
  · simp
  split
  · simp
  split
  · simp
  split <;> simp

theorem validateFlags_ok_iff {flags : Int} :
    Frame.validateFlags flags = .ok () ↔ ∃ n : Nat, flags = n ∧ n < 32 ∧ FlagsOk n := by
  unfold Frame.validateFlags
  by_cases hrange : flags < 0 ∨ flags > 0xff ∨ land flags (lnot knownFrameFlags) ≠ 0
  · rw [rejectIf_of hrange, error_bind]
    refine ⟨(fun h => nomatch h), ?_⟩
    rintro ⟨n, rfl, hn, -⟩
    have hclear := (land_reserved (show n < 256 by omega)).mpr hn
    exact absurd hclear (by
      rcases hrange with h | h | h
      · omega
      · omega
      · exact h)
  rw [rejectIf_of_not hrange, ok_bind]
  rw [not_or, not_or, not_not] at hrange
  obtain ⟨hlow, hhigh, hclear⟩ := hrange
  obtain ⟨n, rfl⟩ := Int.eq_ofNat_of_zero_le (show 0 ≤ flags by omega)
  have hn : n < 256 := by omega
  rw [land_reserved hn] at hclear
  simp only [land_endStream hn, land_error hn, land_trailer hn, rejectIf_bind]
  unfold rejectIf
  constructor
  · intro h
    refine ⟨n, rfl, hclear, ?_⟩
    split at h
    · cases h
    split at h
    · cases h
    split at h
    · cases h
    · rename_i herr htrl hboth
      exact ⟨fun he => by_contra fun hend => herr ⟨he, hend⟩,
        fun ht => by_contra fun hend => htrl ⟨ht, hend⟩, hboth⟩
  · rintro ⟨m, hm, -, herr, htrl, hboth⟩
    obtain rfl : n = m := by omega
    rw [if_neg fun h => h.2 (herr h.1), if_neg fun h => h.2 (htrl h.1), if_neg hboth]

/-! ## Headers -/

theorem readFrom_eq {bs : List UInt8} (h : 9 ≤ bs.length) :
    FrameHeader.readFrom ⟨bs, 0⟩ = .ok ⟨leAt bs 0 4, byteAt bs 4, leAt bs 5 4⟩ := by
  unfold FrameHeader.readFrom BebopReader.readUint32 BebopReader.readByte BebopReader.require
  simp only [rejectIf_bind, Nat.zero_add]
  rw [if_neg (by omega)]
  simp only [pure_eq_ok, ok_bind]
  rw [if_neg (by omega), read_of_lt (by omega)]
  simp only [ok_bind]
  rw [if_neg (by omega)]
  rfl

theorem requireInteger_natCast {n : Nat} {maximum : Int} (h : (n : Int) ≤ maximum) (type : String) :
    requireInteger n 0 maximum type = .ok () :=
  rejectIf_of_not (by omega)

theorem writeInto_eq {header : FrameHeader} (hlength : header.length < 2 ^ 32)
    (hflags : header.flags < 256) (hstream : header.streamId < 2 ^ 32) :
    header.writeInto = .ok (encodeHeader header.length header.flags header.streamId) := by
  unfold FrameHeader.writeInto writeUint32 writeByte
  rw [requireInteger_natCast (by omega), requireInteger_natCast (by omega),
    requireInteger_natCast (by omega)]
  rfl

/-! ## The constructor -/

/-- The numbers of a frame are those of its wire frame. -/
def Frame.toWire (f : Frame) : WireFrame := ⟨f.header.flags, f.header.streamId, f.payload, f.cursor⟩

def ofWire (f : WireFrame) : Frame := ⟨⟨f.payload.length, f.flags, f.streamId⟩, f.payload, f.cursor⟩

@[simp] theorem toWire_ofWire (f : WireFrame) : (ofWire f).toWire = f := rfl

theorem ofWire_toWire {f : Frame} (h : f.header.length = f.payload.length) : ofWire f.toWire = f := by
  obtain ⟨⟨length, flags, streamId⟩, payload, cursor⟩ := f
  change length = payload.length at h
  rw [h]
  rfl

theorem lor_cursor {flags : Nat} (h : flags < 256) (hset : Flag.cursor.isSet flags) :
    lor flags FrameFlags.cursor = flags := by
  have hall : ∀ flags < 256, Flag.cursor.isSet flags → lor (flags : Nat) FrameFlags.cursor = flags := by
    decide +kernel
  exact hall flags h hset

theorem validateCursor_natCast {cursor : Option Nat} (h : ∀ c ∈ cursor, c < 2 ^ 64) :
    Frame.validateCursor (cursor.map Int.ofNat) = .ok () := by
  cases cursor with
  | none => rfl
  | some c =>
    have hc : c < 2 ^ 64 := h c rfl
    have hrange : ¬(Int.ofNat c < 0 ∨ Int.ofNat c > 0xffffffffffffffff) := by
      rw [Int.ofNat_eq_natCast]
      omega
    unfold Frame.validateCursor
    rw [Option.map_some]
    exact rejectIf_of_not hrange

theorem new_eq {f : WireFrame} (h : f.Ok) (hknown : f.flags < 32) :
    Frame.new f.payload f.flags f.streamId (f.cursor.map Int.ofNat) = .ok (ofWire f) := by
  have hpayload := h.payload
  have hstream := h.streamId
  have hresolved : Frame.resolveFlags f.flags (f.cursor.map Int.ofNat) = f.flags := by
    have hcursor := h.cursor
    unfold Frame.resolveFlags
    cases hc : f.cursor with
    | none => rfl
    | some c =>
      rw [hc] at hcursor
      rw [Option.map_some, if_neg (Option.some_ne_none _)]
      exact lor_cursor h.flags_lt hcursor.symm
  have hnat : (f.cursor.map Int.ofNat).map Int.toNat = f.cursor := by
    cases f.cursor <;> rfl
  have hlength : ¬f.payload.length > 0xffffffff := by omega
  have hid : ¬((f.streamId : Int) < 0 ∨ (f.streamId : Int) > 0xffffffff) := by omega
  unfold Frame.new Frame.validateStreamId
  rw [rejectIf_of_not hlength, ok_bind]
  dsimp only
  rw [hresolved, validateFlags_ok_iff.mpr ⟨f.flags, rfl, hknown, h.flags⟩, ok_bind,
    rejectIf_of_not hid, ok_bind, validateCursor_natCast h.cursor_lt, ok_bind, hnat]
  rfl

/-- A frame the constructor returned, with the cursor flag exactly when there is
a cursor. -/
structure Built (f : Frame) : Prop where
  new : ∃ flags streamId cursor, Frame.new f.payload flags streamId cursor = .ok f
  cursor : land f.header.flags FrameFlags.cursor ≠ 0 ↔ f.cursor.isSome

theorem new_ok {payload : List UInt8} {flags streamId : Int} {cursor : Option Int} {f : Frame}
    (h : Frame.new payload flags streamId cursor = .ok f) :
    ∃ n : Nat, n < 32 ∧ FlagsOk n ∧ payload.length < 2 ^ 32 ∧ 0 ≤ streamId ∧ streamId < 2 ^ 32 ∧
      (∀ c ∈ cursor, 0 ≤ c ∧ c < 2 ^ 64) ∧
      f = ⟨⟨payload.length, n, streamId.toNat⟩, payload, cursor.map Int.toNat⟩ := by
  unfold Frame.new at h
  obtain ⟨_, hlength, h⟩ := bind_ok h
  obtain ⟨_, hflags, h⟩ := bind_ok h
  obtain ⟨_, hstream, h⟩ := bind_ok h
  obtain ⟨_, hcursor, h⟩ := bind_ok h
  obtain ⟨n, hn, hknown, hok⟩ := validateFlags_ok_iff.mp hflags
  have hpayload := rejectIf_ok hlength
  have hid := rejectIf_ok hstream
  refine ⟨n, hknown, hok, by omega, by omega, by omega, ?_, ?_⟩
  · rintro c rfl
    have hc := rejectIf_ok (hcursor : rejectIf _ (c < 0 ∨ c > 0xffffffffffffffff) = _)
    omega
  · rw [hn] at h
    exact (Except.ok.inj h).symm

theorem Built.ok {f : Frame} (h : Built f) :
    f.toWire.Ok ∧ f.header.flags < 32 ∧ f.header.length = f.payload.length := by
  obtain ⟨flags, streamId, cursor, hnew⟩ := h.new
  have hflag := h.cursor
  obtain ⟨n, hknown, hok, hpayload, hlow, hhigh, hcursor, hf⟩ := new_ok hnew
  have hheader := congrArg Frame.header hf
  have hcur := congrArg Frame.cursor hf
  dsimp only at hheader hcur
  rw [land_cursor (by rw [hheader]; dsimp only; omega)] at hflag
  refine ⟨⟨?_, ?_, ?_, hpayload, ?_, ?_⟩, ?_, ?_⟩
  · change f.header.flags < 256
    rw [hheader]
    dsimp only
    omega
  · change FlagsOk f.header.flags
    rw [hheader]
    exact hok
  · change f.header.streamId < 2 ^ 32
    rw [hheader]
    dsimp only
    omega
  · exact Bool.eq_iff_iff.mpr hflag.symm
  · intro c hc
    change c ∈ f.cursor at hc
    rw [hcur, Option.mem_def, Option.map_eq_some_iff] at hc
    obtain ⟨i, hi, rfl⟩ := hc
    have := hcursor i hi
    omega
  · rw [hheader]
    exact hknown
  · rw [hheader]

theorem encode_eq {f : Frame} (h : Built f) : f.encode = .ok (encodeFrame f.toWire) := by
  obtain ⟨hok, hknown, hlength⟩ := h.ok
  have hheader : f.header.writeInto =
      .ok (encodeHeader f.payload.length f.header.flags f.header.streamId) := by
    rw [← hlength]
    exact writeInto_eq (by rw [hlength]; exact hok.payload) hok.flags_lt hok.streamId
  have hcursor := hok.cursor_lt
  unfold Frame.encode
  rw [hheader, ok_bind]
  cases hc : f.cursor with
  | none =>
    unfold encodeFrame encodeCursor Frame.toWire
    rw [hc, List.append_nil]
    rfl
  | some c =>
    have hlt : c < 2 ^ 64 := hcursor c hc
    unfold encodeFrame encodeCursor Frame.toWire writeUint64
    dsimp only
    rw [requireInteger_natCast (by omega), hc]
    rfl

/-! ## Decoding -/

theorem encodedFrameSize_eq {header : FrameHeader} (h : header.flags < 256) :
    Frame.encodedFrameSize header = 9 + header.length + cursorLength header.flags := by
  have hcursor := land_cursor h
  unfold Frame.encodedFrameSize cursorLength
  by_cases hset : Flag.cursor.isSet header.flags
  · rw [if_neg (hcursor.mpr hset), if_pos hset]
    rfl
  · rw [if_pos (not_not.mp (mt hcursor.mp hset)), if_neg hset]
    rfl

theorem decode_of_header {bs : List UInt8} (h : 9 ≤ bs.length) :
    Frame.decode bs = (do
      Frame.validateFlags (byteAt bs 4)
      rejectIf (rpcError .invalidArgument ("frame length mismatch: expected " ++
        toString (9 + leAt bs 0 4 + cursorLength (byteAt bs 4)) ++ " bytes, received " ++
        toString bs.length)) (bs.length ≠ 9 + leAt bs 0 4 + cursorLength (byteAt bs 4))
      let cursor ← (if land (byteAt bs 4) FrameFlags.cursor = 0 then return none
        else some <$> getBigUint64 bs (9 + leAt bs 0 4))
      Frame.new ((bs.take (9 + leAt bs 0 4)).drop 9) (byteAt bs 4) (leAt bs 5 4)
        (cursor.map Int.ofNat)) := by
  have hsize : Frame.encodedFrameSize ⟨leAt bs 0 4, byteAt bs 4, leAt bs 5 4⟩ =
      9 + leAt bs 0 4 + cursorLength (byteAt bs 4) :=
    encodedFrameSize_eq (byteAt_lt bs 4)
  unfold Frame.decode
  rw [rejectIf_of_not (show ¬bs.length < Frame.headerSize from Nat.not_lt.mpr h), ok_bind, readFrom_eq h, ok_bind, hsize]
  rfl

theorem decode_of_isFrame {bs : List UInt8} (h : IsFrame bs) (hknown : byteAt bs 4 < 32) :
    Frame.decode bs = .ok (ofWire (frameAt bs)) := by
  obtain ⟨hlen, hflags, hsize⟩ := id h
  have hcursor : (if land (byteAt bs 4) FrameFlags.cursor = 0 then pure none
      else some <$> getBigUint64 bs (9 + leAt bs 0 4) : Attempt (Option Nat)) =
      .ok (frameAt bs).cursor := by
    change _ = Except.ok (if Flag.cursor.isSet (byteAt bs 4) then _ else _)
    have hland := land_cursor (byteAt_lt bs 4)
    by_cases hset : Flag.cursor.isSet (byteAt bs 4)
    · have hroom : 9 + leAt bs 0 4 + 8 ≤ bs.length := by
        rw [cursorLength, if_pos hset] at hsize
        omega
      rw [if_neg (hland.mpr hset), if_pos hset, getBigUint64, if_pos hroom]
      rfl
    · rw [if_pos (not_not.mp (mt hland.mp hset)), if_neg hset]
      rfl
  have hpayload : (bs.take (9 + leAt bs 0 4)).drop 9 = (frameAt bs).payload := by
    rw [List.drop_take, Nat.add_sub_cancel_left]
    rfl
  rw [decode_of_header hlen, validateFlags_ok_iff.mpr ⟨_, rfl, hknown, hflags⟩, ok_bind,
    rejectIf_of_not (not_not.mpr hsize), ok_bind, hcursor, ok_bind, hpayload]
  exact new_eq (frameAt_ok h) hknown

theorem decode_of_not_isFrame {bs : List UInt8} (h : ¬(IsFrame bs ∧ byteAt bs 4 < 32)) :
    ∃ e, Frame.decode bs = .error (.raised e) := by
  by_cases hlen : 9 ≤ bs.length
  · rw [decode_of_header hlen]
    by_cases hflags : byteAt bs 4 < 32 ∧ FlagsOk (byteAt bs 4)
    · have hsize : bs.length ≠ 9 + leAt bs 0 4 + cursorLength (byteAt bs 4) :=
        fun hsize => h ⟨⟨hlen, hflags.2, hsize⟩, hflags.1⟩
      exact ⟨_, by rw [validateFlags_ok_iff.mpr ⟨_, rfl, hflags⟩, ok_bind, rejectIf_of hsize]; rfl⟩
    · have htotal := validateFlags_total (byteAt bs 4)
      cases hcheck : Frame.validateFlags (byteAt bs 4) with
      | ok _ =>
        obtain ⟨n, hn, hok⟩ := validateFlags_ok_iff.mp hcheck
        obtain rfl : byteAt bs 4 = n := by omega
        exact absurd hok hflags
      | error stop =>
        cases stop with
        | raised e => exact ⟨e, rfl⟩
        | fault => exact absurd hcheck htotal
  · unfold Frame.decode
    rw [rejectIf_of (show bs.length < Frame.headerSize from Nat.not_le.mp hlen)]
    exact ⟨_, rfl⟩

end Bebop.TypeScript.Rpc
