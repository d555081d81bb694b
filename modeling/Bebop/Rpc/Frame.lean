import Bebop.Lib.Bytes
import Bebop.Lib.Bits

/-!
# Bebop — the frame format

What an RPC frame *is*, without an implementation:

    length (4) · flags (1) · stream id (4) · payload · cursor (8, if flagged)

`decodeFrame` reads the byte strings that are one frame. The top three flag
bits are reserved and it ignores them, as the protocol asks of a receiver.
`encodeFrame` is the other direction.
-/

namespace Bebop.Rpc

open Bytes

inductive StatusCode where
  | ok | cancelled | unknown | invalidArgument | deadlineExceeded | notFound | permissionDenied
  | resourceExhausted | unimplemented | internal | unavailable | unauthenticated
  deriving DecidableEq, Repr

/-- `BebopRpcError`, without its metadata. -/
structure RpcError where
  code : StatusCode
  detail : String
  deriving DecidableEq, Repr

/-! ## Flags -/

inductive Flag where
  | endStream | error | compressed | trailer | cursor
  deriving DecidableEq, Repr

def Flag.bit : Flag → Nat
  | endStream => 0
  | error => 1
  | compressed => 2
  | trailer => 3
  | cursor => 4

def Flag.isSet (flag : Flag) (flags : Nat) : Bool := flags.testBit flag.bit

def FlagsOk (flags : Nat) : Prop :=
  (Flag.error.isSet flags → Flag.endStream.isSet flags) ∧
  (Flag.trailer.isSet flags → Flag.endStream.isSet flags) ∧
  ¬(Flag.error.isSet flags ∧ Flag.trailer.isSet flags)

instance (flags : Nat) : Decidable (FlagsOk flags) := inferInstanceAs (Decidable (_ ∧ _))

def knownFlags (flags : Nat) : Nat := flags % 32

theorem isSet_knownFlags (flag : Flag) (flags : Nat) :
    flag.isSet (knownFlags flags) = flag.isSet flags := by
  have hbit : flag.bit < 5 := by cases flag <;> decide
  change (flags % 2 ^ 5).testBit flag.bit = flags.testBit flag.bit
  rw [Nat.testBit_mod_two_pow, decide_eq_true hbit, Bool.true_and]

theorem flagsOk_knownFlags (flags : Nat) : FlagsOk (knownFlags flags) ↔ FlagsOk flags := by
  simp only [FlagsOk, isSet_knownFlags]

/-! ## Frames -/

structure WireFrame where
  flags : Nat
  streamId : Nat
  payload : List UInt8
  cursor : Option Nat
  deriving DecidableEq, Repr

def cursorLength (flags : Nat) : Nat := if Flag.cursor.isSet flags then 8 else 0

structure WireFrame.Ok (f : WireFrame) : Prop where
  flags_lt : f.flags < 256
  flags : FlagsOk f.flags
  streamId : f.streamId < 2 ^ 32
  payload : f.payload.length < 2 ^ 32
  cursor : f.cursor.isSome = Flag.cursor.isSet f.flags
  cursor_lt : ∀ c ∈ f.cursor, c < 2 ^ 64

def encodeHeader (length flags streamId : Nat) : List UInt8 :=
  leBytes 4 length ++ (leBytes 1 flags ++ leBytes 4 streamId)

def encodeCursor (cursor : Option Nat) : List UInt8 :=
  match cursor with
  | none => []
  | some c => leBytes 8 c

def encodeFrame (f : WireFrame) : List UInt8 :=
  encodeHeader f.payload.length f.flags f.streamId ++ (f.payload ++ encodeCursor f.cursor)

/-- One frame: its flags are allowed and its length is as announced. -/
def IsFrame (bs : List UInt8) : Prop :=
  9 ≤ bs.length ∧ FlagsOk (byteAt bs 4) ∧
    bs.length = 9 + leAt bs 0 4 + cursorLength (byteAt bs 4)

instance (bs : List UInt8) : Decidable (IsFrame bs) := inferInstanceAs (Decidable (_ ∧ _))

/-- The parts of a frame, where its header says they are. -/
def frameAt (bs : List UInt8) : WireFrame where
  flags := byteAt bs 4
  streamId := leAt bs 5 4
  payload := (bs.drop 9).take (leAt bs 0 4)
  cursor := if Flag.cursor.isSet (byteAt bs 4) then some (leAt bs (9 + leAt bs 0 4) 8) else none

def decodeFrame (bs : List UInt8) : Option WireFrame :=
  if IsFrame bs then some (frameAt bs) else none

theorem frameAt_ok {bs : List UInt8} (h : IsFrame bs) : (frameAt bs).Ok := by
  obtain ⟨hlen, hflags, hsize⟩ := h
  have hlength : leAt bs 0 4 < 2 ^ 32 := leAt_lt bs 0 4
  have hpayload : ((bs.drop 9).take (leAt bs 0 4)).length ≤ leAt bs 0 4 := List.length_take_le _ _
  refine ⟨byteAt_lt bs 4, hflags, leAt_lt bs 5 4, Nat.lt_of_le_of_lt hpayload hlength, ?_, ?_⟩
  · unfold frameAt
    cases Flag.cursor.isSet (byteAt bs 4) <;> simp
  · intro c hc
    change c ∈ (if Flag.cursor.isSet (byteAt bs 4) then _ else _) at hc
    split at hc
    · obtain rfl := Option.some.inj hc
      exact leAt_lt bs _ 8
    · cases hc

theorem length_frameAt {bs : List UInt8} (h : IsFrame bs) :
    (frameAt bs).payload.length = leAt bs 0 4 := by
  have hsize := h.2.2
  change ((bs.drop 9).take (leAt bs 0 4)).length = _
  rw [List.length_take, List.length_drop]
  omega

/-! ## Reserved bits -/

/-- The byte string with the reserved bits of its flags cleared. -/
def clearReserved (bs : List UInt8) : List UInt8 :=
  bs.set 4 (UInt8.ofNat (knownFlags (byteAt bs 4)))

def WireFrame.known (f : WireFrame) : WireFrame := { f with flags := knownFlags f.flags }

theorem byteAt_clearReserved {bs : List UInt8} (h : 4 < bs.length) :
    byteAt (clearReserved bs) 4 = knownFlags (byteAt bs 4) := by
  have hflags : knownFlags (byteAt bs 4) < 256 := by
    have : byteAt bs 4 % 32 < 32 := Nat.mod_lt _ (by decide)
    exact Nat.lt_trans this (by decide)
  unfold clearReserved byteAt
  rw [List.getElem?_set_self h]
  exact (UInt8.toNat_ofNat').trans (Nat.mod_eq_of_lt hflags)

theorem leAt_clearReserved (bs : List UInt8) {i w : Nat} (h : i + w ≤ 4 ∨ 4 < i) :
    leAt (clearReserved bs) i w = leAt bs i w := by
  unfold leAt clearReserved
  rcases h with h | h
  · rw [List.take_drop, List.take_drop, List.take_set_of_le h]
  · rw [List.drop_set_of_lt h]

theorem decodeFrame_clearReserved (bs : List UInt8) :
    decodeFrame (clearReserved bs) = (decodeFrame bs).map WireFrame.known := by
  have hlength : (clearReserved bs).length = bs.length := List.length_set
  by_cases hlen : 9 ≤ bs.length
  · have hflags := byteAt_clearReserved (show 4 < bs.length by omega)
    have hcursor : cursorLength (knownFlags (byteAt bs 4)) = cursorLength (byteAt bs 4) := by
      unfold cursorLength
      rw [isSet_knownFlags]
    have hsize : leAt (clearReserved bs) 0 4 = leAt bs 0 4 := leAt_clearReserved bs (.inl (by omega))
    have hstream : leAt (clearReserved bs) 5 4 = leAt bs 5 4 := leAt_clearReserved bs (.inr (by omega))
    have hlast : leAt (clearReserved bs) (9 + leAt bs 0 4) 8 = leAt bs (9 + leAt bs 0 4) 8 :=
      leAt_clearReserved bs (.inr (by omega))
    have hframe : IsFrame (clearReserved bs) ↔ IsFrame bs := by
      unfold IsFrame
      rw [hlength, hflags, flagsOk_knownFlags, hcursor, hsize]
    have hparts : frameAt (clearReserved bs) = (frameAt bs).known := by
      unfold frameAt WireFrame.known
      dsimp only
      rw [hflags, isSet_knownFlags, hsize, hstream, hlast, clearReserved, List.drop_set_of_lt (by omega)]
    unfold decodeFrame
    simp only [hframe, hparts]
    split <;> rfl
  · have hshort (cs : List UInt8) (h : cs.length = bs.length) : decodeFrame cs = none :=
      if_neg fun hframe => hlen (h ▸ hframe.1)
    rw [hshort _ hlength, hshort bs rfl, Option.map_none]

/-! ## Reading headers -/

@[simp] theorem length_encodeHeader (length flags streamId : Nat) :
    (encodeHeader length flags streamId).length = 9 := by
  simp [encodeHeader]

theorem length_encodeCursor (f : WireFrame) (h : f.cursor.isSome = Flag.cursor.isSet f.flags) :
    (encodeCursor f.cursor).length = cursorLength f.flags := by
  rw [cursorLength, ← h]
  cases f.cursor with
  | none => rfl
  | some c => exact length_leBytes 8 c

theorem leAt_encodeHeader {length flags streamId : Nat} (hlength : length < 2 ^ 32)
    (hflags : flags < 256) (hstream : streamId < 2 ^ 32) (tail : List UInt8) :
    leAt (encodeHeader length flags streamId ++ tail) 0 4 = length ∧
      byteAt (encodeHeader length flags streamId ++ tail) 4 = flags ∧
      leAt (encodeHeader length flags streamId ++ tail) 5 4 = streamId := by
  have hlen4 : (leBytes 4 length).length = 4 := length_leBytes 4 length
  have hlen1 : (leBytes 1 flags).length = 1 := length_leBytes 1 flags
  refine ⟨?_, ?_, ?_⟩
  · rw [encodeHeader, List.append_assoc]
    exact leAt_leBytes hlength _
  · rw [encodeHeader, List.append_assoc, byteAt_append_right (by omega), hlen4]
    have hbyte : (UInt8.ofNat flags).toNat = flags := by
      rw [UInt8.toNat_ofNat']
      omega
    exact hbyte
  · rw [encodeHeader, List.append_assoc, List.append_assoc, leAt_append_right (by omega), hlen4,
      leAt_append_right (by omega), hlen1]
    exact leAt_leBytes hstream _

/-! ## Round trips -/

end Bebop.Rpc
