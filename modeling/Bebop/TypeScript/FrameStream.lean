import Bebop.Lib.Incremental
import Bebop.TypeScript.ByteQueue
import Bebop.TypeScript.FrameDecode

/-!
# Bebop — the frame stream does not depend on its chunks

A `FrameDecoder` stands for the bytes it has not handed out as frames (`rest`). It is an
incremental decoder of the frame format (`laws`).
-/

namespace Bebop.TypeScript.Rpc

namespace FrameDecoder

open Bebop.Rpc (Flag encodeHeader encodeFrame encodeCursor length_encodeHeader length_encodeCursor
  cursorLength leAt_encodeHeader)
open Bytes Checked JavaScript Incremental

def headerBytes (header : Option FrameHeader) : List UInt8 :=
  match header with
  | none => []
  | some header => encodeHeader header.length header.flags header.streamId

def rest (decoder : FrameDecoder) : List UInt8 :=
  headerBytes decoder.pendingHeader ++ decoder.queue.content

def InRange (header : FrameHeader) : Prop :=
  header.length < 2 ^ 32 ∧ header.flags < 256 ∧ header.streamId < 2 ^ 32

structure Inv (maxPayloadSize : Nat) (decoder : FrameDecoder) : Prop where
  queue : decoder.queue.Wf
  header : ∀ header ∈ decoder.pendingHeader, InRange header
  maxPayloadSize : decoder.maxPayloadSize = maxPayloadSize

def Valid (maxPayloadSize : Nat) (frame : Frame) : Prop :=
  Built frame ∧ frame.payload.length ≤ maxPayloadSize

def bytesOf (frame : Frame) : List UInt8 := encodeFrame frame.toWire

variable {m : Nat} {decoder : FrameDecoder} {frame : Frame}

theorem inv_new (m : Nat) : Inv m (new m) := ⟨ByteQueue.wf_empty, nofun, rfl⟩

theorem rest_new (m : Nat) : (new m).rest = [] := rfl

/-! ## Bytes of a frame -/

theorem bytesOf_eq (h : Built frame) :
    bytesOf frame = encodeHeader frame.header.length frame.header.flags frame.header.streamId ++
      (frame.payload ++ encodeCursor frame.cursor) := by
  rw [h.ok.2.2]
  rfl

theorem inRange_header (h : Built frame) : InRange frame.header := by
  obtain ⟨hok, hknown, hlength⟩ := h.ok
  exact ⟨by rw [hlength]; exact hok.payload, hok.flags_lt, hok.streamId⟩

theorem length_cursor (h : Built frame) :
    (encodeCursor frame.cursor).length = cursorLength frame.header.flags :=
  length_encodeCursor frame.toWire h.ok.1.cursor

theorem length_bytesOf (h : Built frame) :
    (bytesOf frame).length = 9 + (frame.header.length + cursorLength frame.header.flags) := by
  rw [bytesOf_eq h, List.length_append, length_encodeHeader, List.length_append, length_cursor h,
    h.ok.2.2]

theorem encodeHeader_injective {a b : FrameHeader} (ha : InRange a) (hb : InRange b)
    {as bs : List UInt8} (h : encodeHeader a.length a.flags a.streamId ++ as =
      encodeHeader b.length b.flags b.streamId ++ bs) : a = b ∧ as = bs := by
  obtain ⟨hlength, hflags, hstream⟩ := leAt_encodeHeader ha.1 ha.2.1 ha.2.2 as
  obtain ⟨hlength', hflags', hstream'⟩ := leAt_encodeHeader hb.1 hb.2.1 hb.2.2 bs
  rw [h] at hlength hflags hstream
  obtain ⟨length, flags, streamId⟩ := a
  obtain rfl := hlength.symm.trans hlength'
  obtain rfl := hflags.symm.trans hflags'
  obtain rfl := hstream.symm.trans hstream'
  exact ⟨rfl, List.append_cancel_left h⟩

/-! ## The header -/

theorem readHeader_short (h : Inv m decoder) (hrest : decoder.rest.length < 9) :
    decoder.readHeader = .ok (none, decoder) ∧ decoder.pendingHeader = none := by
  unfold rest at hrest
  cases hpending : decoder.pendingHeader with
  | none =>
    rw [hpending] at hrest
    have hbytes : decoder.queue.byteLength < Frame.headerSize := by
      rw [h.queue.byteLength]
      exact hrest
    refine ⟨?_, rfl⟩
    unfold readHeader
    rw [hpending]
    dsimp only
    rw [if_pos hbytes]
    rfl
  | some header =>
    rw [hpending, headerBytes, List.length_append, length_encodeHeader] at hrest
    omega

theorem readHeader_eq (h : Inv m decoder) (hframe : Valid m frame) {tail future : List UInt8}
    (hrest : decoder.rest ++ future = bytesOf frame ++ tail) (hlen : 9 ≤ decoder.rest.length) :
    ∃ decoder', decoder.readHeader = .ok (some frame.header, decoder') ∧ Inv m decoder' ∧
      decoder'.pendingHeader = some frame.header ∧ decoder'.rest = decoder.rest := by
  obtain ⟨hbuilt, hpayload⟩ := hframe
  obtain ⟨hok, hknown, hlength⟩ := hbuilt.ok
  have hrange := inRange_header hbuilt
  rw [bytesOf_eq hbuilt, List.append_assoc] at hrest
  cases hpending : decoder.pendingHeader with
  | some header =>
    -- the header was read by an earlier call
    rw [rest, hpending, headerBytes, List.append_assoc] at hrest
    obtain ⟨rfl, -⟩ := encodeHeader_injective (h.header header hpending) hrange hrest
    refine ⟨decoder, ?_, h, hpending, rfl⟩
    unfold readHeader
    rw [hpending]
    rfl
  | none =>
    have hcontent : decoder.rest = decoder.queue.content := by
      rw [rest, hpending]
      rfl
    rw [hcontent] at hrest hlen
    obtain ⟨queue', hread, hwf, hqueue⟩ := ByteQueue.read_eq h.queue hlen
    -- the nine bytes are those of the frame's header
    have hbytes : decoder.queue.content.take 9 =
        encodeHeader frame.header.length frame.header.flags frame.header.streamId := by
      have htake := congrArg (List.take 9) hrest
      rwa [List.take_append_of_le_length hlen, List.take_left' (length_encodeHeader _ _ _)] at htake
    have hheader : FrameHeader.readFrom ⟨decoder.queue.content.take 9, 0⟩ = .ok frame.header := by
      obtain ⟨hreadLength, hreadFlags, hreadStream⟩ :=
        leAt_encodeHeader hrange.1 hrange.2.1 hrange.2.2 []
      rw [List.append_nil] at hreadLength hreadFlags hreadStream
      rw [hbytes, readFrom_eq (length_encodeHeader _ _ _).ge, hreadLength, hreadFlags, hreadStream]
    have henough : ¬decoder.queue.byteLength < Frame.headerSize := by
      rw [h.queue.byteLength]
      exact Nat.not_lt.mpr hlen
    have hsmall : ¬frame.header.length > decoder.maxPayloadSize := by
      rw [hlength, h.maxPayloadSize]
      omega
    refine ⟨{ decoder with queue := queue', pendingHeader := some frame.header }, ?_,
      ⟨hwf, ?_, h.maxPayloadSize⟩, rfl, ?_⟩
    · unfold readHeader
      rw [hpending]
      dsimp only
      rw [if_neg henough, show Frame.headerSize = 9 from rfl, hread, ok_bind]
      dsimp only
      rw [hheader, ok_bind, validateFlags_ok_iff.mpr ⟨_, rfl, hknown, hok.flags⟩, ok_bind,
        rejectIf_of_not hsmall]
      rfl
    · intro header hmem
      obtain rfl := Option.some.inj hmem
      exact hrange
    · rw [hcontent, rest, hqueue]
      dsimp only [headerBytes]
      rw [← hbytes, List.take_append_drop]

/-! ## The laws -/

theorem push_law (c : List UInt8) (h : Inv m decoder) :
    ∃ decoder', decoder.push c = .ok decoder' ∧ Inv m decoder' ∧
      decoder'.rest = decoder.rest ++ c := by
  refine ⟨_, rfl, ⟨ByteQueue.wf_push h.queue c, h.header, h.maxPayloadSize⟩, ?_⟩
  change headerBytes decoder.pendingHeader ++ (decoder.queue.push c).content = _
  rw [ByteQueue.content_push h.queue, ← List.append_assoc]
  rfl

theorem idle_law (h : Inv m decoder) (hrest : decoder.rest = []) :
    ∃ decoder', decoder.read = .ok (none, decoder') ∧ Inv m decoder' ∧ decoder'.rest = [] := by
  have hshort := readHeader_short h (by rw [hrest]; exact Nat.zero_lt_succ 8)
  refine ⟨decoder, ?_, h, hrest⟩
  unfold read
  rw [hshort.1]
  rfl

theorem cursorLength_eq (h : Built frame) :
    (if land frame.header.flags FrameFlags.cursor = 0 then 0 else cursorSize) =
      cursorLength frame.header.flags := by
  have hcursor := land_cursor h.ok.1.flags_lt
  change land frame.header.flags _ ≠ 0 ↔ Flag.cursor.isSet frame.header.flags at hcursor
  unfold cursorLength
  by_cases hset : Flag.cursor.isSet frame.header.flags
  · rw [if_neg (hcursor.mpr hset), if_pos hset]
    rfl
  · rw [if_pos (not_not.mp (mt hcursor.mp hset)), if_neg hset]

theorem content_of_pending {header : FrameHeader} (hpending : decoder.pendingHeader = some header) :
    decoder.rest =
      encodeHeader header.length header.flags header.streamId ++ decoder.queue.content := by
  rw [rest, hpending]
  rfl

theorem wait_law {t : List UInt8} (h : Inv m decoder) (hframe : Valid m frame) (ht : t ≠ [])
    (hrest : decoder.rest ++ t = bytesOf frame) :
    ∃ decoder', decoder.read = .ok (none, decoder') ∧ Inv m decoder' ∧
      decoder'.rest = decoder.rest := by
  rcases Nat.lt_or_ge decoder.rest.length 9 with hshort | hlong
  · refine ⟨decoder, ?_, h, rfl⟩
    unfold read
    rw [(readHeader_short h hshort).1]
    rfl
  · obtain ⟨decoder', hheader, hinv, hpending, hsame⟩ :=
      readHeader_eq h hframe (by rw [hrest, List.append_nil]) hlong
    refine ⟨decoder', ?_, hinv, hsame⟩
    have hmissing : decoder'.queue.byteLength <
        frame.header.length + cursorLength frame.header.flags := by
      have hcount := congrArg List.length hrest
      have htail := List.length_pos_iff.mpr ht
      rw [← hsame, content_of_pending hpending, length_bytesOf hframe.1, List.length_append,
        List.length_append, length_encodeHeader] at hcount
      rw [hinv.queue.byteLength]
      omega
    unfold read
    rw [hheader, ok_bind]
    dsimp only
    rw [cursorLength_eq hframe.1, if_pos hmissing]
    rfl

theorem readCursor_eq {queue : ByteQueue} (hwf : queue.Wf) (hframe : Built frame)
    {tail : List UInt8} (hcontent : queue.content = encodeCursor frame.cursor ++ tail) :
    ∃ queue' : ByteQueue, (if cursorLength frame.header.flags ≠ 0 then do
        let (bytes, queue) ← queue.read cursorSize
        return (some (← getBigUint64 bytes 0), queue)
      else return (none, queue) : Attempt (Option Nat × ByteQueue)) = .ok (frame.cursor, queue') ∧
      queue'.Wf ∧ queue'.content = tail := by
  have hsize := length_cursor hframe
  cases hcursor : frame.cursor with
  | none =>
    rw [hcursor] at hsize hcontent
    exact ⟨queue, if_neg (not_not.mpr hsize.symm), hwf, hcontent⟩
  | some c =>
    rw [hcursor] at hsize hcontent
    have hlt : c < 256 ^ 8 := hframe.ok.1.cursor_lt c hcursor
    have height : (encodeCursor (some c)).length = cursorSize := length_leBytes 8 c
    have hroom : cursorSize ≤ queue.content.length := by
      rw [hcontent, List.length_append, height]
      exact Nat.le_add_right _ _
    obtain ⟨queue', hread, hwf', hrest⟩ := ByteQueue.read_eq hwf hroom
    have hbytes : queue.content.take cursorSize = leBytes 8 c := by
      rw [hcontent, List.take_left' height]
      rfl
    have hset : cursorLength frame.header.flags ≠ 0 := by
      rw [← hsize, height]
      exact Nat.succ_ne_zero 7
    have hvalue : leAt (leBytes 8 c) 0 8 = c := by
      have := leAt_leBytes hlt []
      rwa [List.append_nil] at this
    refine ⟨queue', ?_, hwf', ?_⟩
    · rw [if_pos hset, hread, ok_bind, hbytes]
      dsimp only
      rw [getBigUint64, if_pos (length_leBytes 8 c).ge, ok_bind, hvalue]
      rfl
    · rw [hrest, hcontent, List.drop_left' height]

theorem item_law {t : List UInt8} (h : Inv m decoder) (hframe : Valid m frame)
    (hrest : decoder.rest = bytesOf frame ++ t) :
    ∃ decoder', decoder.read = .ok (some frame, decoder') ∧ Inv m decoder' ∧ decoder'.rest = t := by
  obtain ⟨hok, hknown, hlength⟩ := hframe.1.ok
  have hlong : 9 ≤ decoder.rest.length := by
    rw [hrest, List.length_append, length_bytesOf hframe.1]
    omega
  obtain ⟨decoder₁, hheader, hinv, hpending, hsame⟩ :=
    readHeader_eq h hframe (by rw [List.append_nil decoder.rest, hrest]) hlong
  have hcontent : decoder₁.queue.content = frame.payload ++ (encodeCursor frame.cursor ++ t) := by
    rw [content_of_pending hpending, hrest, bytesOf_eq hframe.1, List.append_assoc] at hsame
    rw [List.append_cancel_left hsame, List.append_assoc]
  have hroom : ¬decoder₁.queue.byteLength < frame.header.length + cursorLength frame.header.flags := by
    rw [hinv.queue.byteLength, hcontent, List.length_append, List.length_append,
      length_cursor hframe.1, hlength]
    omega
  have hpayloadRoom : frame.header.length ≤ decoder₁.queue.content.length := by
    rw [hcontent, List.length_append, hlength]
    omega
  obtain ⟨queue₂, hpayload, hwf₂, hrest₂⟩ := ByteQueue.read_eq hinv.queue hpayloadRoom
  rw [hcontent, List.take_left' hlength.symm] at hpayload
  rw [hcontent, List.drop_left' hlength.symm] at hrest₂
  obtain ⟨queue₃, hcursor, hwf₃, hrest₃⟩ := readCursor_eq hwf₂ hframe.1 hrest₂
  -- the constructor checks again what the header's flags were checked for
  have hnew : Frame.new frame.payload frame.header.flags frame.header.streamId
      (frame.cursor.map Int.ofNat) = .ok frame :=
    (new_eq hok hknown).trans (congrArg Except.ok (ofWire_toWire hlength))
  refine ⟨{ decoder₁ with queue := queue₃, pendingHeader := none }, ?_,
    ⟨hwf₃, nofun, hinv.maxPayloadSize⟩, ?_⟩
  · unfold read
    rw [hheader, ok_bind]
    dsimp only
    rw [cursorLength_eq hframe.1, if_neg hroom, hpayload, ok_bind]
    dsimp only
    rw [hcursor, ok_bind]
    dsimp only
    rw [hnew]
    rfl
  · exact hrest₃

def stream : Decoder Frame UInt8 FrameDecoder Thrown := ⟨push, read⟩

theorem laws (m : Nat) : Laws stream (Inv m) rest (Valid m) bytesOf where
  push c h := push_law c h
  item h hframe hrest := item_law h hframe hrest
  wait h hframe ht hrest := wait_law h hframe ht hrest
  idle h hrest := idle_law h hrest

/-! ## The end of a stream -/

theorem finish_ok (h : Inv m decoder) (hrest : decoder.rest = []) : decoder.finish = .ok () := by
  have hshort := readHeader_short h (by rw [hrest]; exact Nat.zero_lt_succ 8)
  have hempty : decoder.queue.byteLength = 0 := by
    rw [rest, hshort.2] at hrest
    rw [h.queue.byteLength, show decoder.queue.content = [] from hrest]
    rfl
  refine rejectIf_of_not ?_
  rw [hshort.2, hempty]
  simp

theorem finish_error (h : Inv m decoder) (hrest : decoder.rest ≠ []) :
    ∃ detail, decoder.finish = .error (rpcError .invalidArgument detail) := by
  refine ⟨_, rejectIf_of ?_⟩
  cases hpending : decoder.pendingHeader with
  | some header => exact .inl (Option.some_ne_none header)
  | none =>
    right
    rw [rest, hpending] at hrest
    rw [h.queue.byteLength]
    exact Nat.ne_of_gt (List.length_pos_iff.mpr hrest)

/-! ## Streams -/

theorem mapM_encode {frames : List Frame} (h : ∀ frame ∈ frames, Built frame) :
    frames.mapM Frame.encode = .ok (frames.map bytesOf) := by
  induction frames with
  | nil => rfl
  | cons frame frames ih =>
    rw [List.mapM_cons, encode_eq (h frame List.mem_cons_self), ok_bind,
      ih fun f hf => h f (List.mem_cons_of_mem frame hf), ok_bind]
    rfl

theorem bytesOf_ne_nil (frame : Frame) (h : Valid m frame) : bytesOf frame ≠ [] := by
  rw [← List.length_pos_iff, length_bytesOf h.1]
  omega

end FrameDecoder

open Incremental

/-- However the bytes of frames are cut into chunks, exactly these frames come out. If the
bytes stop within a frame, the frames before it come out and the end is an error. -/
theorem frameStream (maxPayloadSize : Nat) (frames : List Frame)
    (hbuilt : ∀ frame ∈ frames, Built frame)
    (hsize : ∀ frame ∈ frames, frame.payload.length ≤ maxPayloadSize) :
    ∃ encoded, frames.mapM Frame.encode = .ok encoded ∧
      (∀ chunks, chunks.flatten = encoded.flatten →
        ∃ decoder : FrameDecoder, decoder.finish = .ok () ∧ ∀ out decoder',
          Run FrameDecoder.stream (.new maxPayloadSize) chunks out decoder' ↔
            out = frames ∧ decoder' = decoder) ∧
      ∀ chunks, chunks.flatten <+: encoded.flatten →
        (∀ count, chunks.flatten ≠ (encoded.take count).flatten) →
        ∃ seen, ∃ decoder : FrameDecoder, ∃ detail, seen <+: frames ∧
          decoder.finish = .error (rpcError .invalidArgument detail) ∧ ∀ out decoder',
            Run FrameDecoder.stream (.new maxPayloadSize) chunks out decoder' ↔
              out = seen ∧ decoder' = decoder := by
  have hvalid : ∀ frame ∈ frames, FrameDecoder.Valid maxPayloadSize frame :=
    fun frame hf => ⟨hbuilt frame hf, hsize frame hf⟩
  have hlaws := FrameDecoder.laws maxPayloadSize
  have hinit := FrameDecoder.inv_new maxPayloadSize
  refine ⟨frames.map FrameDecoder.bytesOf, FrameDecoder.mapM_encode hbuilt, ?_, ?_⟩
  · intro chunks hchunks
    have hbytes : chunks.flatten = frames.flatMap FrameDecoder.bytesOf := by
      rw [hchunks, List.flatMap_def]
    obtain ⟨decoder, hrun, hinv, hrest⟩ := hlaws.run_encoded FrameDecoder.bytesOf_ne_nil hinit
      (FrameDecoder.rest_new _) hvalid hbytes
    refine ⟨decoder, FrameDecoder.finish_ok hinv hrest, fun out decoder' => ⟨fun h => h.unique hrun, ?_⟩⟩
    rintro ⟨rfl, rfl⟩
    exact hrun
  · intro chunks hchunks hboundary
    have hbytes : chunks.flatten <+: frames.flatMap FrameDecoder.bytesOf := by
      rwa [List.flatMap_def]
    obtain ⟨seen, decoder, hrun, hinv, hseen, hrest⟩ := hlaws.run_prefix FrameDecoder.bytesOf_ne_nil
      hinit (FrameDecoder.rest_new _) hvalid hbytes
    -- nothing left over would mean that the bytes end with the last frame seen
    have hleft : decoder.rest ≠ [] := by
      intro hnil
      rw [hnil, List.append_nil, List.flatMap_def] at hrest
      refine hboundary seen.length ?_
      obtain ⟨others, rfl⟩ := hseen
      rw [hrest, List.map_append, List.take_left' (List.length_map _)]
    obtain ⟨detail, hfinish⟩ := FrameDecoder.finish_error hinv hleft
    refine ⟨seen, decoder, detail, hseen, hfinish, fun out decoder' => ⟨fun h => h.unique hrun, ?_⟩⟩
    rintro ⟨rfl, rfl⟩
    exact hrun

/-- Two frames, cut in a header, a payload and a cursor. -/
theorem frameStream_cuts :
    ∃ decoder : FrameDecoder, decoder.finish = .ok () ∧
      Run FrameDecoder.stream (.new 16)
        [[3, 0, 0], [0, 17, 7, 0, 0, 0, 65, 66], [], [67, 9, 0],
          [0, 0, 0, 0, 0, 0, 0, 0, 0, 0, 1, 1, 0, 0, 0]]
        [⟨⟨3, 17, 7⟩, [65, 66, 67], some 9⟩, ⟨⟨0, 1, 1⟩, [], none⟩] decoder := by
  have hcursor : Built ⟨⟨3, 17, 7⟩, [65, 66, 67], some 9⟩ := ⟨⟨1, 7, some 9, rfl⟩, by decide⟩
  have hplain : Built ⟨⟨0, 1, 1⟩, [], none⟩ := ⟨⟨1, 1, none, rfl⟩, by decide⟩
  obtain ⟨encoded, hencode, hwhole, -⟩ :=
    frameStream 16 [⟨⟨3, 17, 7⟩, [65, 66, 67], some 9⟩, ⟨⟨0, 1, 1⟩, [], none⟩]
      (by rintro f (_ | ⟨_, _ | ⟨_, ⟨⟩⟩⟩) <;> assumption)
      (by rintro f (_ | ⟨_, _ | ⟨_, ⟨⟩⟩⟩) <;> decide)
  obtain rfl := Except.ok.inj hencode
  obtain ⟨decoder, hfinish, hrun⟩ := hwhole [[3, 0, 0], [0, 17, 7, 0, 0, 0, 65, 66], [], [67, 9, 0],
    [0, 0, 0, 0, 0, 0, 0, 0, 0, 0, 1, 1, 0, 0, 0]] rfl
  exact ⟨decoder, hfinish, (hrun _ _).mpr ⟨rfl, rfl⟩⟩

end Bebop.TypeScript.Rpc
