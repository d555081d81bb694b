import Bebop.C.GeneratedView

/-!
# Bebop — the bodies of unions

What the decoder and the view reader of a union do, from the length prefix on. Behind a
known branch the view reader asks for the end of the body, while the decoder stays where
the branch's decoder stops.
-/

namespace Bebop.C

open Bytes Checked Message Compiler Fallible Decode

/-! ## The body of a union -/

namespace Reader

variable (reader : Reader)

/-- There is a length prefix, and a body with a discriminator behind it. -/
def HasBody : Prop := reader.Framed ∧ 0 < reader.bodyLength

def discriminator : Nat := byteAt reader.rest 4

def stop : Nat := reader.current + (4 + reader.bodyLength)

variable {reader}

theorem Framed.stop_le (h : reader.Framed) : reader.stop ≤ reader.bytes.length := by
  obtain ⟨hroom, hbody⟩ := h
  have hle := reader.current_le
  unfold stop
  unfold remaining at hroom hbody
  omega

/-- The reader behind the length prefix, limited to the body. -/
def limited (reader : Reader) (h : reader.Framed) : Reader :=
  ⟨reader.bytes.take reader.stop, reader.current + 4, by
    rw [List.length_take, Nat.min_eq_left h.stop_le]
    unfold stop
    omega⟩

def body (reader : Reader) (h : reader.HasBody) : Reader :=
  ⟨reader.bytes.take reader.stop, reader.current + 5, by
    rw [List.length_take, Nat.min_eq_left h.1.stop_le]
    have hpos := h.2
    unfold stop
    omega⟩

def behind (reader : Reader) (h : reader.Framed) : Reader := ⟨reader.bytes, reader.stop, h.stop_le⟩

theorem length_take_stop (h : reader.Framed) : (reader.bytes.take reader.stop).length = reader.stop := by
  rw [List.length_take, Nat.min_eq_left h.stop_le]

theorem remaining_limited (h : reader.Framed) : (reader.limited h).remaining = reader.bodyLength := by
  show (reader.bytes.take reader.stop).length - (reader.current + 4) = _
  rw [length_take_stop h]
  unfold stop
  omega

end Reader

variable {reader : Reader}

theorem readLength_framed (h : reader.Framed) :
    Read.ofCall readerReadLength reader = .ok (reader.bodyLength, reader.advance 4 h.1) := by
  unfold Read.ofCall readerReadLength readerReadU32
  rw [dif_pos h.1]
  have hshort : ¬leAt reader.rest 0 4 > (reader.advance 4 h.1).remaining := by
    have hbody := h.2
    have hbehind : (reader.advance 4 h.1).remaining = reader.remaining - 4 := Nat.sub_add_eq ..
    rw [hbehind]
    exact Nat.not_lt.mpr hbody
  simp only [if_neg hshort]
  rfl

theorem readLength_unframed (h : ¬reader.Framed) : ∃ e, Read.ofCall readerReadLength reader = .error e := by
  unfold Read.ofCall readerReadLength readerReadU32
  by_cases hroom : 4 ≤ reader.remaining
  · rw [dif_pos hroom]
    have hlong : leAt reader.rest 0 4 > (reader.advance 4 hroom).remaining := by
      have hbehind : (reader.advance 4 hroom).remaining = reader.remaining - 4 := Nat.sub_add_eq ..
      rw [hbehind]
      exact Nat.not_le.mp fun hle => h ⟨hroom, hle⟩
    simp only [if_pos hlong]
    exact ⟨_, rfl⟩
  · rw [dif_neg hroom]
    exact ⟨_, rfl⟩

theorem pushLimit_framed (h : reader.Framed) :
    readerPushLimit reader.bodyLength (reader.advance 4 h.1) = .ok (reader.bytes, reader.limited h) := by
  have hbody := h.2
  have hbehind : (reader.advance 4 h.1).remaining = reader.remaining - 4 := Nat.sub_add_eq ..
  unfold readerPushLimit
  rw [dif_pos (by omega)]
  refine congrArg Except.ok (Prod.ext rfl ?_)
  show (⟨reader.bytes.take (reader.current + 4 + reader.bodyLength), _, _⟩ : Reader) = ⟨_, _, _⟩
  congr 2
  unfold Reader.stop
  omega

theorem readByte_limited (h : reader.HasBody) :
    readerReadByte (reader.limited h.1) = .ok (reader.discriminator, reader.body h) := by
  have hremaining := Reader.remaining_limited h.1
  have hpos := h.2
  have hread : readBytes 1 (reader.limited h.1) =
      .ok ((reader.limited h.1).rest.take 1, (reader.limited h.1).advance 1 (by omega)) := dif_pos (by omega)
  unfold readerReadByte
  rw [run_bind_of_ok hread]
  refine congrArg Except.ok (Prod.ext ?_ rfl)
  show byteAt (((reader.bytes.take reader.stop).drop (reader.current + 4)).take 1) 0 = byteAt (reader.bytes.drop reader.current) 4
  have hstop : reader.current + 4 < reader.stop := by
    unfold Reader.stop
    omega
  unfold byteAt
  rw [List.getElem?_take_of_lt (by decide), List.getElem?_drop, List.getElem?_drop, Nat.add_zero, List.getElem?_take_of_lt hstop]

theorem readByte_empty (h : reader.Framed) (hempty : reader.bodyLength = 0) :
    ∃ e, readerReadByte (reader.limited h) = .error e := by
  have hremaining := Reader.remaining_limited h
  have hread : readBytes 1 (reader.limited h) = .error malformed := dif_neg (by omega)
  exact ⟨_, run_bind_of_error hread⟩

/-! ## The decoder -/

section

variable {decodeDefined : Nat → Decode Value} {branches : List UnionBranch} {branch : UnionBranch} {requests : Nat}
  {value : Value} {s' : Decoding}

theorem onReader_of_ok {α : Type} {read : Read α} {s : Decoding} {a : α} {r : Reader} (h : read s.reader = .ok (a, r)) :
    onReader read s = .ok (a, ⟨r, s.requests⟩) := by
  unfold onReader
  rw [h]

theorem onReader_of_error {α : Type} {read : Read α} {s : Decoding} {e : Stop Result} (h : read s.reader = .error e) :
    onReader read s = .error e := by
  unfold onReader
  rw [h]

theorem decodeUnion_bodiless (h : ¬reader.HasBody) :
    ∃ e, decodeUnion decodeDefined branches ⟨reader, requests⟩ = .error e := by
  by_cases hframed : reader.Framed
  · have hempty : reader.bodyLength = 0 := Nat.eq_zero_of_not_pos fun hpos => h ⟨hframed, hpos⟩
    obtain ⟨e, he⟩ := readByte_empty hframed hempty
    refine ⟨e, ?_⟩
    unfold decodeUnion
    rw [run_bind_of_ok (onReader_of_ok (readLength_framed hframed)),
      run_bind_of_ok (onReader_of_ok (pushLimit_framed hframed)), run_get_bind]
    exact run_bind_of_error (onReader_of_error he)
  · obtain ⟨e, he⟩ := readLength_unframed hframed
    exact ⟨e, run_bind_of_error (onReader_of_error he)⟩

theorem decodeUnion_body (h : reader.HasBody) : decodeUnion decodeDefined branches ⟨reader, requests⟩ =
    (match branchOf branches reader.discriminator with
      | some branch => do
        let value ← decodeDefined branch.ref
        onReader (modify (Reader.popLimit reader.bytes))
        return .union reader.discriminator (some value)
      | none => do
        onReader (modify (Reader.seek reader.stop))
        onReader (modify (Reader.popLimit reader.bytes))
        return .union 0 none : Decode Value) ⟨reader.body h, requests⟩ := by
  unfold decodeUnion
  have hstop : (reader.limited h.1).current + reader.bodyLength = reader.stop := Nat.add_assoc ..
  rw [run_bind_of_ok (onReader_of_ok (readLength_framed h.1)),
    run_bind_of_ok (onReader_of_ok (pushLimit_framed h.1)), run_get_bind, hstop]
  exact run_bind_of_ok (onReader_of_ok (readByte_limited h))

theorem decodeUnion_known (h : reader.HasBody) (hbranch : branchOf branches reader.discriminator = some branch) :
    decodeUnion decodeDefined branches ⟨reader, requests⟩ = .ok (value, s') ↔
      ∃ inner t, decodeDefined branch.ref ⟨reader.body h, requests⟩ = .ok (inner, t) ∧
        value = .union reader.discriminator (some inner) ∧ s' = ⟨t.reader.popLimit reader.bytes, t.requests⟩ := by
  rw [decodeUnion_body h, hbranch]
  dsimp only
  rw [run_bind_ok]
  refine exists_congr fun inner => exists_congr fun t => and_congr_right fun _ => ?_
  rw [run_bind_of_ok (onReader_of_ok rfl), run_pure_ok, eq_comm, @eq_comm _ s']

theorem decodeUnion_unknown (h : reader.HasBody) (hbranch : branchOf branches reader.discriminator = none) :
    decodeUnion decodeDefined branches ⟨reader, requests⟩ = .ok (.union 0 none, ⟨reader.behind h.1, requests⟩) := by
  have hlength := Reader.length_take_stop h.1
  have hseek : (reader.body h).seek reader.stop = ⟨reader.bytes.take reader.stop, reader.stop, Nat.le_of_eq hlength.symm⟩ :=
    dif_pos (Nat.le_of_eq hlength.symm)
  have hpop : ((reader.body h).seek reader.stop).popLimit reader.bytes = reader.behind h.1 := by
    rw [hseek]
    exact dif_pos (List.length_take_le' ..)
  rw [decodeUnion_body h, hbranch]
  dsimp only
  rw [run_bind_of_ok (onReader_of_ok rfl), run_bind_of_ok (onReader_of_ok rfl), ← hpop]
  rfl

end

/-! ## The view reader -/

theorem run_rejectIf_bind {σ α : Type} {e : Stop Result} {c : Prop} [Decidable c] {f : Unit → StateT σ Outcome α}
    {s : σ} :
    ((liftM (rejectIf e c) : StateT σ Outcome Unit) >>= f) s = if c then .error e else f () s := by
  by_cases h : c
  · rw [if_pos h]
    refine run_bind_of_error ?_
    rw [rejectIf_of h]
    rfl
  · rw [if_neg h]
    refine run_bind_of_ok ?_
    rw [rejectIf_of_not h]
    rfl

section

variable {viewDefined : Nat → Read View} {branches : List UnionBranch} {branch : UnionBranch}

theorem viewUnion_bodiless (h : ¬reader.HasBody) : ∃ e, viewUnion viewDefined branches reader = .error e := by
  unfold viewUnion
  rw [run_get_bind]
  by_cases hframed : reader.Framed
  · have hempty : reader.bodyLength = 0 := Nat.eq_zero_of_not_pos fun hpos => h ⟨hframed, hpos⟩
    rw [run_bind_of_ok (readLength_framed hframed), run_rejectIf_bind, if_pos (by omega)]
    exact ⟨_, rfl⟩
  · obtain ⟨e, he⟩ := readLength_unframed hframed
    exact ⟨e, run_bind_of_error he⟩

theorem viewUnion_body (h : reader.HasBody) : viewUnion viewDefined branches reader =
    (do
      viewBranch viewDefined branches reader.discriminator
      modify (Reader.popLimit reader.bytes)
      return ⟨reader.current, reader.bodyLength + wireSizeLen⟩ : Read View) (reader.body h) := by
  unfold viewUnion
  rw [run_get_bind, run_bind_of_ok (readLength_framed h.1), run_rejectIf_bind, if_neg (Nat.not_lt.mpr h.2),
    run_bind_of_ok (pushLimit_framed h.1), run_bind_of_ok (readByte_limited h)]

theorem viewUnion_ok (h : reader.HasBody) :
    (∃ view behind, viewUnion viewDefined branches reader = .ok (view, behind)) ↔
    ∃ behind, viewBranch viewDefined branches reader.discriminator (reader.body h) = .ok ((), behind) := by
  rw [viewUnion_body h]
  constructor
  · rintro ⟨view, behind, hrun⟩
    obtain ⟨⟨⟩, t, hread, -⟩ := run_bind_ok.mp hrun
    exact ⟨t, hread⟩
  · rintro ⟨t, hread⟩
    exact ⟨_, _, run_bind_of_ok hread⟩

theorem viewBranch_known {discriminator : Nat} (hbranch : branchOf branches discriminator = some branch) :
    (∃ behind, viewBranch viewDefined branches discriminator reader = .ok ((), behind)) ↔
      ∃ view behind, viewDefined branch.ref reader = .ok (view, behind) ∧ behind.remaining = 0 := by
  unfold viewBranch
  rw [hbranch]
  dsimp only
  constructor
  · rintro ⟨behind, hrun⟩
    obtain ⟨view, t, hread, hcheck⟩ := run_bind_ok.mp hrun
    refine ⟨view, t, hread, ?_⟩
    by_contra hleft
    rw [run_get_bind, rejectIf_of hleft] at hcheck
    cases hcheck
  · rintro ⟨view, t, hread, hend⟩
    refine ⟨t, ?_⟩
    rw [run_bind_of_ok hread, run_get_bind, rejectIf_of_not (not_not_intro hend)]
    rfl

theorem viewBranch_unknown {discriminator : Nat} (hbranch : branchOf branches discriminator = none) :
    viewBranch viewDefined branches discriminator reader = .ok ((), reader.advance reader.remaining (Nat.le_refl _)) := by
  unfold viewBranch
  rw [hbranch]
  exact congrArg (fun r => Except.ok ((), r)) (dif_pos (Nat.le_refl _))

end

end Bebop.C
