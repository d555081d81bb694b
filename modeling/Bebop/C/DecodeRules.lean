import Bebop.C.UnionBodies

/-!
# Bebop — what emitted decoders do to their readers

No decoder moves the end of its reader. And each type that has values has one that is read
whatever follows it: a decoder either reads it, or has no room for any value at all
(`Buildable.decides`); a view reader reads it (`Buildable.views`).
-/

namespace Bebop.C

open Bytes Checked Message Compiler Fallible Decode

/-! ## Decoders keep the end of their reader -/

def SameEnd (s s' : Decoding) : Prop := s'.reader.bytes = s.reader.bytes

def Reader.SameEnd (reader reader' : Reader) : Prop := reader'.bytes = reader.bytes

instance : Std.Refl SameEnd := ⟨fun _ => rfl⟩
instance : IsTrans Decoding SameEnd := ⟨fun _ _ _ h h' => h'.trans h⟩
instance : Std.Refl Reader.SameEnd := ⟨fun _ => rfl⟩
instance : IsTrans Reader Reader.SameEnd := ⟨fun _ _ _ h h' => h'.trans h⟩

namespace Reader

instance (count : Nat) : Along SameEnd (readBytes count) := by
  refine ⟨fun reader a reader' hrun => ?_⟩
  unfold readBytes at hrun
  split at hrun
  · cases hrun
    rfl
  · cases hrun

theorem sameEnd_ofCall {α : Type} {call : Reader → Outcome α × Reader} (h : ∀ reader, SameEnd reader (call reader).2) :
    Along SameEnd (Read.ofCall call) := by
  refine ⟨fun reader a reader' hrun => ?_⟩
  unfold Read.ofCall at hrun
  split at hrun
  · rename_i a behind hcall
    cases hrun
    have hsame := h reader
    rw [hcall] at hsame
    exact hsame
  · cases hrun

instance : Along SameEnd (Read.ofCall readerReadU32) := by
  refine sameEnd_ofCall fun reader => ?_
  unfold readerReadU32
  split <;> rfl

instance : Along SameEnd (Read.ofCall beginMessageIndex) := by
  refine sameEnd_ofCall fun reader => ?_
  unfold beginMessageIndex
  by_cases h : reader.Framed
  · rw [readIndex_framed h]
    cases messageIndexBegin reader.frame <;> rfl
  · rw [readIndex_unframed h]
    rfl

instance (amount : Nat) : Along SameEnd (modify (skip amount) : Read PUnit) := by
  refine ⟨fun reader a reader' hrun => ?_⟩
  cases hrun
  unfold skip
  split <;> rfl

instance : Along SameEnd readerReadString := by
  unfold readerReadString
  infer_instance

instance (kind : Scalar) : Along SameEnd (readScalar kind) := by
  unfold readScalar
  infer_instance

instance (size count : Nat) : Along SameEnd (readFixedArray size count) := by
  unfold readFixedArray
  infer_instance

end Reader

instance Along.onReader {α : Type} {read : Read α} [h : Along Reader.SameEnd read] : Along SameEnd (onReader read) := by
  refine ⟨fun s a s' hrun => ?_⟩
  unfold Decode.onReader at hrun
  split at hrun
  · rename_i a reader hread
    cases hrun
    exact h.ends _ _ _ hread
  · cases hrun

instance Along.within {α : Type} (inner : Reader) (decode : Decode α) : Along SameEnd (within inner decode) := by
  refine ⟨fun s a s' hrun => ?_⟩
  unfold Decode.within at hrun
  split at hrun
  · cases hrun
    rfl
  · cases hrun

instance (alloc : Nat → Bool) : Along SameEnd (allocate alloc) := by
  refine ⟨fun s a s' hrun => ?_⟩
  cases hrun
  rfl

instance Along.times {σ ε α : Type} {R : σ → σ → Prop} [Std.Refl R] [IsTrans σ R] {round : StateT σ (Except ε) α}
    [Along R round] (n : Nat) : Along R (times round n) := by
  induction n with
  | zero => exact Along.pure []
  | succ n ih =>
    unfold Bebop.C.times
    infer_instance

section

variable {alloc : Nat → Bool} {descriptors : List DescDef} {decodeDefined : Nat → Decode Value}

instance sameEnd_decodeEntries {decodeKey decodeValue : Decode Value} [Along SameEnd decodeKey] [Along SameEnd decodeValue]
    (n : Nat) (entries : List (Value × Value)) :
    Along SameEnd (decodeEntries alloc decodeKey decodeValue n entries) := by
  induction n generalizing entries with
  | zero => exact Along.pure entries
  | succ n ih =>
    unfold decodeEntries
    infer_instance

variable [hdefined : ∀ ref, Along SameEnd (decodeDefined ref)]

instance sameEnd_decodeType (type : DescType) : Along SameEnd (decodeType alloc descriptors decodeDefined type) := by
  induction type with
  | scalar kind =>
    cases kind <;> (unfold decodeType; infer_instance)
  | array element ih =>
    unfold decodeType
    refine Along.after fun length => ?_
    split <;> infer_instance
  | fixedArray element size ih =>
    unfold decodeType
    split <;> infer_instance
  | map key value ihKey ihValue =>
    unfold decodeType
    infer_instance
  | defined ref =>
    unfold decodeType
    split <;> infer_instance

instance sameEnd_decodeFields (types : List DescType) : Along SameEnd (decodeFields alloc descriptors decodeDefined types) := by
  induction types with
  | nil => exact Along.pure []
  | cons type types ih =>
    unfold decodeFields
    infer_instance

instance sameEnd_decodeMessage (fields : List MessageField) :
    Along SameEnd (decodeMessage alloc descriptors decodeDefined fields) := by
  unfold decodeMessage decodeIterated decodePayload
  infer_instance

theorem popLimit_take {inner : Reader} {bytes : List UInt8} {n : Nat} (h : inner.bytes = bytes.take n) :
    (inner.popLimit bytes).bytes = bytes ∧ (inner.popLimit bytes).current = inner.current := by
  have hle : inner.bytes.length ≤ bytes.length := by
    rw [h]
    exact List.length_take_le' ..
  unfold Reader.popLimit
  rw [dif_pos hle]
  exact ⟨rfl, rfl⟩

instance sameEnd_decodeUnion (branches : List UnionBranch) : Along SameEnd (decodeUnion decodeDefined branches) := by
  refine ⟨fun s value s' hrun => ?_⟩
  obtain ⟨reader, requests⟩ := s
  by_cases h : reader.HasBody
  · cases hbranch : branchOf branches reader.discriminator with
    | none =>
      rw [decodeUnion_unknown h hbranch] at hrun
      cases hrun
      rfl
    | some branch =>
      obtain ⟨inner, t, hinner, -, rfl⟩ := (decodeUnion_known h hbranch).mp hrun
      exact (popLimit_take ((hdefined branch.ref).ends _ _ _ hinner)).1
  · obtain ⟨e, he⟩ := @decodeUnion_bodiless _ decodeDefined branches requests h
    rw [he] at hrun
    cases hrun

instance sameEnd_decodeBody (ref : Nat) : Along SameEnd (decodeBody alloc descriptors decodeDefined ref) := by
  unfold decodeBody
  split
  · infer_instance
  · infer_instance
  · infer_instance
  · refine ⟨fun s a s' hrun => ?_⟩
    cases hrun

end

instance sameEnd_decodeReader (alloc : Nat → Bool) (descriptors : List DescDef) (room ref : Nat) :
    Along SameEnd (decodeReader alloc descriptors room ref) := by
  induction room generalizing ref with
  | zero =>
    refine ⟨fun s a s' hrun => ?_⟩
    cases hrun
  | succ room ih =>
    unfold decodeReader
    infer_instance

/-! ## Reading a prefix -/

section

variable {σ α β : Type} {readerOf : σ → Reader} {m : StateT σ Outcome α} {f : α → StateT σ Outcome β}
  {bytes bytes' : List UInt8} {Q : α → Prop} {Q' : β → Prop}

/-- The program reads these bytes, whatever follows, and has a result of which `Q` holds. -/
def Passes (readerOf : σ → Reader) (m : StateT σ Outcome α) (bytes : List UInt8) (Q : α → Prop) : Prop :=
  ∀ s, bytes <+: (readerOf s).rest → ∃ a s', m s = .ok (a, s') ∧ Q a ∧ (readerOf s').bytes = (readerOf s).bytes ∧
    (readerOf s').current = (readerOf s).current + bytes.length

def Blocked (m : StateT σ Outcome α) : Prop := ∀ s a s', m s ≠ .ok (a, s')

theorem Passes.pure {a : α} (h : Q a) : Passes readerOf (Pure.pure a) [] Q := fun s _ => ⟨a, s, rfl, h, rfl, rfl⟩

theorem Passes.bind (h : Passes readerOf m bytes Q) (h' : ∀ a, Q a → Passes readerOf (f a) bytes' Q') :
    Passes readerOf (m >>= f) (bytes ++ bytes') Q' := by
  intro s hprefix
  obtain ⟨tail, htail⟩ := hprefix
  rw [List.append_assoc] at htail
  obtain ⟨a, t, hrun, hQ, hbytes, hcurrent⟩ := h s ⟨_, htail⟩
  have hrest : (readerOf t).rest = bytes' ++ tail := by
    rw [Reader.rest, hbytes, hcurrent, ← List.drop_drop]
    change (readerOf s).rest.drop bytes.length = _
    rw [← htail, List.drop_left]
  obtain ⟨b, s', hrun', hQ', hbytes', hcurrent'⟩ := h' a hQ t ⟨tail, hrest.symm⟩
  refine ⟨b, s', ?_, hQ', hbytes'.trans hbytes, ?_⟩
  · rw [run_bind_of_ok hrun, hrun']
  · rw [hcurrent', hcurrent, List.length_append, Nat.add_assoc]

theorem Passes.map (h : Passes readerOf m bytes Q) (h' : ∀ a, Q a → Passes readerOf (f a) [] Q') :
    Passes readerOf (m >>= f) bytes Q' := by
  have hbind := h.bind h'
  rwa [List.append_nil] at hbind

theorem Passes.after (h : Passes readerOf m [] Q) (h' : ∀ a, Q a → Passes readerOf (f a) bytes' Q') :
    Passes readerOf (m >>= f) bytes' Q' := h.bind h'

theorem Passes.get {f : σ → StateT σ Outcome β}
    (h : ∀ s, bytes <+: (readerOf s).rest → Passes readerOf (f s) bytes Q') :
    Passes readerOf (MonadStateOf.get >>= f) bytes Q' := fun s hprefix => h s hprefix s hprefix

theorem Passes.rejectIf {e : Stop Result} {c : Prop} [Decidable c] {f : Unit → StateT σ Outcome β} (hc : ¬c)
    (h : Passes readerOf (f ()) bytes Q') :
    Passes readerOf ((liftM (Checked.rejectIf e c) : StateT σ Outcome Unit) >>= f) bytes Q' := by
  intro s hprefix
  obtain ⟨b, s', hrun, hpost⟩ := h s hprefix
  refine ⟨b, s', ?_, hpost⟩
  rw [run_rejectIf_bind, if_neg hc, hrun]

theorem Passes.times (h : Passes readerOf m bytes Q) (n : Nat) :
    Passes readerOf (times m n) (List.replicate n bytes).flatten fun _ => True := by
  induction n with
  | zero => exact .pure trivial
  | succ n ih =>
    rw [List.replicate_succ, List.flatten_cons]
    exact h.bind fun first _ => ih.map fun _ _ => .pure trivial

theorem Blocked.bind (h : Blocked m) : Blocked (m >>= f) := by
  intro s b s' hrun
  obtain ⟨a, t, hm, -⟩ := run_bind_ok.mp hrun
  exact h s a t hm

theorem Blocked.after (h : ∀ a, Blocked (f a)) : Blocked (m >>= f) := by
  intro s b s' hrun
  obtain ⟨a, t, -, hf⟩ := run_bind_ok.mp hrun
  exact h a t b s' hf

theorem Blocked.times (h : Blocked m) {n : Nat} (hn : n ≠ 0) : Blocked (times m n) := by
  cases n with
  | zero => exact absurd rfl hn
  | succ n => exact h.bind

end

/-! ## Reads of a prefix -/

theorem length_le_remaining {reader : Reader} {bytes : List UInt8} (h : bytes <+: reader.rest) :
    bytes.length ≤ reader.remaining := by
  have hle := h.length_le
  rwa [Reader.length_rest] at hle

theorem passes_readBytes (bytes : List UInt8) : Passes id (readBytes bytes.length) bytes (· = bytes) := by
  intro reader hprefix
  have hle := length_le_remaining hprefix
  exact ⟨_, _, dif_pos hle, (List.prefix_iff_eq_take.mp hprefix).symm, rfl, rfl⟩

theorem passes_readU32 {bytes : List UInt8} (h : bytes.length = 4) :
    Passes id (Read.ofCall readerReadU32) bytes (· = leNat bytes) := by
  intro reader hprefix
  have hle := length_le_remaining hprefix
  rw [h] at hle
  have hread : readerReadU32 reader = (.ok (leAt reader.rest 0 4), reader.advance 4 hle) := dif_pos hle
  refine ⟨leAt reader.rest 0 4, reader.advance 4 hle, ?_, ?_, rfl, by rw [h]; rfl⟩
  · unfold Read.ofCall
    rw [hread]
  · rw [leAt, List.drop_zero, List.prefix_iff_eq_take.mp hprefix, h]
    rfl

theorem passes_readString : Passes id readerReadString [0, 0, 0, 0, 0] fun _ => True := by
  unfold readerReadString
  change Passes id _ ([0, 0, 0, 0] ++ [0]) _
  refine (passes_readU32 rfl).bind ?_
  rintro length rfl
  refine .get fun reader hprefix => ?_
  have hle := length_le_remaining hprefix
  refine .rejectIf (Nat.not_le.mpr hle) (.rejectIf ?_ ((passes_readBytes [0]).map fun _ _ => .pure trivial))
  obtain ⟨tail, htail⟩ := hprefix
  change ¬byteAt (id reader).rest 0 ≠ 0
  rw [← htail]
  exact not_not_intro rfl

theorem passes_readScalar (kind : Scalar) :
    Passes id (readScalar kind) (List.replicate (wireSizeMacro kind) 0) fun _ => True := by
  unfold readScalar
  have hread := passes_readBytes (List.replicate (wireSizeMacro kind) 0)
  rw [List.length_replicate] at hread
  refine hread.map fun bytes _ => ?_
  split <;> exact .pure trivial

theorem passes_readFixedArray {size : Nat} (hsize : 0 < size) (count : Nat) :
    Passes id (readFixedArray size count) (List.replicate (count * size) 0) fun _ => True := by
  unfold readFixedArray
  split
  · rename_i hzero
    rw [hzero, Nat.zero_mul]
    exact .pure trivial
  · have hread := passes_readBytes (List.replicate (count * size) 0)
    rw [List.length_replicate] at hread
    refine .get fun reader hprefix => .rejectIf ?_ fun s hprefix => ?_
    · have hle := length_le_remaining hprefix
      rw [List.length_replicate] at hle
      exact Nat.not_lt.mpr ((Nat.le_div_iff_mul_le hsize).mpr hle)
    · obtain ⟨a, s', hrun, -, hpost⟩ := hread s hprefix
      exact ⟨a, s', hrun, trivial, hpost⟩

theorem Passes.onReader {α : Type} {read : Read α} {bytes : List UInt8} {Q : α → Prop} (h : Passes id read bytes Q) :
    Passes Decoding.reader (onReader read) bytes Q := by
  intro s hprefix
  obtain ⟨a, reader, hrun, hQ, hbytes, hcurrent⟩ := h s.reader hprefix
  exact ⟨a, ⟨reader, s.requests⟩, onReader_of_ok hrun, hQ, hbytes, hcurrent⟩

/-! ## Empty messages and unions -/

/-- A message without fields; and a union of an unknown branch. -/
def emptyBody : List UInt8 := [1, 0, 0, 0, 0]

section

variable {reader : Reader}

theorem bodyLength_emptyBody (h : emptyBody <+: reader.rest) : reader.bodyLength = 1 := by
  obtain ⟨tail, htail⟩ := h
  unfold Reader.bodyLength
  rw [← htail]
  rfl

theorem hasBody_emptyBody (h : emptyBody <+: reader.rest) : reader.HasBody := by
  have hlength := bodyLength_emptyBody h
  have hle := length_le_remaining h
  change 5 ≤ reader.remaining at hle
  exact ⟨⟨by omega, by omega⟩, by omega⟩

theorem discriminator_emptyBody (h : emptyBody <+: reader.rest) : reader.discriminator = 0 := by
  obtain ⟨tail, htail⟩ := h
  unfold Reader.discriminator
  rw [← htail]
  rfl

theorem stop_emptyBody (h : emptyBody <+: reader.rest) : reader.stop = reader.current + emptyBody.length := by
  unfold Reader.stop
  rw [bodyLength_emptyBody h]
  rfl

theorem frame_emptyBody (h : emptyBody <+: reader.rest) : reader.frame = emptyBody := by
  unfold Reader.frame
  rw [bodyLength_emptyBody h]
  exact (List.prefix_iff_eq_take.mp h).symm

theorem passes_readIndex {parse : List UInt8 → Outcome MessageIndex} {index : MessageIndex}
    (hparse : parse emptyBody = .ok index) : Passes id (Read.ofCall (readIndex parse)) emptyBody (· = index) := by
  intro reader hprefix
  change emptyBody <+: reader.rest at hprefix
  have hframed := (hasBody_emptyBody hprefix).1
  have hlength := bodyLength_emptyBody hprefix
  have hread := @readIndex_framed parse _ hframed
  rw [frame_emptyBody hprefix, hparse] at hread
  refine ⟨index, _, Read.ofCall_of_ok hread, rfl, rfl, ?_⟩
  change reader.current + (4 + reader.bodyLength) = _
  rw [hlength]
  rfl

def emptyIndex : MessageIndex := ⟨emptyBody, 4, 4, 0, 1, .empty⟩

theorem messageIndexBegin_emptyBody : messageIndexBegin emptyBody = .ok emptyIndex := by decide

theorem messageIndexParse_emptyBody : messageIndexParse emptyBody = .ok emptyIndex := by decide

variable {decodeDefined : Nat → Decode Value} {viewDefined : Nat → Read View} {branches : List UnionBranch}

theorem branchOf_zero (hzero : ∀ branch ∈ branches, branch.discriminator ≠ 0) : branchOf branches 0 = none :=
  List.find?_eq_none.mpr fun branch hbranch => by rw [decide_eq_true_iff]; exact hzero branch hbranch

theorem passes_decodeUnion (hzero : ∀ branch ∈ branches, branch.discriminator ≠ 0) :
    Passes Decoding.reader (decodeUnion decodeDefined branches) emptyBody fun _ => True := by
  intro s hprefix
  have hbody := hasBody_emptyBody hprefix
  have hbranch : branchOf branches s.reader.discriminator = none := by
    rw [discriminator_emptyBody hprefix]
    exact branchOf_zero hzero
  exact ⟨_, _, decodeUnion_unknown hbody hbranch, trivial, rfl, stop_emptyBody hprefix⟩

theorem passes_viewUnion (hzero : ∀ branch ∈ branches, branch.discriminator ≠ 0) :
    Passes id (viewUnion viewDefined branches) emptyBody fun _ => True := by
  intro reader hprefix
  change emptyBody <+: reader.rest at hprefix
  have hbody := hasBody_emptyBody hprefix
  have hbranch : branchOf branches reader.discriminator = none := by
    rw [discriminator_emptyBody hprefix]
    exact branchOf_zero hzero
  have hpop := popLimit_take (rfl : ((reader.body hbody).advance _ (Nat.le_refl _)).bytes = reader.bytes.take reader.stop)
  have hrun : viewUnion viewDefined branches reader =
      .ok (⟨reader.current, reader.bodyLength + wireSizeLen⟩,
        ((reader.body hbody).advance _ (Nat.le_refl _)).popLimit reader.bytes) := by
    rw [viewUnion_body hbody, run_bind_of_ok (viewBranch_unknown hbranch)]
    rfl
  refine ⟨_, _, hrun, trivial, hpop.1, hpop.2.trans ?_⟩
  have hlength := Reader.length_take_stop hbody.1
  have hle := (reader.body hbody).current_le
  change reader.current + 5 + ((reader.bytes.take reader.stop).length - (reader.current + 5)) = _
  change reader.current + 5 ≤ (reader.bytes.take reader.stop).length at hle
  rw [Nat.add_sub_cancel' hle, hlength]
  exact stop_emptyBody hprefix

end

/-! ## The least values -/

def leastSize : Scalar → Nat
  | .string => 5
  | kind => wireSizeMacro kind

/-- The type has a value of so many bytes at most, and no struct is in itself. -/
inductive Buildable (descriptors : List DescDef) : DescType → Nat → Prop
  | scalar (kind : Scalar) : Buildable descriptors (.scalar kind) (leastSize kind)
  | array (element : DescType) : Buildable descriptors (.array element) 4
  | fixedArray {element : DescType} {n : Nat} (size : Nat) (helement : Buildable descriptors element n) :
    Buildable descriptors (.fixedArray element size) (size * n)
  | map (key value : DescType) : Buildable descriptors (.map key value) 4
  | enum {ref : Nat} {baseType : Scalar} (hdef : descriptors[ref]? = some (.enum baseType)) :
    Buildable descriptors (.defined ref) (leastSize baseType)
  | struct {ref : Nat} {fields : List DescType} {size : DescType → Nat}
    (hdef : descriptors[ref]? = some (.struct fields))
    (hfields : ∀ type ∈ fields, Buildable descriptors type (size type)) :
    Buildable descriptors (.defined ref) (fields.map size).sum
  | message {ref : Nat} {fields : List MessageField} (hdef : descriptors[ref]? = some (.message fields)) :
    Buildable descriptors (.defined ref) 5
  | union {ref : Nat} {branches : List UnionBranch} (hdef : descriptors[ref]? = some (.union branches))
    (hzero : ∀ branch ∈ branches, branch.discriminator ≠ 0) : Buildable descriptors (.defined ref) 5

abbrev always : Nat → Bool := fun _ => true

section

variable {descriptors : List DescDef}

theorem zeroCopySize_pos {element : DescType} {size : Nat} (h : zeroCopySize element = some size) : 0 < size := by
  cases element with
  | scalar kind =>
    cases kind with
    | string => cases h
    | _ =>
      cases h
      decide
  | _ => cases h

theorem enumBaseType_of_not_enum {ref : Nat} {d : DescDef} (hdef : descriptors[ref]? = some d)
    (hd : ∀ baseType, d ≠ .enum baseType) : enumBaseType descriptors ref = none := by
  unfold enumBaseType
  rw [hdef]
  cases d with
  | enum baseType => exact absurd rfl (hd baseType)
  | _ => rfl

/-- A decoder reads some bytes, at most so many, whatever follows them, or it never ends. -/
def Decides {α : Type} (decode : Decode α) (n : Nat) : Prop :=
  (∃ bytes, bytes.length ≤ n ∧ Passes Decoding.reader decode bytes fun _ => True) ∨ Blocked decode

theorem length_zeros_le {kind : Scalar} :
    (List.replicate (wireSizeMacro kind) (0 : UInt8)).length ≤ leastSize kind := by
  rw [List.length_replicate]
  cases kind <;> decide

theorem length_flatten_replicate {bytes : List UInt8} {n : Nat} (h : bytes.length ≤ n) (size : Nat) :
    (List.replicate size bytes).flatten.length ≤ size * n := by
  rw [List.length_flatten, List.map_replicate, List.sum_replicate_nat]
  exact Nat.mul_le_mul_left size h

theorem decides_scalar {decodeDefined : Nat → Decode Value} (kind : Scalar) :
    Decides (decodeType always descriptors decodeDefined (.scalar kind)) (leastSize kind) := by
  cases kind with
  | string => exact .inl ⟨_, Nat.le_refl _, passes_readString.onReader.map fun _ _ => .pure trivial⟩
  | _ => exact .inl ⟨_, length_zeros_le, (passes_readScalar _).onReader.map fun _ _ => .pure trivial⟩

theorem decides_fixedArray {decodeDefined : Nat → Decode Value} {element : DescType} {n : Nat} (size : Nat)
    (hleast : ∀ elementSize, zeroCopySize element = some elementSize → elementSize ≤ n)
    (h : Decides (decodeType always descriptors decodeDefined element) n) :
    Decides (decodeType always descriptors decodeDefined (.fixedArray element size)) (size * n) := by
  unfold decodeType
  split
  · rename_i elementSize helement
    refine .inl ⟨_, ?_, (passes_readFixedArray (zeroCopySize_pos helement) size).onReader.map fun _ _ => .pure trivial⟩
    rw [List.length_replicate]
    exact Nat.mul_le_mul_left size (hleast elementSize helement)
  · by_cases hsize : size = 0
    · subst hsize
      exact .inl ⟨[], Nat.zero_le _, (Passes.pure (Q := fun _ => True) trivial).map fun _ _ => .pure trivial⟩
    · rcases h with ⟨bytes, hlength, hpasses⟩ | hblocked
      · exact .inl ⟨_, length_flatten_replicate hlength size, (hpasses.times size).map fun _ _ => .pure trivial⟩
      · exact .inr (hblocked.times hsize).bind

theorem Buildable.zeroCopySize_le {type : DescType} {n size : Nat} (h : Buildable descriptors type n)
    (hsize : zeroCopySize type = some size) : size ≤ n := by
  cases h with
  | scalar kind =>
    cases kind <;> cases hsize <;> exact Nat.le_refl _
  | _ => cases hsize

theorem passes_allocate : Passes Decoding.reader (allocate always) [] (· = true) :=
  fun _ _ => ⟨true, _, rfl, rfl, rfl, rfl⟩

theorem passes_skip_zero : Passes id (modify (Reader.skip 0) : Read PUnit) [] fun _ => True :=
  fun reader _ => ⟨⟨⟩, reader.advance 0 (Nat.zero_le _), congrArg (fun r => Except.ok (PUnit.unit, r))
    (dif_pos (Nat.zero_le _)), trivial, rfl, rfl⟩

theorem passes_noItems : Passes id (Read.ofCall readerReadU32) [0, 0, 0, 0] (· = 0) := passes_readU32 rfl

theorem passes_array {decodeDefined : Nat → Decode Value} (element : DescType) :
    Passes Decoding.reader (decodeType always descriptors decodeDefined (.array element)) [0, 0, 0, 0] fun _ => True := by
  unfold decodeType
  refine passes_noItems.onReader.map ?_
  rintro length rfl
  split
  · refine .get fun s _ => .rejectIf (Nat.not_lt_zero _) (.get fun s _ => ?_)
    rw [Nat.zero_mul]
    exact passes_skip_zero.onReader.after fun _ _ => .pure trivial
  · refine .get fun s _ => .rejectIf (Nat.not_lt_zero _) (passes_allocate.after fun hasData _ => ?_)
    exact .rejectIf (fun h => Nat.lt_irrefl 0 h.2) (.after (Passes.pure (Q := fun _ => True) trivial) fun _ _ => .pure trivial)

theorem passes_map {decodeDefined : Nat → Decode Value} (key value : DescType) :
    Passes Decoding.reader (decodeType always descriptors decodeDefined (.map key value)) [0, 0, 0, 0] fun _ => True := by
  unfold decodeType
  refine passes_noItems.onReader.map ?_
  rintro length rfl
  refine .get fun s _ => .rejectIf (Nat.not_lt_zero _) ?_
  exact .after (Passes.pure (Q := fun _ => True) trivial) fun _ _ => .pure trivial

theorem decides_fields {decodeDefined : Nat → Decode Value} {fields : List DescType} {size : DescType → Nat}
    (h : ∀ type ∈ fields, Decides (decodeType always descriptors decodeDefined type) (size type)) :
    Decides (decodeFields always descriptors decodeDefined fields) (fields.map size).sum := by
  induction fields with
  | nil => exact .inl ⟨[], Nat.le_refl _, .pure trivial⟩
  | cons type types ih =>
    unfold decodeFields
    rcases h type (List.mem_cons_self ..) with ⟨bytes, hlength, hpasses⟩ | hblocked
    · rcases ih fun type' htype' => h type' (List.mem_cons_of_mem _ htype') with ⟨bytes', hlength', hpasses'⟩ | hblocked
      · refine .inl ⟨bytes ++ bytes', ?_, hpasses.bind fun first _ => hpasses'.map fun _ _ => .pure trivial⟩
        rw [List.length_append, List.map_cons, List.sum_cons]
        exact Nat.add_le_add hlength hlength'
      · exact .inr (.after fun first => hblocked.bind)
    · exact .inr hblocked.bind

theorem passes_decodeMessage {decodeDefined : Nat → Decode Value} (fields : List MessageField) :
    Passes Decoding.reader (decodeMessage always descriptors decodeDefined fields) emptyBody fun _ => True := by
  unfold decodeMessage
  refine (passes_readIndex messageIndexBegin_emptyBody).onReader.map ?_
  rintro index rfl
  exact .pure trivial

theorem Buildable.decides {type : DescType} {n : Nat} (h : Buildable descriptors type n) (room : Nat) :
    Decides (decodeType always descriptors (decodeReader always descriptors room) type) n := by
  have hblocked (ref : Nat) : Blocked (decodeReader always descriptors 0 ref) := by
    intro s value s' hrun
    cases hrun
  have hdefined {ref : Nat} {d : DescDef} (hdef : descriptors[ref]? = some d) (hd : ∀ baseType, d ≠ .enum baseType)
      (room : Nat) : decodeType always descriptors (decodeReader always descriptors room) (.defined ref) =
        decodeReader always descriptors room ref := by
    unfold decodeType
    rw [enumBaseType_of_not_enum hdef hd]
  induction h generalizing room with
  | scalar kind => exact decides_scalar kind
  | array element => exact .inl ⟨_, Nat.le_refl _, passes_array element⟩
  | fixedArray size helement ih => exact decides_fixedArray size (fun _ => helement.zeroCopySize_le) (ih room)
  | map key value => exact .inl ⟨_, Nat.le_refl _, passes_map key value⟩
  | @enum ref baseType hdef =>
    have hbase : enumBaseType descriptors ref = some baseType := by
      unfold enumBaseType
      rw [hdef]
    unfold decodeType
    rw [hbase]
    exact .inl ⟨_, length_zeros_le, (passes_readScalar baseType).onReader.map fun _ _ => .pure trivial⟩
  | @struct ref fields size hdef hfields ih =>
    rw [hdefined hdef (fun _ h => by cases h)]
    cases room with
    | zero => exact .inr (hblocked ref)
    | succ room =>
      unfold decodeReader decodeBody
      rw [hdef]
      rcases decides_fields fun type htype => ih type htype room with ⟨bytes, hlength, hpasses⟩ | hnone
      · exact .inl ⟨bytes, hlength, hpasses.map fun _ _ => .pure trivial⟩
      · exact .inr hnone.bind
  | @message ref fields hdef =>
    rw [hdefined hdef (fun _ h => by cases h)]
    cases room with
    | zero => exact .inr (hblocked ref)
    | succ room =>
      unfold decodeReader decodeBody
      rw [hdef]
      exact .inl ⟨_, Nat.le_refl _, passes_decodeMessage fields⟩
  | @union ref branches hdef hzero =>
    rw [hdefined hdef (fun _ h => by cases h)]
    cases room with
    | zero => exact .inr (hblocked ref)
    | succ room =>
      unfold decodeReader decodeBody
      rw [hdef]
      exact .inl ⟨_, Nat.le_refl _, passes_decodeUnion hzero⟩

/-! ## The least values of views -/

/-- A view reader reads at most so many bytes, whatever follows them, with enough calls. -/
def Views (descriptors : List DescDef) (type : DescType) (n : Nat) : Prop :=
  ∃ bytes calls, bytes.length ≤ n ∧ ∀ calls' ≥ calls,
    Passes id (viewSkipType descriptors (viewReader descriptors calls') type) bytes fun _ => True

theorem passes_viewSkipBytes (size : Nat) : Passes id (viewSkipBytes size) (List.replicate size 0) fun _ => True := by
  unfold viewSkipBytes
  refine .get fun reader hprefix => ?_
  have hle := length_le_remaining hprefix
  rw [List.length_replicate] at hle
  refine .rejectIf (Nat.not_lt.mpr hle) fun reader hprefix => ?_
  change _ <+: reader.rest at hprefix
  have hle := length_le_remaining hprefix
  rw [List.length_replicate] at hle
  refine ⟨⟨⟩, reader.advance size hle, congrArg (fun r => Except.ok (PUnit.unit, r)) (dif_pos hle), trivial, rfl, ?_⟩
  rw [List.length_replicate]
  rfl

theorem length_skipped_le {kind : Scalar} :
    (List.replicate (typeMapSize kind) (0 : UInt8)).length ≤ leastSize kind := by
  rw [List.length_replicate]
  cases kind <;> decide

theorem passes_viewScalar (kind : Scalar) : ∃ bytes : List UInt8, bytes.length ≤ leastSize kind ∧ ∀ viewDefined,
    Passes id (viewSkipType descriptors viewDefined (.scalar kind)) bytes fun _ => True := by
  unfold viewSkipType
  by_cases hsize : typeMapSize kind = 0
  · refine ⟨[0, 0, 0, 0, 0], ?_, fun viewDefined => ?_⟩
    · cases kind <;> cases hsize
      exact Nat.le_refl _
    · rw [if_neg (not_not_intro hsize)]
      exact passes_readString.map fun _ _ => .pure trivial
  · refine ⟨List.replicate (typeMapSize kind) 0, length_skipped_le, fun viewDefined => ?_⟩
    rw [if_pos hsize]
    exact passes_viewSkipBytes _

theorem passes_viewSkipItems {element : DescType} {skip : Read Unit} {bytes : List UInt8}
    (h : Passes id skip bytes fun _ => True) (count : Nat) :
    Passes id (viewSkipItems element skip count)
      (if element = .scalar .byte then List.replicate count 0 else (List.replicate count bytes).flatten) fun _ => True := by
  unfold viewSkipItems
  split
  · exact passes_viewSkipBytes count
  · exact (h.times count).map fun _ _ => .pure trivial

theorem passes_viewNoItems {element : DescType} {skip : Read Unit} :
    Passes id (viewSkipItems element skip 0) [] fun _ => True := by
  unfold viewSkipItems
  split
  · exact passes_viewSkipBytes 0
  · exact .after (Passes.pure (Q := fun _ => True) trivial) fun _ _ => .pure trivial

theorem passes_viewFields {fields : List DescType} {size : DescType → Nat}
    (h : ∀ type ∈ fields, Views descriptors type (size type)) :
    ∃ (bytes : List UInt8) (calls : Nat), bytes.length ≤ (fields.map size).sum ∧ ∀ calls' ≥ calls,
      Passes id (viewFields descriptors (viewReader descriptors calls') fields) bytes fun _ => True := by
  induction fields with
  | nil => exact ⟨[], 0, Nat.le_refl _, fun _ _ => .pure trivial⟩
  | cons type types ih =>
    obtain ⟨bytes, calls, hlength, hpasses⟩ := h type (List.mem_cons_self ..)
    obtain ⟨bytes', calls', hlength', hpasses'⟩ := ih fun type' htype' => h type' (List.mem_cons_of_mem _ htype')
    refine ⟨bytes ++ bytes', max calls calls', ?_, fun calls'' hcalls => ?_⟩
    · rw [List.length_append, List.map_cons, List.sum_cons]
      exact Nat.add_le_add hlength hlength'
    · unfold viewFields
      exact (hpasses calls'' ((Nat.le_max_left ..).trans hcalls)).bind
        fun _ _ => hpasses' calls'' ((Nat.le_max_right ..).trans hcalls)

theorem passes_viewMessageFields {viewDefined : Nat → Read View} (fields : List MessageField) :
    Passes id (viewMessageFields descriptors viewDefined emptyIndex fields) [] fun _ => True := by
  induction fields with
  | nil => exact .pure trivial
  | cons field fields ih =>
    unfold viewMessageFields
    have hnone : messageIndexField emptyIndex field.tag = .ok none := if_pos (.inr rfl)
    rw [hnone]
    exact .after (Passes.pure (Q := (· = none)) rfl) (by rintro slice rfl; exact ih)

theorem Buildable.views {type : DescType} {n : Nat} (h : Buildable descriptors type n) : Views descriptors type n := by
  have hdefined {ref : Nat} {d : DescDef} (hdef : descriptors[ref]? = some d) (hd : ∀ baseType, d ≠ .enum baseType)
      {n : Nat} {bytes : List UInt8} (hlength : bytes.length ≤ n) (calls : Nat) (hbody : ∀ calls' ≥ calls,
        Passes id (viewBody descriptors (viewReader descriptors calls') ref) bytes fun _ => True) :
      Views descriptors (.defined ref) n := by
    refine ⟨bytes, calls + 1, hlength, fun calls' hcalls => ?_⟩
    unfold viewSkipType
    rw [enumBaseType_of_not_enum hdef hd]
    cases calls' with
    | zero => cases hcalls
    | succ calls' => exact (hbody calls' (Nat.le_of_succ_le_succ hcalls)).map fun _ _ => .pure trivial
  induction h with
  | scalar kind =>
    obtain ⟨bytes, hlength, hpasses⟩ := @passes_viewScalar descriptors kind
    exact ⟨bytes, 0, hlength, fun _ _ => hpasses _⟩
  | array element =>
    refine ⟨[0, 0, 0, 0], 0, Nat.le_refl _, fun calls _ => ?_⟩
    unfold viewSkipType
    refine passes_noItems.map ?_
    rintro count rfl
    exact passes_viewNoItems
  | fixedArray size helement ih =>
    obtain ⟨bytes, calls, hlength, hpasses⟩ := ih
    refine ⟨_, calls, ?_, fun calls' hcalls => passes_viewSkipItems (hpasses calls' hcalls) size⟩
    split
    · rename_i hbyte
      subst hbyte
      rw [List.length_replicate]
      exact Nat.le_mul_of_pos_right size (helement.zeroCopySize_le rfl)
    · exact length_flatten_replicate hlength size
  | map key value =>
    refine ⟨[0, 0, 0, 0], 0, Nat.le_refl _, fun calls _ => ?_⟩
    unfold viewSkipType
    refine passes_noItems.map ?_
    rintro count rfl
    exact .after (Passes.pure (Q := fun _ => True) trivial) fun _ _ => .pure trivial
  | @enum ref baseType hdef =>
    have hbase : enumBaseType descriptors ref = some baseType := by
      unfold enumBaseType
      rw [hdef]
    refine ⟨List.replicate (typeMapSize baseType) 0, 0, length_skipped_le, fun calls _ => ?_⟩
    unfold viewSkipType
    rw [hbase]
    exact passes_viewSkipBytes _
  | @struct ref fields size hdef hfields ih =>
    obtain ⟨bytes, calls, hlength, hpasses⟩ := passes_viewFields ih
    refine hdefined hdef (fun _ h => by cases h) hlength calls fun calls' hcalls => ?_
    unfold viewBody
    rw [hdef]
    exact .get fun reader _ => (hpasses calls' hcalls).map fun _ _ => .get fun reader _ => .pure trivial
  | @message ref fields hdef =>
    refine hdefined hdef (fun _ h => by cases h) (Nat.le_refl emptyBody.length) 0 fun calls' _ => ?_
    unfold viewBody
    rw [hdef]
    refine .get fun reader _ => (passes_readIndex messageIndexParse_emptyBody).map ?_
    rintro index rfl
    exact (passes_viewMessageFields fields).after fun _ _ => .get fun reader _ => .pure trivial
  | @union ref branches hdef hzero =>
    refine hdefined hdef (fun _ h => by cases h) (Nat.le_refl emptyBody.length) 0 fun calls' _ => ?_
    unfold viewBody
    rw [hdef]
    exact passes_viewUnion hzero

end

end Bebop.C
