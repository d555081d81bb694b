import Bebop.C.MessageLookup
import Bebop.Swift.MessageLookup
import Bebop.TypeScript.MessageLookup
import Bebop.Swift.Frame
import Bebop.TypeScript.FrameDecode
import Bebop.Swift.BatchRuns
import Bebop.TypeScript.BatchRuns
import Bebop.Swift.RpcContext
import Bebop.TypeScript.RpcContext
import Bebop.Swift.FutureIsolation
import Bebop.TypeScript.FutureIsolation

/-!
# Bebop — what the runtimes agree on

The runtimes side by side: the three readers of messages, and for calls the frames,
the batches, the contexts of their entries and the stores of futures.
-/

/-! ## The three message readers agree -/

namespace Bebop

open Checked Message

theorem Message.Decoded.lookup_range {bs : List UInt8} {d : Decoded} (h : d.Sound bs)
    (hb : d.BoundariesOk bs) {tag start stop : Nat} (hrange : d.lookup bs tag = some (start, stop)) :
    4 ≤ start ∧ start ≤ stop ∧ stop ≤ bs.length := by
  unfold Decoded.lookup at hrange
  obtain ⟨r, hrank, hr⟩ := Option.map_eq_some_iff.mp hrange
  obtain ⟨rfl, rfl⟩ := Prod.mk.inj hr
  obtain ⟨hle, hpay⟩ := hb r (d.rank?_lt h.pairwise hrank)
  have hl := h.layout
  unfold Decoded.payloadSize at hpay
  omega

theorem C.messageIndexField_of_decode {bs : List UInt8} {d : Decoded} (h : d.Sound bs)
    (hb : d.BoundariesOk bs) {tag : Nat} (htag : tag ≤ 255) :
    C.messageIndexField (C.indexOf bs d) tag =
      .ok ((d.lookup bs tag).map fun range => ⟨range.1, range.2 - range.1⟩) := by
  rw [C.messageIndexField_eq h htag, Decoded.lookup]
  cases hrank : d.rank? tag with
  | none => rfl
  | some r =>
    have hok := hb r (d.rank?_lt h.pairwise hrank)
    have hlength : 4 + d.fieldEnd bs r - (4 + d.fieldStart bs r) =
        d.fieldEnd bs r - d.fieldStart bs r := by omega
    simp only [Option.map_some, hlength]
    rw [C.sliceAt, if_pos hok]
    rfl

/-- The readers accept the same bytes, and the three lookups of a tag agree on whether it is
present and on its bytes. None of the six ever leaves its defined behaviour. -/
theorem messageIndex_agree (bs : List UInt8) :
    (C.messageIndexParse bs ≠ .error .fault ∧ TypeScript.parseMessageIndex bs ≠ .error .fault ∧
      Swift.parseMessageIndex bs ≠ .error .fault) ∧
    ((∃ index, C.messageIndexParse bs = .ok index) ↔
      ∃ index, TypeScript.parseMessageIndex bs = .ok index) ∧
    ((∃ index, C.messageIndexParse bs = .ok index) ↔
      ∃ index, Swift.parseMessageIndex bs = .ok index) ∧
    ∀ c t s, C.messageIndexParse bs = .ok c → TypeScript.parseMessageIndex bs = .ok t →
      Swift.parseMessageIndex bs = .ok s → ∀ tag : Nat, 1 ≤ tag → tag ≤ 255 →
      ∃ range : Option (Nat × Nat),
        (∀ start stop, range = some (start, stop) → start ≤ stop ∧ stop ≤ bs.length) ∧
        C.messageIndexField c tag =
          .ok (range.map fun range => ⟨range.1, range.2 - range.1⟩) ∧
        TypeScript.field tag t bs =
          .ok (range.map fun range : Nat × Nat => ((range.1 : Int), (range.2 : Int))) ∧
        Swift.field tag s bs =
          .ok (range.map fun range : Nat × Nat => ((range.1 : Int), (range.2 : Int))) := by
  rw [C.messageIndexParse_eq, TypeScript.parseMessageIndex_eq, Swift.parseMessageIndex_eq]
  refine ⟨⟨orRaise_total _, orRaise_total _, orRaise_total _⟩, ?_, ?_, ?_⟩
  · rw [orRaise_accepts, orRaise_accepts, Option.isSome_map, Option.isSome_map]
  · rw [orRaise_accepts, orRaise_accepts, Option.isSome_map, Option.isSome_map]
  · intro c t s hc ht hs tag hlow hhigh
    obtain ⟨d, hd, rfl⟩ := orRaise_map_eq_ok hc
    obtain ⟨d', hd', rfl⟩ := orRaise_map_eq_ok ht
    obtain ⟨d'', hd'', rfl⟩ := orRaise_map_eq_ok hs
    -- all three indexes come from the same decoded directory
    obtain rfl : d' = d := Option.some.inj (hd'.symm.trans hd)
    obtain rfl : d'' = d' := Option.some.inj (hd''.symm.trans hd)
    obtain ⟨hsound, hbound⟩ := decode_eq_some.mp hd
    refine ⟨d''.lookup bs tag, ?_, C.messageIndexField_of_decode hsound hbound hhigh,
      TypeScript.field_eq hsound hbound ⟨hlow, hhigh⟩, Swift.field_eq hsound hbound ⟨hlow, hhigh⟩⟩
    intro start stop hrange
    exact (Decoded.lookup_range hsound hbound hrange).2

end Bebop

/-!
## The frame receivers side by side

What the two runtimes receive, up to the reserved flag bits. The Swift receiver is the
format's `decodeFrame`; the TypeScript one is too on frames whose reserved bits are clear,
and takes no other.
-/

namespace Bebop.Rpc

open Bytes

/-- What a receiver makes of a byte string, up to the reserved bits. -/
def receivedTypeScript (bs : List UInt8) : Option WireFrame :=
  (TypeScript.Rpc.Frame.decode bs).toOption.map fun frame => frame.toWire.known

def receivedSwift (bs : List UInt8) : Option WireFrame :=
  (Swift.Rpc.Frame.decode bs).toOption.map fun frame => frame.toWire.known

/-- The receivers agree on bytes, and ignore the reserved bits of their flags. -/
structure Conforms (bs : List UInt8) : Prop where
  agree : receivedTypeScript bs = receivedSwift bs
  typeScript : receivedTypeScript bs = receivedTypeScript (clearReserved bs)
  swift : receivedSwift bs = receivedSwift (clearReserved bs)

theorem received_swift_eq (bs : List UInt8) :
    receivedSwift bs = (decodeFrame bs).map WireFrame.known := by
  unfold receivedSwift decodeFrame
  by_cases h : IsFrame bs
  · rw [Swift.Rpc.decode_of_isFrame h, if_pos h]
    rfl
  · obtain ⟨e, he⟩ := Swift.Rpc.decode_of_not_isFrame h
    rw [he, if_neg h]
    rfl

theorem received_typeScript_eq (bs : List UInt8) :
    receivedTypeScript bs =
      if byteAt bs 4 < 32 then (decodeFrame bs).map WireFrame.known else none := by
  unfold receivedTypeScript decodeFrame
  by_cases h : IsFrame bs ∧ byteAt bs 4 < 32
  · rw [TypeScript.Rpc.decode_of_isFrame h.1 h.2, if_pos h.1, if_pos h.2]
    rfl
  · obtain ⟨e, he⟩ := TypeScript.Rpc.decode_of_not_isFrame h
    rw [he]
    by_cases hknown : byteAt bs 4 < 32
    · rw [if_pos hknown, if_neg fun hframe => h ⟨hframe, hknown⟩]
      rfl
    · rw [if_neg hknown]
      rfl

theorem known_known (f : WireFrame) : f.known.known = f.known :=
  congrArg (fun flags => { f with flags }) (Nat.mod_mod f.flags 32)

theorem known_decodeFrame_clearReserved (bs : List UInt8) :
    (decodeFrame (clearReserved bs)).map WireFrame.known = (decodeFrame bs).map WireFrame.known := by
  rw [decodeFrame_clearReserved, Option.map_map]
  exact congrArg (fun f => (decodeFrame bs).map f) (funext known_known)

/-- They conform on what is no frame, and where reserved bits are clear. -/
theorem frame_conforms_iff (bs : List UInt8) :
    Conforms bs ↔ (IsFrame bs → byteAt bs 4 < 32) := by
  constructor
  · intro h hframe
    -- Swift takes the frame, so TypeScript does
    by_contra hreserved
    have hagree := h.agree
    rw [received_swift_eq, received_typeScript_eq, if_neg hreserved, decodeFrame, if_pos hframe] at hagree
    cases hagree
  · intro h
    have hagree : receivedTypeScript bs = receivedSwift bs := by
      rw [received_swift_eq, received_typeScript_eq]
      by_cases hframe : IsFrame bs
      · rw [if_pos (h hframe)]
      · rw [decodeFrame, if_neg hframe, Option.map_none, ite_self]
    have hswift : receivedSwift bs = receivedSwift (clearReserved bs) := by
      rw [received_swift_eq, received_swift_eq, known_decodeFrame_clearReserved]
    -- once cleared, the reserved bits do not keep TypeScript from taking the frame
    have hclear : byteAt (clearReserved bs) 4 < 32 := by
      by_cases hlen : 4 < bs.length
      · rw [byteAt_clearReserved hlen]
        exact Nat.mod_lt _ (by decide)
      · have hlength : (clearReserved bs).length = bs.length := List.length_set
        rw [byteAt, List.getElem?_eq_none (by omega)]
        exact Nat.zero_lt_succ 31
    have hcleared : receivedTypeScript (clearReserved bs) = receivedSwift (clearReserved bs) := by
      rw [received_swift_eq, received_typeScript_eq, if_pos hclear]
    exact ⟨hagree, by rw [hagree, hswift, hcleared], hswift⟩

/-- An empty frame with a reserved bit: TypeScript rejects it. -/
theorem frame_not_conforms : ¬Conforms [0, 0, 0, 0, 32, 0, 0, 0, 0] := by
  intro h
  have hagree := h.agree
  rw [show receivedTypeScript [0, 0, 0, 0, 32, 0, 0, 0, 0] = none by rfl,
    show receivedSwift [0, 0, 0, 0, 32, 0, 0, 0, 0] = some ⟨0, 0, [], none⟩ by rfl] at hagree
  cases hagree

end Bebop.Rpc

/-!
## The two batch routers

Swift also demands that a call names a smaller identifier than its own. TypeScript accepts
any batch it can order: it does not look at the sign of an identifier, nor at the order of
the list. Where neither matters, both follow the protocol.
-/

namespace Bebop.Rpc

variable {Text Payload : Type} [DecidableEq Text]

/-- Both routers accept what the protocol does, and execute nothing of the others. -/
structure BatchConforms (swift : Swift.Rpc.BatchRouter Text Payload)
    (typeScript : TypeScript.Rpc.BatchRouter Text Payload) (parentMetadata : Metadata Text)
    (request : BatchRequest Text Payload) : Prop where
  swiftAccepts : (∃ layers, Swift.Rpc.buildExecutionLayers request.calls = .ok layers) ↔
    WellFormed request.calls
  typeScriptAccepts : (∃ accepted, TypeScript.Rpc.validateBatch typeScript request = some (.ok accepted)) ↔
    WellFormed request.calls
  swiftRejects : (∃ error, Swift.Rpc.buildExecutionLayers request.calls = .error error) →
    ¬Swift.Rpc.Executes swift parentMetadata request
  typeScriptRejects : (∃ error, TypeScript.Rpc.validateBatch typeScript request = some (.error error)) →
    ¬TypeScript.Rpc.Executes typeScript parentMetadata request

/-- If the protocol accepts the list, every call names a smaller identifier than
its own. If the list can be ordered, the protocol accepts its signs and its order. -/
structure BatchAgrees (calls : List (BatchCall Payload)) : Prop where
  smaller : WellFormed calls → ∀ call ∈ calls, 0 ≤ call.inputFrom → call.inputFrom < call.callId
  orderable : (calls.map BatchCall.callId).Nodup → Closed calls → Acyclic calls →
    (∀ call ∈ calls, 0 ≤ call.callId) ∧
      ∀ before call after, calls = before ++ call :: after → NamesEarlier before call

variable {calls : List (BatchCall Payload)}

theorem WellFormed.ordered (h : WellFormed calls) :
    TypeScript.Rpc.Ordered (TypeScript.Rpc.callMap calls) (calls.map BatchCall.callId) := by
  suffices hlead : ∀ before after, calls = before ++ after →
      TypeScript.Rpc.Ordered (TypeScript.Rpc.callMap calls) (before.map BatchCall.callId) from
    hlead calls [] (List.append_nil calls).symm
  intro before
  induction before using List.reverseRecOn with
  | nil => exact fun _ _ => .nil
  | append_singleton before call ih =>
    intro after hsplit
    rw [List.append_assoc, List.singleton_append] at hsplit
    have hmem : call ∈ calls := hsplit ▸ List.mem_append_right _ List.mem_cons_self
    have hnodup := h.distinct
    rw [hsplit, List.map_append, List.map_cons] at hnodup
    rw [List.map_append]
    refine .snoc (ih _ hsplit) ?_ ((TypeScript.Rpc.lookup_callMap h.distinct).mpr ⟨hmem, rfl⟩)
      (h.earlier before call after hsplit)
    exact fun hin => (List.nodup_append.mp hnodup).2.2 _ hin _ List.mem_cons_self rfl

theorem WellFormed.orderable (h : WellFormed calls) : Closed calls ∧ Acyclic calls :=
  (TypeScript.Rpc.orderable_callMap h.distinct).mp
    (h.ordered.orderable fun _ hid => TypeScript.Rpc.mem_callMap.mp hid)

/-- Within the size limit, just on the batches that the protocol treats alike. -/
theorem batch_conforms_iff (swift : Swift.Rpc.BatchRouter Text Payload)
    (typeScript : TypeScript.Rpc.BatchRouter Text Payload) (parentMetadata : Metadata Text)
    (request : BatchRequest Text Payload) (hsize : request.calls.length ≤ typeScript.maxBatchSize) :
    BatchConforms swift typeScript parentMetadata request ↔ BatchAgrees request.calls := by
  have hswift : (∃ layers, Swift.Rpc.buildExecutionLayers request.calls = .ok layers) ↔
      WellFormed request.calls ∧ Swift.Rpc.NamesSmaller request.calls := by
    rcases Swift.Rpc.buildExecutionLayers_cases request.calls with
      ⟨hgood, state, hlayers, -⟩ | ⟨hbad, error, hlayers⟩
    · exact ⟨fun _ => hgood, fun _ => ⟨_, hlayers⟩⟩
    · refine ⟨fun ⟨layers, h⟩ => ?_, fun hgood => absurd hgood hbad⟩
      cases hlayers.symm.trans h
  have htypeScript :
      (∃ accepted, TypeScript.Rpc.validateBatch typeScript request = some (.ok accepted)) ↔
        (request.calls.map BatchCall.callId).Nodup ∧ Closed request.calls ∧ Acyclic request.calls := by
    rcases TypeScript.Rpc.validateBatch_cases typeScript request hsize with
      ⟨hdistinct, hclosed, hacyclic, order, hvalid, -⟩ | ⟨hbad, error, hvalid⟩
    · exact ⟨fun _ => ⟨hdistinct, hclosed, hacyclic⟩, fun _ => ⟨_, hvalid⟩⟩
    · refine ⟨fun ⟨accepted, h⟩ => ?_, fun hgood => absurd hgood hbad⟩
      cases hvalid.symm.trans h
  constructor
  · intro hconforms
    refine ⟨fun hwell => (hswift.mp (hconforms.swiftAccepts.mpr hwell)).2, fun hdistinct hclosed hacyclic => ?_⟩
    have hwell := hconforms.typeScriptAccepts.mp (htypeScript.mpr ⟨hdistinct, hclosed, hacyclic⟩)
    exact ⟨hwell.nonnegative, hwell.earlier⟩
  · intro hagrees
    refine ⟨hswift.trans ⟨fun h => h.1, fun hwell => ⟨hwell, hagrees.smaller hwell⟩⟩,
      htypeScript.trans ⟨?_, fun hwell => ⟨hwell.distinct, hwell.orderable⟩⟩, ?_, ?_⟩
    · rintro ⟨hdistinct, hclosed, hacyclic⟩
      obtain ⟨hnonneg, hearlier⟩ := hagrees.orderable hdistinct hclosed hacyclic
      exact ⟨hnonneg, hdistinct, hearlier⟩
    · rintro ⟨error, hlayers⟩ ⟨world, outcomes, index, waiting, layerResults, layers, hstart, -⟩
      obtain ⟨state, haccepted, -⟩ := Swift.Rpc.handleBatch_cases hstart
      cases hlayers.symm.trans haccepted
    · rintro ⟨error, hvalid⟩ ⟨world, results, callId, call, payload, metadata, hstart, -⟩
      rw [TypeScript.Rpc.handleBatch, hvalid] at hstart
      cases hstart

/-- A router whose one method answers with its payload. -/
def echo : MethodRegistration Nat Nat := .unary fun payload metadata => .ok (payload, metadata)

instance (earlier : List (BatchCall Payload)) (call : BatchCall Payload) :
    Decidable (NamesEarlier earlier call) := inferInstanceAs (Decidable (_ → _))

theorem namesEarlier_pair {a b : BatchCall Payload} (ha : NamesEarlier [] a) (hb : NamesEarlier [a] b)
    (before : List (BatchCall Payload)) (call : BatchCall Payload) (after : List (BatchCall Payload))
    (hsplit : [a, b] = before ++ call :: after) : NamesEarlier before call := by
  match before with
  | [] =>
    obtain ⟨rfl, -⟩ := List.cons.inj hsplit
    exact ha
  | [first] =>
    obtain ⟨rfl, hrest⟩ := List.cons.inj hsplit
    obtain ⟨rfl, -⟩ := List.cons.inj hrest
    exact hb
  | _ :: _ :: before =>
    have hlength := congrArg List.length hsplit
    simp at hlength

/-- Two calls, the second of which runs on the response of the first. -/
theorem batch_conforms_forwarded :
    BatchConforms ⟨fun _ => some echo, 8, 8⟩ ⟨fun _ => some echo, 8, 8⟩ ∅
      ⟨[⟨0, 9, 5, -1⟩, ⟨1, 9, 0, 0⟩], ∅⟩ := by
  have hearlier := namesEarlier_pair (a := (⟨0, 9, 5, -1⟩ : BatchCall Nat)) (b := ⟨1, 9, 0, 0⟩)
    (by decide) (by decide)
  exact (batch_conforms_iff _ _ _ _ (by decide)).mpr
    ⟨fun _ => by decide, fun _ _ _ => ⟨by decide, hearlier⟩⟩

/-- Swift rejects a larger identifier, TypeScript accepts a negative one. -/
theorem batch_not_conforms :
    ¬BatchConforms ⟨fun _ => some echo, 8, 8⟩ ⟨fun _ => some echo, 8, 8⟩ ∅
        ⟨[⟨1, 9, 5, -1⟩, ⟨0, 9, 0, 1⟩], ∅⟩ ∧
      ¬BatchConforms ⟨fun _ => some echo, 8, 8⟩ ⟨fun _ => some echo, 8, 8⟩ ∅
        ⟨[⟨-1, 9, 5, -1⟩], ∅⟩ := by
  constructor
  · intro h
    have hwell : WellFormed [⟨1, 9, 5, -1⟩, (⟨0, 9, 0, 1⟩ : BatchCall Nat)] :=
      ⟨by decide, by decide, namesEarlier_pair (by decide) (by decide)⟩
    obtain ⟨layers, hlayers⟩ := h.swiftAccepts.mpr hwell
    have hrejected : Swift.Rpc.buildExecutionLayers [⟨1, 9, 5, -1⟩, (⟨0, 9, 0, 1⟩ : BatchCall Nat)] =
        .error ⟨.invalidArgument, "call 0 references invalid input_from 1"⟩ := by decide
    cases hrejected.symm.trans hlayers
  · intro h
    have hwell := h.typeScriptAccepts.mp ⟨(_, [-1]), rfl⟩
    exact absurd (hwell.nonnegative _ List.mem_cons_self) (by decide)

/-! ## Execution -/

/-- Whatever the order of its handlers, an accepted batch has one response. -/
theorem batch_confluent (swift : Swift.Rpc.BatchRouter Text Payload)
    (typeScript : TypeScript.Rpc.BatchRouter Text Payload) (parentMetadata : Metadata Text)
    (request : BatchRequest Text Payload) :
    (∀ accepted, TypeScript.Rpc.validateBatch typeScript request = some (.ok accepted) →
      ∃ world, TypeScript.Rpc.handleBatch typeScript parentMetadata request = some (.ok world) ∧
        Confluent
          (TypeScript.Rpc.BatchStep typeScript (mergeMetadata parentMetadata request.metadata))
          (TypeScript.Rpc.batchResponse request)
          (Evaluates typeScript.invoke "produced no payload" request.calls
            (mergeMetadata parentMetadata request.metadata))
          request.calls world) ∧
    ∀ world, Swift.Rpc.handleBatch swift request = .ok world →
      Confluent
        (Swift.Rpc.BatchStep swift request.calls (mergeMetadata parentMetadata request.metadata))
        (Swift.Rpc.batchResponse request)
        (Evaluates swift.invoke "has no payload" request.calls
          (mergeMetadata parentMetadata request.metadata))
        request.calls world := by
  refine ⟨fun accepted hvalid => ?_, fun world hstart => ?_⟩
  · exact TypeScript.Rpc.handleBatch_confluent hvalid parentMetadata
  · exact Swift.Rpc.handleBatch_confluent hstart _

/-- The second of two calls runs on the response of the first. -/
theorem batch_confluent_forwarded :
    ∃ world, Swift.Rpc.handleBatch ⟨fun _ => some echo, 8, 8⟩
        ⟨[⟨0, 9, 5, -1⟩, ⟨1, 9, 0, 0⟩], ∅⟩ = .ok world ∧
      Confluent
        (Swift.Rpc.BatchStep ⟨fun _ => some echo, 8, 8⟩ [⟨0, 9, 5, -1⟩, ⟨1, 9, 0, 0⟩] ∅)
        (Swift.Rpc.batchResponse ⟨[⟨0, 9, 5, -1⟩, ⟨1, 9, 0, 0⟩], ∅⟩)
        (Evaluates (Swift.Rpc.BatchRouter.invoke ⟨fun _ => some echo, 8, 8⟩) "has no payload"
          [⟨0, 9, 5, -1⟩, ⟨1, 9, 0, 0⟩] ∅)
        [⟨0, 9, 5, -1⟩, ⟨1, 9, 0, 0⟩] world :=
  ⟨_, rfl, (batch_confluent ⟨fun _ => some echo, 8, 8⟩ ⟨fun _ => some echo, 8, 8⟩ ∅
    ⟨[⟨0, 9, 5, -1⟩, ⟨1, 9, 0, 0⟩], ∅⟩).2 _ rfl⟩

end Bebop.Rpc

/-!
## What nested calls keep of their caller's context

Both runtimes rebuild the context of a batch entry from parts, none of which is the peer
information. In TypeScript an entry follows the signal of its enclosing context; in Swift
nothing links the two. A chain of Swift derivations keeps the deadline, and one of
TypeScript forks has the last override.
-/

namespace Bebop.Rpc

open Transition

/-- All entries keep what they should in the runs that start no entry under peer information,
and in Swift cancel no context with a live entry. A chain of derivations has no later
deadline than it starts from, exactly if, in TypeScript, its last override is not later. -/
theorem nested_contexts (Text Peer Limits : Type) [DecidableEq Text] [Inhabited Limits] :
    (∀ (events : List (Swift.Rpc.ContextEvent Text Peer Limits)) world,
      Run (Restrict Swift.Rpc.ContextStep Swift.Rpc.ContextWorld.KeepsEntries)
        Swift.Rpc.ContextWorld.init events world ↔
      Run (fun world event world' => Swift.Rpc.ContextStep world event world' ∧ world'.Kept)
        Swift.Rpc.ContextWorld.init events world) ∧
    (∀ (events : List (TypeScript.Rpc.ContextEvent Text Peer)) world,
      Run (Restrict TypeScript.Rpc.ContextStep TypeScript.Rpc.ContextWorld.KeepsEntries)
        TypeScript.Rpc.ContextWorld.init events world ↔
      Run (fun world event world' => TypeScript.Rpc.ContextStep world event world' ∧ world'.Kept)
        TypeScript.Rpc.ContextWorld.init events world) ∧
    (∀ (context : Swift.Rpc.RpcContext Text Peer Limits) (chain : List (Swift.Rpc.Derivation Text)),
      NoLater (chain.foldl Swift.Rpc.RpcContext.derive context).deadline context.deadline) ∧
    (∀ (context : TypeScript.Rpc.RpcContext Text Peer) (calls : List (TypeScript.Rpc.ForkCall Text)),
      NoLater (context.forkAll calls).deadline context.deadline ↔
        ∀ override, (calls.filterMap (·.overrides.deadline)).getLast? = some override →
          NoLater (some override) context.deadline) := by
  refine ⟨fun events world => Swift.Rpc.run_kept_iff, fun events world =>
    TypeScript.Rpc.run_kept_iff, fun context chain => ?_, TypeScript.Rpc.noLater_forkAll_iff⟩
  rw [Swift.Rpc.deadline_derive]
  exact .refl _

section

open Swift.Rpc Swift.Rpc.ContextWorld

/-- A context without peer information, a batch in it, and one call of the batch. -/
theorem nested_contexts_anonymous :
    ∃ events, ∃ world : Swift.Rpc.ContextWorld String String Unit, world.entries.length = 1 ∧
      Run (fun world event world' => ContextStep world event world' ∧ world'.Kept) init events world := by
  have hrun : Run (Restrict ContextStep KeepsEntries)
      (init : Swift.Rpc.ContextWorld String String Unit) _ _ :=
    .cons ⟨.new 0 ∅ none 0, trivial⟩ (.cons ⟨.batch 0 ∅ rfl, trivial⟩
      (.cons ⟨.entry ⟨0, 1, ∅⟩ 7 ∅ (List.mem_cons_self ..) rfl rfl, fun _ henclosing => by
        cases henclosing
        exact ⟨rfl, rfl⟩⟩ (.nil _)))
  exact ⟨_, _, rfl, ((nested_contexts String String Unit).1 _ _).mp hrun⟩

end

/-- An entry without peer information, and a fork with a later deadline. -/
theorem nested_contexts_fail :
    (¬∀ (events : List (Swift.Rpc.ContextEvent String String Unit)) world,
      Run Swift.Rpc.ContextStep Swift.Rpc.ContextWorld.init events world → world.Kept) ∧
    (¬∀ (events : List (TypeScript.Rpc.ContextEvent String String)) world,
      Run TypeScript.Rpc.ContextStep TypeScript.Rpc.ContextWorld.init events world → world.Kept) ∧
    ¬∀ (context : TypeScript.Rpc.RpcContext String String)
      (calls : List (TypeScript.Rpc.ForkCall String)),
        NoLater (context.forkAll calls).deadline context.deadline := by
  refine ⟨fun h => ?_, fun h => ?_, fun h => ?_⟩
  · have hkept := h _ _ (.cons (.new 0 ∅ none 0) (.cons (.attach 0 (some "ada"))
      (.cons (.batch 0 ∅ rfl)
        (.cons (.entry ⟨0, 1, ∅⟩ 7 ∅ (List.mem_cons_self ..) rfl rfl) (.nil _)))))
    cases (hkept _ (List.mem_cons_self ..)).1.peer
  · have hkept := h _ _ (.cons (.new ⟨none, none, none⟩ false nofun)
      (.cons (.attach 0 (some "ada")) (.cons (.entry 0 ∅ none false rfl) (.nil _))))
    cases (hkept _ (List.mem_cons_self ..)).1.peer
  · obtain ⟨later, hlater, hle⟩ := h ⟨∅, some 1, none, false, none⟩
      [⟨0, ⟨none, some 2, none⟩, false, false⟩] 1 rfl
    obtain rfl := Option.some.inj hlater
    exact absurd hle (by decide)

end Bebop.Rpc

/-!
## Owners of futures are isolated

Both stores keep the futures of all owners in the same tables. Below the limits, and while
no two owners use the same key, what an owner sees of a run is what they see of the run
without the others.
-/

namespace Bebop.Rpc

open Transition

/-- An owner's calls are answered in a run as in the run of these calls alone; another owner's
key is refused and changes nothing; and no stream is handed another owner's result. -/
theorem owners_isolated (Id Key Owner Result : Type) [DecidableEq Id] [DecidableEq Key]
    [DecidableEq Owner] :
    (∀ maxPending maxCompleted capacity (events : List (TypeScript.Rpc.OwnerEvent Id Key Owner Result)) w,
      (Run (Restrict TypeScript.Rpc.OwnedStep fun w _ => w.BelowLimits)
          (.init maxPending maxCompleted capacity) events w →
        TypeScript.Rpc.KeysApart events → ∀ owner,
          Yields TypeScript.Rpc.OwnedStep TypeScript.Rpc.OwnerEvent.call
            (.init maxPending maxCompleted capacity) (events.filter fun event => event.owner = owner)) ∧
      (Run TypeScript.Rpc.OwnedStep (.init maxPending maxCompleted capacity) events w →
        (∀ registration key id entry fresh, registration.idempotencyKey = some key →
          w.world.storage.entries.lookup id = some entry → entry.idempotencyKey = some key →
          entry.owner ≠ registration.owner →
            w.world.storage.register registration fresh =
              (.error ⟨.permissionDenied, ""⟩, w.world.storage)) ∧
        ∀ event ∈ events, ∀ owner id, event.Delivers owner id → w.owners.lookup id = some owner)) ∧
    (∀ maxPendingFutures maxCompletedFutures (events : List (Swift.Rpc.OwnerEvent Id Key Owner Result)) w,
      maxCompletedFutures < 2 ^ 64 →
      (Run (Restrict Swift.Rpc.OwnedStep fun w _ => w.BelowLimits)
          (.init maxPendingFutures maxCompletedFutures) events w →
        Swift.Rpc.KeysApart events → ∀ owner,
          Yields Swift.Rpc.OwnedStep Swift.Rpc.OwnerEvent.call
            (.init maxPendingFutures maxCompletedFutures)
            (events.filter fun event => event.owner = owner)) ∧
      (Run Swift.Rpc.OwnedStep (.init maxPendingFutures maxCompletedFutures) events w →
        (∀ registration key id entry fresh, registration.idempotencyKey = some key →
          w.world.store.futures.lookup id = some entry →
          w.world.store.reverseIdempotency.lookup id = some key → entry.owner ≠ registration.owner →
            w.world.store.register registration fresh =
              (.error ⟨.permissionDenied, ""⟩, w.world.store)) ∧
        ∀ event ∈ events, ∀ owner id, event.Delivers owner id → w.owners.lookup id = some owner)) := by
  constructor
  · intro maxPending maxCompleted capacity events w
    refine ⟨fun hrun hkeys owner => ?_, fun hrun => ⟨?_, ?_⟩⟩
    · obtain ⟨v, halone, -⟩ := TypeScript.Rpc.ownerRun owner hrun hkeys
      exact TypeScript.Rpc.ownedStep_deterministic.yields halone
    · intro registration key id entry fresh hkey hentry hlive hother
      exact TypeScript.Rpc.register_denied (TypeScript.Rpc.ownedSound_run hrun) hkey hentry hlive hother fresh
    · intro event hevent owner id hdelivers
      exact TypeScript.Rpc.delivers_run hrun hevent hdelivers
  · intro maxPendingFutures maxCompletedFutures events w hword
    refine ⟨fun hrun hkeys owner => ?_, fun hrun => ⟨?_, ?_⟩⟩
    · obtain ⟨v, halone, -⟩ := Swift.Rpc.ownerRun hword owner hrun hkeys
      exact Swift.Rpc.ownedStep_deterministic.yields halone
    · intro registration key id entry fresh hkey hentry hlive hother
      exact Swift.Rpc.register_denied (Swift.Rpc.ownedSound_run hrun) hkey hentry hlive hother fresh
    · intro event hevent owner id hdelivers
      exact Swift.Rpc.delivers_run hrun hevent hdelivers

section

open TypeScript.Rpc

/-- One owner starts a future, and another one waits for it. -/
theorem owners_isolated_named : ∃ events : List (OwnerEvent Nat Nat Nat Nat), events.length = 2 ∧
    ∀ owner, Yields OwnedStep OwnerEvent.call (.init .infinity .infinity 1)
      (events.filter fun event => event.owner = owner) := by
  let w₀ : OwnedWorld Nat Nat Nat Nat := .init .infinity .infinity 1
  have hrun : Run (Restrict OwnedStep fun w _ => w.BelowLimits) w₀ _ _ :=
    .cons ⟨.register (.register ⟨some 7, 0, false⟩ 1 (by decide)), nofun, nofun⟩
      (.single ⟨.subscribe (.subscribe (some [1]) 5), nofun, nofun⟩)
  refine ⟨_, rfl, ((owners_isolated Nat Nat Nat Nat).1 _ _ _ _ _).1 hrun ?_⟩
  rintro owner owner' key ⟨r, _, hmem, rfl, -⟩ ⟨r', _, hmem', rfl, -⟩
  simp only [List.mem_cons, List.not_mem_nil, or_false, OwnerEvent.register.injEq, reduceCtorEq] at hmem hmem'
  rw [hmem.1, hmem'.1]

end

end Bebop.Rpc
