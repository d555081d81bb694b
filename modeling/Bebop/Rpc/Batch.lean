import Bebop.Lib.OrderedMap
import Bebop.Lib.Transition
import Bebop.Rpc.Frame
import Mathlib.Logic.Relation

/-!
# Bebop — batches

What a batch *is*, without an implementation. The protocol accepts a list of calls if it is
`WellFormed`. A call runs on its own payload or on the first payload of the call it depends
on, whose response metadata then overrides that of the batch, and a call whose dependency
gives nothing to run on fails (`Evaluates`).
-/

namespace Bebop.Rpc

open Transition

abbrev Metadata (Text : Type) := OrderedMap Text Text

def mergeMetadata {Text : Type} [DecidableEq Text] (left right : Metadata Text) : Metadata Text :=
  left.merge right

structure BatchCall (Payload : Type) where
  callId : Int32
  methodId : UInt32
  payload : Payload
  inputFrom : Int32
  deriving DecidableEq

structure BatchRequest (Text Payload : Type) where
  calls : List (BatchCall Payload)
  metadata : Metadata Text

inductive BatchOutcome (Text Payload : Type) where
  | success (payloads : List Payload) (metadata : Metadata Text)
  | error (error : RpcError) (metadata : Metadata Text)
  deriving DecidableEq

structure BatchResult (Text Payload : Type) where
  callId : Int32
  outcome : BatchOutcome Text Payload

/-- What a handler gives on a payload and the metadata of its context, with the metadata of the
response or of the error. A stream ends after its elements, or fails after them. -/
inductive MethodRegistration (Text Payload : Type) where
  | unary (invoke : Payload → Metadata Text → Except (RpcError × Metadata Text) (Payload × Metadata Text))
  | serverStream (invoke : Payload → Metadata Text → Except (RpcError × Metadata Text)
      (List Payload × Option (RpcError × Metadata Text) × Metadata Text))
  | clientStream
  | duplexStream

variable {Text Payload : Type}

def collect (maxBatchStreamElements : Nat) (tooMany : String) (failure : Option (RpcError × Metadata Text)) :
    List Payload → List Payload → Except (RpcError × Metadata Text) (List Payload)
  | [], payloads =>
    match failure with
    | none => .ok payloads
    | some error => .error error
  | element :: elements, payloads =>
    if payloads.length ≥ maxBatchStreamElements then .error (⟨.resourceExhausted, tooMany⟩, ∅)
    else collect maxBatchStreamElements tooMany failure elements (payloads ++ [element])

/-! ## The rule -/

def NamesEarlier (earlier : List (BatchCall Payload)) (call : BatchCall Payload) : Prop :=
  0 ≤ call.inputFrom → call.inputFrom ∈ earlier.map BatchCall.callId

structure WellFormed (calls : List (BatchCall Payload)) : Prop where
  nonnegative : ∀ call ∈ calls, 0 ≤ call.callId
  distinct : (calls.map BatchCall.callId).Nodup
  earlier : ∀ before call after, calls = before ++ call :: after → NamesEarlier before call

def DependsOn (calls : List (BatchCall Payload)) (id dependency : Int32) : Prop :=
  ∃ call ∈ calls, call.callId = id ∧ call.inputFrom = dependency ∧ 0 ≤ dependency

def Acyclic (calls : List (BatchCall Payload)) : Prop :=
  ∀ id, ¬Relation.TransGen (DependsOn calls) id id

def Closed (calls : List (BatchCall Payload)) : Prop :=
  ∀ call ∈ calls, 0 ≤ call.inputFrom → call.inputFrom ∈ calls.map BatchCall.callId

/-! ## What a call results in -/

section

variable [DecidableEq Text]

/-- A payload and metadata of the dependency to run on, or the error. -/
def upstream (noPayload : String) (dependency : Int32) :
    BatchOutcome Text Payload → Except RpcError (Payload × Metadata Text)
  | .error _ _ => .error ⟨.invalidArgument, s!"dependency {dependency} failed"⟩
  | .success payloads metadata =>
    match payloads.head? with
    | none => .error ⟨.invalidArgument, s!"dependency {dependency} {noPayload}"⟩
    | some payload => .ok (payload, metadata)

variable (invoke : UInt32 → Payload → Metadata Text → BatchOutcome Text Payload) (noPayload : String)
  (calls : List (BatchCall Payload)) (batchMetadata : Metadata Text)

/-- The recursive meaning of a batch, for given results of invocations. -/
inductive Evaluates : BatchCall Payload → BatchOutcome Text Payload → Prop
  | own {call} : ¬0 ≤ call.inputFrom →
      Evaluates call (invoke call.methodId call.payload batchMetadata)
  | forwarded {call dependency payload payloads metadata} : 0 ≤ call.inputFrom →
      dependency ∈ calls → dependency.callId = call.inputFrom →
      Evaluates dependency (.success (payload :: payloads) metadata) →
      Evaluates call (invoke call.methodId payload (mergeMetadata batchMetadata metadata))
  | empty {call dependency metadata} : 0 ≤ call.inputFrom →
      dependency ∈ calls → dependency.callId = call.inputFrom →
      Evaluates dependency (.success [] metadata) →
      Evaluates call (.error ⟨.invalidArgument, s!"dependency {call.inputFrom} {noPayload}"⟩ ∅)
  | failed {call dependency error metadata} : 0 ≤ call.inputFrom →
      dependency ∈ calls → dependency.callId = call.inputFrom →
      Evaluates dependency (.error error metadata) →
      Evaluates call (.error ⟨.invalidArgument, s!"dependency {call.inputFrom} failed"⟩ ∅)

variable {invoke noPayload calls batchMetadata}
  {call dependency : BatchCall Payload} {outcome outcome' : BatchOutcome Text Payload}

theorem Evaluates.of_upstream (hdepends : 0 ≤ call.inputFrom) (hmem : dependency ∈ calls)
    (hnames : dependency.callId = call.inputFrom)
    (h : Evaluates invoke noPayload calls batchMetadata dependency outcome) :
    Evaluates invoke noPayload calls batchMetadata call
      (match upstream noPayload call.inputFrom outcome with
        | .error error => .error error ∅
        | .ok (payload, metadata) =>
          invoke call.methodId payload (mergeMetadata batchMetadata metadata)) := by
  cases outcome with
  | error error metadata => exact .failed hdepends hmem hnames h
  | success payloads metadata =>
    cases payloads with
    | nil => exact .empty hdepends hmem hnames h
    | cons payload payloads => exact .forwarded hdepends hmem hnames h

theorem callId_injective (hdistinct : (calls.map BatchCall.callId).Nodup) {call' : BatchCall Payload}
    (hcall : call ∈ calls) (hcall' : call' ∈ calls) (h : call.callId = call'.callId) : call = call' :=
  List.inj_on_of_nodup_map hdistinct hcall hcall' h

theorem Evaluates.unique (hdistinct : (calls.map BatchCall.callId).Nodup)
    (h : Evaluates invoke noPayload calls batchMetadata call outcome)
    (h' : Evaluates invoke noPayload calls batchMetadata call outcome') : outcome = outcome' := by
  induction h generalizing outcome' with
  | own hown =>
    cases h' with
    | own _ => rfl
    | forwarded hdepends _ _ _ => exact absurd hdepends hown
    | empty hdepends _ _ _ => exact absurd hdepends hown
    | failed hdepends _ _ _ => exact absurd hdepends hown
  | forwarded hdepends hmem hnames hone ih =>
    cases h' with
    | own hown => exact absurd hdepends hown
    | forwarded _ hmem' hnames' hone' =>
      obtain rfl := callId_injective hdistinct hmem hmem' (hnames.trans hnames'.symm)
      cases ih hone'
      rfl
    | empty _ hmem' hnames' hone' =>
      obtain rfl := callId_injective hdistinct hmem hmem' (hnames.trans hnames'.symm)
      cases ih hone'
    | failed _ hmem' hnames' hone' =>
      obtain rfl := callId_injective hdistinct hmem hmem' (hnames.trans hnames'.symm)
      cases ih hone'
  | empty hdepends hmem hnames hone ih =>
    cases h' with
    | own hown => exact absurd hdepends hown
    | forwarded _ hmem' hnames' hone' =>
      obtain rfl := callId_injective hdistinct hmem hmem' (hnames.trans hnames'.symm)
      cases ih hone'
    | empty _ _ _ _ => rfl
    | failed _ hmem' hnames' hone' =>
      obtain rfl := callId_injective hdistinct hmem hmem' (hnames.trans hnames'.symm)
      cases ih hone'
  | failed hdepends hmem hnames hone ih =>
    cases h' with
    | own hown => exact absurd hdepends hown
    | forwarded _ hmem' hnames' hone' =>
      obtain rfl := callId_injective hdistinct hmem hmem' (hnames.trans hnames'.symm)
      cases ih hone'
    | empty _ hmem' hnames' hone' =>
      obtain rfl := callId_injective hdistinct hmem hmem' (hnames.trans hnames'.symm)
      cases ih hone'
    | failed _ _ _ _ => rfl

theorem Evaluates.eq_iff (hdistinct : (calls.map BatchCall.callId).Nodup)
    (h : Evaluates invoke noPayload calls batchMetadata call outcome) :
    Evaluates invoke noPayload calls batchMetadata call outcome' ↔ outcome' = outcome := by
  constructor
  · exact fun h' => h'.unique hdistinct h
  · rintro rfl
    exact h

/-- Whichever steps a runtime takes there is a response in the end, and any response has one
result for each call, in the order of the request, with what the call evaluates to. -/
def Confluent {σ ℓ : Type} (step : σ → ℓ → σ → Prop)
    (response : σ → Option (Except RpcError (List (BatchResult Text Payload))))
    (evaluates : BatchCall Payload → BatchOutcome Text Payload → Prop)
    (calls : List (BatchCall Payload)) (start : σ) : Prop :=
  Inevitable step (fun s => (response s).isSome) start ∧
    ∀ s, Reaches step start s → ∀ answer, response s = some answer →
      ∃ results, answer = .ok results ∧ List.Forall₂ (fun call result =>
        result.callId = call.callId ∧ ∀ outcome, evaluates call outcome ↔ outcome = result.outcome)
          calls results

end

end Bebop.Rpc
