import Bebop.Rpc.Router
import Bebop.TypeScript.Batch

/-!
# Bebop — the TypeScript router

`DefaultBebopRouter` of `rpc/router.ts`: what each of its calls does between the points at
which interceptors, the store, the other calls or the callers have a say. A promise that is
not awaited at once, a generator and a function that is handed to the store are work that
is left (`Code.later`). A signal that aborts is a check that fails.
-/

namespace Bebop.TypeScript.Rpc

open Bebop.Rpc
open Interception

variable {Text Payload : Type} [DecidableEq Text]

abbrev CallContext (Text : Type) := ContextFacts Text (PeerInfo Text)

inductive RouterCall (Text Payload : Type) where
  | unary (methodId : UInt32) (payload : Payload) (context : CallContext Text)
  | serverStream (methodId : UInt32) (payload : Payload) (context : CallContext Text)
  | clientStream (methodId : UInt32) (context : CallContext Text)
  | duplexStream (methodId : UInt32) (context : CallContext Text)

abbrev RouterCode (Text Payload : Type) :=
  Code (RouterCall Text Payload) (RouterOp Text) RpcError (BatchOutcome Text Payload)

structure Router (Text Payload : Type) where
  methods : UInt32 → Option MethodType
  /-- How many are registered. Each is any program. -/
  interceptors : Nat
  discoveryEnabled : Bool
  maxBatchSize : Nat
  allowUnauthenticatedFutureOwners : Bool
  hasFutureStorage : Bool
  discoveryResponse : Payload
  decode : RequestDecoders Text Payload

namespace Router

def throwIfCancelled (next : RouterCode Text Payload) : RouterCode Text Payload :=
  .poll (fun _ => True) next

def runInterceptors (operation : RouterCode Text Payload) : RouterCode Text Payload :=
  throwIfCancelled (.guarded operation fun result => throwIfCancelled (.ret result))

variable (router : Router Text Payload)

def requireMethod (methodId : UInt32) (kind : MethodType) (invoke : RouterCode Text Payload) :
    RouterCode Text Payload :=
  match router.methods methodId with
  | none => .throw ⟨.notFound, s!"method {methodId}"⟩
  | some registered =>
    if registered ≠ kind then
      .throw ⟨.unimplemented, s!"method {methodId} has a different streaming type"⟩
    else invoke

/-- Handlers of methods with a request stream start in a promise of their own. -/
def invoke (methodId : UInt32) : MethodType → RouterCode Text Payload
  | .unary => .perform (.handler methodId) .ret
  | .serverStream => .perform (.handler methodId) .ret
  | .clientStream => .later (.perform (.handler methodId) .ret) (.ret (.success [] ∅))
  | .duplexStream => .later (.perform (.handler methodId) .ret) (.ret (.success [] ∅))

def requireFutureStorage (next : RouterCode Text Payload) : RouterCode Text Payload :=
  if router.hasFutureStorage then next else .throw ⟨.unimplemented, "futures are disabled"⟩

def requireOwner (context : CallContext Text) (next : Text → RouterCode Text Payload) :
    RouterCode Text Payload :=
  match futureOwner router.allowUnauthenticatedFutureOwners context.peer with
  | some owner => next owner
  | none => .throw ⟨.unauthenticated, ""⟩

/-! ## Batches -/

/-- The promise of a call. `scheduled` are the calls that have theirs. -/
def runEntry (parentContext : CallContext Text) (batchMetadata : Metadata Text)
    (scheduled : List Int32) (call : BatchCall Payload) : RouterCode Text Payload :=
  let run := fun (payload : Payload) (metadata : Metadata Text) =>
    let context : CallContext Text := ⟨metadata, parentContext.deadline, none⟩
    match router.methods call.methodId with
    | some .unary => .call (fun _ => .unary call.methodId payload context) (.await .ret)
    | some .serverStream => .call (fun _ => .serverStream call.methodId payload context) (.await .ret)
    | _ => .throw ⟨.invalidArgument, s!"method {call.methodId} cannot run in a batch"⟩
  if call.inputFrom ≥ 0 then
    if call.inputFrom ∈ scheduled then
      .await fun dependency =>
        match upstream "produced no payload" call.inputFrom dependency with
        | .error error => .throw error
        | .ok (payload, upstreamMetadata) =>
          run payload (mergeMetadata batchMetadata upstreamMetadata)
    else .throw ⟨.internal, s!"dependency {call.inputFrom} was not scheduled"⟩
  else run call.payload batchMetadata

/-- The loop over the execution order, and the response. -/
def runEntries (parentContext : CallContext Text) (batchMetadata : Metadata Text)
    (calls : OrderedMap Int32 (BatchCall Payload)) :
    List Int32 → List Int32 → RouterCode Text Payload
  | _, [] => .await .ret
  | scheduled, callId :: executionOrder =>
    match calls.lookup callId with
    | none => .throw ⟨.internal, s!"batch call {callId} was not found"⟩
    | some call =>
      .later (router.runEntry parentContext batchMetadata scheduled call)
        (runEntries parentContext batchMetadata calls (callId :: scheduled) executionOrder)

def handleBatch (payload : Payload) (parentContext : CallContext Text) : RouterCode Text Payload :=
  match router.decode.batch payload with
  | .error error => .throw error
  | .ok request =>
    let calls := callMap request.calls
    if request.calls.length > router.maxBatchSize then
      .throw ⟨.resourceExhausted, "batch is too large"⟩
    else if calls.keys.length ≠ request.calls.length then
      .throw ⟨.invalidArgument, "batch call IDs must be unique"⟩
    else
      match orderBatchDependencies calls with
      -- The loops of the ordering come to an end.
      | none => .throw ⟨.internal, ""⟩
      | some (.error error) => .throw error
      | some (.ok executionOrder) =>
        router.runEntries parentContext (mergeMetadata parentContext.metadata request.metadata) calls
          [] executionOrder

/-! ## Futures -/

def handleDispatch (payload : Payload) (context : CallContext Text) : RouterCode Text Payload :=
  router.requireFutureStorage <| router.requireOwner context fun owner =>
    match router.decode.dispatch payload with
    | .error error => .throw error
    | .ok request =>
      match request.methodId, request.payload with
      | none, _ => .throw ⟨.invalidArgument, "missing method_id"⟩
      | some _, none => .throw ⟨.invalidArgument, "missing payload"⟩
      | some methodId, some innerPayload =>
        let innerContext : CallContext Text :=
          ⟨mergeMetadata context.metadata (request.metadata.getD ∅), request.deadline, context.peer⟩
        -- `execute` runs when the store says so, if it does at all.
        let register : RouterCode Text Payload :=
          .perform (.register owner request.idempotencyKey (request.discardResult.getD false)) fun handle =>
            .later (.call (fun _ => .unary methodId innerPayload innerContext) (.await .ret)) (.ret handle)
        if methodId = BebopReservedMethod.dispatch ∨ methodId = BebopReservedMethod.resolve ∨
            methodId = BebopReservedMethod.cancel then
          .throw ⟨.invalidArgument, "cannot dispatch this reserved method"⟩
        else
          match router.methods methodId with
          | none =>
            if methodId = BebopReservedMethod.discovery ∨ methodId = BebopReservedMethod.batch then register
            else .throw ⟨.notFound, s!"method {methodId}"⟩
          | some .unary => register
          | some _ => .throw ⟨.invalidArgument, "only unary methods can be dispatched"⟩

/-- The generator subscribes when its consumer asks for the first element. -/
def handleResolve (payload : Payload) (context : CallContext Text) : RouterCode Text Payload :=
  router.requireFutureStorage <| router.requireOwner context fun owner =>
    match router.decode.resolve payload with
    | .error error => .throw error
    | .ok ids =>
      .later
        (.perform (.subscribe owner ids) fun _ => .perform (.unsubscribe owner) .ret)
        (.ret (.success [] ∅))

def handleCancel (payload : Payload) (context : CallContext Text) : RouterCode Text Payload :=
  router.requireFutureStorage <| router.requireOwner context fun owner =>
    match router.decode.cancel payload with
    | .error error => .throw error
    | .ok id => .perform (.cancel owner id) .ret

/-! ## Calls -/

def unary (methodId : UInt32) (payload : Payload) (context : CallContext Text) :
    RouterCode Text Payload :=
  runInterceptors <|
    if methodId = BebopReservedMethod.discovery then
      if router.discoveryEnabled then .ret (.success [router.discoveryResponse] ∅)
      else .throw ⟨.unimplemented, "service discovery is disabled"⟩
    else if methodId = BebopReservedMethod.batch then router.handleBatch payload context
    else if methodId = BebopReservedMethod.dispatch then router.handleDispatch payload context
    else if methodId = BebopReservedMethod.cancel then router.handleCancel payload context
    else router.requireMethod methodId .unary (invoke methodId .unary)

def serverStream (methodId : UInt32) (payload : Payload) (context : CallContext Text) :
    RouterCode Text Payload :=
  runInterceptors <|
    if methodId = BebopReservedMethod.resolve then router.handleResolve payload context
    else router.requireMethod methodId .serverStream (invoke methodId .serverStream)

def clientStream (methodId : UInt32) : RouterCode Text Payload :=
  runInterceptors <| router.requireMethod methodId .clientStream (invoke methodId .clientStream)

def duplexStream (methodId : UInt32) : RouterCode Text Payload :=
  runInterceptors <| router.requireMethod methodId .duplexStream (invoke methodId .duplexStream)

def serve : RouterCall Text Payload → RouterCode Text Payload
  | .unary methodId payload context => router.unary methodId payload context
  | .serverStream methodId payload context => router.serverStream methodId payload context
  | .clientStream methodId _ => router.clientStream methodId
  | .duplexStream methodId _ => router.duplexStream methodId

theorem serve_waits (call : RouterCall Text Payload) : (router.serve call).Waits .around := by
  cases call with
  | unary methodId payload context => exact fun _ => trivial
  | serverStream methodId payload context => exact fun _ => trivial
  | clientStream methodId context => exact fun _ => trivial
  | duplexStream methodId context => exact fun _ => trivial

end Router

end Bebop.TypeScript.Rpc
