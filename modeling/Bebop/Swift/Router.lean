import Bebop.Swift.Batch
import Bebop.Swift.RpcContext

/-!
# Bebop — the Swift router

`BebopRouter` with its extensions for interceptors, batches and futures: what each call
does between the points at which interceptors, the store, the other calls or the callers
have a say. A task of a group and a function that is handed to the store are work that is
left (`Code.later`). The chain that `runInterceptors` builds ends in a closure that does
nothing; what is called for comes after it.
-/

set_option linter.unusedSectionVars false

namespace Bebop.Swift.Rpc

open Bebop.Rpc
open Interception

variable {Text Payload : Type} [DecidableEq Text]

abbrev CallContext (Text : Type) := RpcContext Text (PeerInfo Text) Unit

/-- `batchCall` is what `executeBatchCall` does with the payload it found. -/
inductive RouterCall (Text Payload : Type) where
  | unary (methodId : UInt32) (payload : Payload) (context : CallContext Text)
  | serverStream (methodId : UInt32) (payload : Payload) (context : CallContext Text)
  | clientStream (methodId : UInt32) (context : CallContext Text)
  | duplexStream (methodId : UInt32) (context : CallContext Text)
  | batchCall (methodId : UInt32) (payload : Payload) (context : CallContext Text)

inductive CallError where
  | rpc (error : RpcError)
  | cancellation
  deriving DecidableEq

abbrev RouterCode (Text Payload : Type) :=
  Code (RouterCall Text Payload) (RouterOp Text) CallError (BatchOutcome Text Payload)

/-- `throw BebopRpcError(code:detail:)` -/
def throwRpc (code : StatusCode) (detail : String) : RouterCode Text Payload :=
  .throw (.rpc ⟨code, detail⟩)

structure Router (Text Payload : Type) where
  methods : UInt32 → Option MethodType
  /-- How many are registered. Each is any program. -/
  interceptors : Nat
  discoveryEnabled : Bool
  maxBatchSize : Nat
  allowUnauthenticatedFutureOwners : Bool
  hasFutureStore : Bool
  discoveryResponse : Payload
  decode : RequestDecoders Text Payload

namespace Router

def checkCallViability (context : CallContext Text) (next : RouterCode Text Payload) :
    RouterCode Text Payload :=
  .poll (fun error => error = .cancellation ∨ error = .rpc ⟨.cancelled, ""⟩ ∨
    context.deadline.isSome ∧ error = .rpc ⟨.deadlineExceeded, ""⟩) next

/-- `next` stands for what follows the call of `runInterceptors`. -/
def runInterceptors (context : CallContext Text) (next : RouterCode Text Payload) :
    RouterCode Text Payload :=
  checkCallViability context (.guarded (.ret (.success [] ∅)) fun _ => next)

variable (router : Router Text Payload)

def requireStore (next : RouterCode Text Payload) : RouterCode Text Payload :=
  if router.hasFutureStore then next else throwRpc .unimplemented "futures disabled"

def requireOwner (context : CallContext Text) (next : Text → RouterCode Text Payload) :
    RouterCode Text Payload :=
  match futureOwner router.allowUnauthenticatedFutureOwners context.peer with
  | some owner => next owner
  | none => throwRpc .unauthenticated ""

/-! ## Batches -/

/-- `executeBatchCall`, behind the look at the dependency. -/
def executeCall (methodId : UInt32) (context : CallContext Text) : RouterCode Text Payload :=
  match router.methods methodId with
  | none => .ret (.error ⟨.notFound, s!"method {methodId}"⟩ ∅)
  | some registered =>
    runInterceptors context <|
      match registered with
      | .unary => .perform (.handler methodId) .ret
      | .serverStream => .perform (.handler methodId) .ret
      | .clientStream => .ret (.error ⟨.invalidArgument, "batch does not support 2 methods"⟩ ∅)
      | .duplexStream => .ret (.error ⟨.invalidArgument, "batch does not support 3 methods"⟩ ∅)

/-- The task of a call. A dependency has its outcome when the layer starts. -/
def batchTask (batchContext : CallContext Text) (call : BatchCall Payload) :
    RouterCode Text Payload :=
  let execute := fun (payload : Payload) (upstreamMeta : Metadata Text) =>
    let context : CallContext Text := batchContext.makeBatchContext call.methodId upstreamMeta
    .call (fun _ => .batchCall call.methodId payload context) (.await .ret)
  if hasDependency call then
    .await fun outcome =>
      match upstream "has no payload" call.inputFrom outcome with
      | .error error => .ret (.error error ∅)
      | .ok (payload, upstreamMeta) => execute payload upstreamMeta
  else execute call.payload ∅

def runLayer (batchContext : CallContext Text) (calls : List (BatchCall Payload))
    (next : RouterCode Text Payload) : List Nat → RouterCode Text Payload
  | [] => .await fun _ => next
  | index :: layer =>
    match calls[index]? with
    | none => runLayer batchContext calls next layer
    | some call =>
      .later (batchTask batchContext call) (runLayer batchContext calls next layer)

/-- The loop over the layers; one that never runs came after the deadline. -/
def runLayers (batchContext : CallContext Text) (calls : List (BatchCall Payload)) :
    List (List Nat) → RouterCode Text Payload
  | [] => .await .ret
  | layer :: layers => runLayer batchContext calls (runLayers batchContext calls layers) layer

def handleBatch (payload : Payload) (context : CallContext Text) : RouterCode Text Payload :=
  match router.decode.batch payload with
  | .error error => .throw (.rpc error)
  | .ok request =>
    if request.calls.isEmpty then .await .ret
    else if ¬request.calls.length ≤ router.maxBatchSize then
      throwRpc .resourceExhausted "batch too large"
    else
      match buildExecutionLayers request.calls with
      | .error error => .throw (.rpc error)
      | .ok layers => runLayers (context.derivingAppending request.metadata) request.calls layers

/-! ## Futures -/

def handleDispatch (payload : Payload) (context : CallContext Text) : RouterCode Text Payload :=
  router.requireStore <| router.requireOwner context fun owner => runInterceptors context <|
    match router.decode.dispatch payload with
    | .error error => .throw (.rpc error)
    | .ok request =>
      match request.methodId, request.payload with
      | none, _ => throwRpc .invalidArgument "missing method_id"
      | some _, none => throwRpc .invalidArgument "missing payload"
      | some methodId, some innerPayload =>
        let innerContext : CallContext Text :=
          context.dispatched methodId request.metadata request.deadline
        -- The store runs the closure, if it does at all.
        let register : RouterCode Text Payload :=
          .perform (.register owner request.idempotencyKey (request.discardResult.getD false)) fun handle =>
            .later (.call (fun _ => .unary methodId innerPayload innerContext) (.await .ret)) (.ret handle)
        if methodId = BebopReservedMethod.dispatch ∨ methodId = BebopReservedMethod.resolve ∨
            methodId = BebopReservedMethod.cancel then
          throwRpc .invalidArgument "cannot dispatch reserved method"
        else
          match router.methods methodId with
          | some .unary => register
          | some _ => throwRpc .invalidArgument "only unary methods can be dispatched"
          | none =>
            if methodId = BebopReservedMethod.discovery ∨ methodId = BebopReservedMethod.batch then register
            else throwRpc .notFound "unknown method"

def handleResolve (payload : Payload) (context : CallContext Text) : RouterCode Text Payload :=
  router.requireStore <| router.requireOwner context fun owner => runInterceptors context <|
    match router.decode.resolve payload with
    | .error error => .throw (.rpc error)
    | .ok ids => .perform (.subscribe owner ids) .ret

def handleCancel (payload : Payload) (context : CallContext Text) : RouterCode Text Payload :=
  router.requireStore <| router.requireOwner context fun owner => runInterceptors context <|
    match router.decode.cancel payload with
    | .error error => .throw (.rpc error)
    | .ok id =>
      .perform (.cancel owner id) fun found =>
        .poll (· = .rpc ⟨.notFound, "future not found"⟩) (.ret found)

/-! ## Calls -/

def handleDiscovery : RouterCode Text Payload :=
  if router.discoveryEnabled then .ret (.success [router.discoveryResponse] ∅)
  else throwRpc .unimplemented "discovery disabled"

/-- A call of a registered method of the given kind; `name` is for the error. -/
def dispatchCall (kind : MethodType) (name : String) (methodId : UInt32) (context : CallContext Text) :
    RouterCode Text Payload :=
  match router.methods methodId with
  | none => throwRpc .notFound s!"method {methodId}"
  | some registered =>
    if registered ≠ kind then throwRpc .unimplemented s!"method {methodId} is not {name}"
    else runInterceptors context (.perform (.handler methodId) .ret)

def requireContext (methodId : UInt32) (context : CallContext Text) (next : RouterCode Text Payload) :
    RouterCode Text Payload :=
  if context.methodId ≠ methodId then throwRpc .invalidArgument "context method ID mismatch"
  else next

def unary (methodId : UInt32) (payload : Payload) (context : CallContext Text) :
    RouterCode Text Payload :=
  requireContext methodId context <|
    if methodId = BebopReservedMethod.discovery then router.handleDiscovery
    else if methodId = BebopReservedMethod.batch then router.handleBatch payload context
    else if methodId = BebopReservedMethod.dispatch then router.handleDispatch payload context
    else if methodId = BebopReservedMethod.cancel then router.handleCancel payload context
    else router.dispatchCall .unary "unary" methodId context

def serverStream (methodId : UInt32) (payload : Payload) (context : CallContext Text) :
    RouterCode Text Payload :=
  requireContext methodId context <|
    if methodId = BebopReservedMethod.resolve then router.handleResolve payload context
    else router.dispatchCall .serverStream "server-stream" methodId context

def clientStream (methodId : UInt32) (context : CallContext Text) : RouterCode Text Payload :=
  requireContext methodId context <|
    router.dispatchCall .clientStream "client-stream" methodId context

def duplexStream (methodId : UInt32) (context : CallContext Text) : RouterCode Text Payload :=
  requireContext methodId context <|
    router.dispatchCall .duplexStream "duplex-stream" methodId context

def serve : RouterCall Text Payload → RouterCode Text Payload
  | .unary methodId payload context => router.unary methodId payload context
  | .serverStream methodId payload context => router.serverStream methodId payload context
  | .clientStream methodId context => router.clientStream methodId context
  | .duplexStream methodId context => router.duplexStream methodId context
  | .batchCall methodId _ context => router.executeCall methodId context

/-! ## What comes before a chain -/

section

variable {router}

theorem runInterceptors_waits (context : CallContext Text) (next : RouterCode Text Payload) :
    (runInterceptors context next).Waits .before := trivial

theorem requireStore_waits {next : RouterCode Text Payload} (h : next.Waits .before) :
    (router.requireStore next).Waits .before := by
  unfold requireStore
  split
  · exact h
  · trivial

theorem requireOwner_waits {context : CallContext Text} {next : Text → RouterCode Text Payload}
    (h : ∀ owner, (next owner).Waits .before) : (router.requireOwner context next).Waits .before := by
  unfold requireOwner
  split
  · exact h _
  · trivial

theorem batchTask_waits (batchContext : CallContext Text) (call : BatchCall Payload) :
    (batchTask batchContext call).Waits .before := by
  unfold batchTask
  split
  · intro outcome
    dsimp only
    split
    · trivial
    · exact fun _ => trivial
  · exact fun _ => trivial

theorem runLayer_waits {batchContext : CallContext Text} {calls : List (BatchCall Payload)}
    {next : RouterCode Text Payload} (h : next.Waits .before) (layer : List Nat) :
    (runLayer batchContext calls next layer).Waits .before := by
  induction layer with
  | nil => exact fun _ => h
  | cons index layer ih =>
    unfold runLayer
    split
    · exact ih
    · exact ⟨batchTask_waits _ _, ih⟩

theorem runLayers_waits {batchContext : CallContext Text} {calls : List (BatchCall Payload)}
    (layers : List (List Nat)) : (runLayers batchContext calls layers).Waits .before := by
  induction layers with
  | nil => exact fun _ => trivial
  | cons layer layers ih => exact runLayer_waits ih layer

theorem handleBatch_waits (payload : Payload) (context : CallContext Text) :
    (router.handleBatch payload context).Waits .before := by
  unfold handleBatch
  split
  · trivial
  · split
    · exact fun _ => trivial
    · split
      · trivial
      · split
        · trivial
        · exact runLayers_waits _

theorem dispatchCall_waits (kind : MethodType) (name : String) (methodId : UInt32)
    (context : CallContext Text) :
    (router.dispatchCall kind name methodId context).Waits .before := by
  unfold dispatchCall
  split
  · trivial
  · split
    · trivial
    · exact runInterceptors_waits _ _

theorem requireContext_waits {methodId : UInt32} {context : CallContext Text}
    {next : RouterCode Text Payload} (h : next.Waits .before) :
    (requireContext methodId context next).Waits .before := by
  unfold requireContext
  split
  · trivial
  · exact h

theorem unary_waits (methodId : UInt32) (payload : Payload) (context : CallContext Text) :
    (router.unary methodId payload context).Waits .before := by
  refine requireContext_waits ?_
  split
  · unfold handleDiscovery
    split <;> trivial
  · split
    · exact handleBatch_waits payload context
    · split
      · exact requireStore_waits (requireOwner_waits fun _ => runInterceptors_waits _ _)
      · split
        · exact requireStore_waits (requireOwner_waits fun _ => runInterceptors_waits _ _)
        · exact dispatchCall_waits _ _ _ _

theorem serve_waits (call : RouterCall Text Payload) : (router.serve call).Waits .before := by
  cases call with
  | unary methodId payload context => exact unary_waits methodId payload context
  | serverStream methodId payload context =>
    refine requireContext_waits ?_
    split
    · exact requireStore_waits (requireOwner_waits fun _ => runInterceptors_waits _ _)
    · exact dispatchCall_waits _ _ _ _
  | clientStream methodId context => exact requireContext_waits (dispatchCall_waits _ _ _ _)
  | duplexStream methodId context => exact requireContext_waits (dispatchCall_waits _ _ _ _)
  | batchCall methodId payload context =>
    show (router.executeCall methodId context).Waits .before
    unfold executeCall
    split
    · trivial
    · exact runInterceptors_waits _ _

end

end Router

end Bebop.Swift.Rpc
