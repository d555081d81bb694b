import Bebop.Rpc.Batch
import Bebop.Lib.Interception

/-!
# Bebop — what the routers of the runtimes have in common
-/

/-!
## The contexts of nested calls

What a context must tell the interceptors and the handler of a batch entry: the peer, the
metadata of the enclosing context with those of the batch and of the dependency, and a
deadline that is not later (`Carries`).
-/

namespace Bebop.Rpc

variable {Text Peer : Type} [DecidableEq Text]

/-- A call that had until `limit` still has a deadline, and not a later one. -/
def NoLater (deadline limit : Option Int) : Prop :=
  ∀ instant, limit = some instant → ∃ earlier, deadline = some earlier ∧ earlier ≤ instant

theorem NoLater.refl (deadline : Option Int) : NoLater deadline deadline :=
  fun instant h => ⟨instant, h, le_refl _⟩

structure ContextFacts (Text Peer : Type) where
  metadata : Metadata Text
  deadline : Option Int
  peer : Option Peer

/-- What the context of an entry keeps of the enclosing one. -/
structure Carries (enclosing received : ContextFacts Text Peer) (batch dependency : Metadata Text) :
    Prop where
  peer : received.peer = enclosing.peer
  metadata : ∀ key, received.metadata.lookup key =
    (dependency.lookup key).or ((batch.lookup key).or (enclosing.metadata.lookup key))
  deadline : NoLater received.deadline enclosing.deadline

/-- The two contexts of a call of a batch, and what they told at that time. -/
structure BatchEntry (Text Peer : Type) where
  enclosing : Nat
  context : Nat
  batch : Metadata Text
  dependency : Metadata Text
  before : ContextFacts Text Peer
  received : ContextFacts Text Peer

/-- Every entry has what its enclosing context had, and is cancelled with it. -/
def ContextsKept (isCancelled : Nat → Bool) (entries : List (BatchEntry Text Peer)) : Prop :=
  ∀ entry ∈ entries, Carries entry.before entry.received entry.batch entry.dependency ∧
    (isCancelled entry.enclosing → isCancelled entry.context)

end Bebop.Rpc

/-!
## Routers

A call of a router comes to application code, or to the built-in logic of a reserved
method. What matters to a caller outside is that a handler starts or that the future store
is used (`RouterOp`).
-/

namespace Bebop.Rpc

inductive MethodType where
  | unary | serverStream | clientStream | duplexStream
  deriving DecidableEq, Repr

namespace BebopReservedMethod

def discovery : UInt32 := 0
def batch : UInt32 := 1
def dispatch : UInt32 := 2
def resolve : UInt32 := 3
def cancel : UInt32 := 4

end BebopReservedMethod

structure PeerInfo (Text : Type) where
  identity : Option Text
  remoteAddress : Option Text

structure FutureDispatchRequest (Text Payload : Type) where
  methodId : Option UInt32
  payload : Option Payload
  metadata : Option (Metadata Text)
  deadline : Option Int
  idempotencyKey : Option Text
  discardResult : Option Bool

/-- How a router reads the payloads of the reserved methods. -/
structure RequestDecoders (Text Payload : Type) where
  batch : Payload → Except RpcError (BatchRequest Text Payload)
  dispatch : Payload → Except RpcError (FutureDispatchRequest Text Payload)
  resolve : Payload → Except RpcError (Option (List Text))
  cancel : Payload → Except RpcError Text

inductive RouterOp (Text : Type) where
  | handler (methodId : UInt32)
  | register (owner : Text) (idempotencyKey : Option Text) (discardResult : Bool)
  | subscribe (owner : Text) (ids : Option (List Text))
  | unsubscribe (owner : Text)
  | cancel (owner id : Text)

/-- `requireOwner`, without its error. -/
def futureOwner {Text : Type} (allowUnauthenticatedFutureOwners : Bool)
    (peer : Option (PeerInfo Text)) : Option Text :=
  match peer.bind PeerInfo.identity with
  | some identity => some identity
  | none =>
    if allowUnauthenticatedFutureOwners then peer.bind PeerInfo.remoteAddress else none

end Bebop.Rpc
