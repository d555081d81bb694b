import Bebop.Lib.DropQueue
import Bebop.Lib.OrderedMap
import Bebop.Rpc.Frame
import Mathlib.Data.Finset.Basic

/-!
# Bebop — the TypeScript future storage

`InMemoryFutureStorage` of `rpc/future-storage.ts`, with its `FifoQueue`. A method has no
`await`, so a call is one step. The contexts of the registrations are left out: the storage
only aborts them. The identifier `randomUUID` gives is an argument, and a stream is its
queue and the number of reads that wait for it.
-/

namespace Bebop.TypeScript.Rpc

open Bebop.Rpc (RpcError)

/-- A safe integer or `Infinity`. -/
inductive Limit where
  | finite (n : Nat)
  | infinity
  deriving DecidableEq, Repr

/-- `count >= limit` -/
def Limit.reachedBy (limit : Limit) (count : Int) : Bool :=
  match limit with
  | finite n => count ≥ n
  | infinity => false

/-- `count > limit` -/
def Limit.exceededBy (limit : Limit) (count : Int) : Bool :=
  match limit with
  | finite n => count > n
  | infinity => false

inductive FutureState (Result : Type) where
  | pending
  | completed (result : Result)
  deriving DecidableEq

structure FutureRegistration (Key Owner : Type) where
  idempotencyKey : Option Key
  owner : Owner
  discardResult : Bool
  deriving DecidableEq

structure FutureEntry (Key Owner Result : Type) where
  owner : Owner
  idempotencyKey : Option Key
  state : FutureState Result
  deriving DecidableEq

/-- A stream's controller: the results not read yet, and the reads that wait. -/
structure Controller (Result : Type) where
  queue : List Result
  pendingReads : Nat
  deriving DecidableEq

namespace Controller

variable {Result : Type}

def empty : Controller Result := ⟨[], 0⟩

/-- `desiredSize` of a stream that is neither closed nor errored. -/
def desiredSize (controller : Controller Result) (highWaterMark : Nat) : Int :=
  highWaterMark - controller.queue.length

def enqueue (controller : Controller Result) (result : Result) : Controller Result :=
  if controller.pendingReads = 0 then { controller with queue := controller.queue ++ [result] }
  else { controller with pendingReads := controller.pendingReads - 1 }

def read (controller : Controller Result) : Controller Result :=
  match controller.queue with
  | [] => { controller with pendingReads := controller.pendingReads + 1 }
  | _ :: queue => { controller with queue }

end Controller

/-- `ref` is the identity of its stream. -/
structure Subscriber (Id Owner Result : Type) where
  ref : Nat
  owner : Owner
  ids : Option (Finset Id)
  controller : Controller Result

structure InMemoryFutureStorage (Id Key Owner Result : Type) where
  entries : OrderedMap Id (FutureEntry Key Owner Result)
  idempotency : OrderedMap Key Id
  subscribers : List (Subscriber Id Owner Result)
  /-- The identity of the next stream. -/
  nextRef : Nat
  completedOrder : DropQueue Id
  pendingCount : Int
  maxPending : Limit
  maxCompleted : Limit
  subscriberBufferCapacity : Nat

/-- The future that has the key, or a new one that is scheduled. -/
inductive Registered (Id : Type) where
  | existing (id : Id)
  | scheduled (id : Id)
  deriving DecidableEq

def Registered.id {Id : Type} : Registered Id → Id
  | existing id => id
  | scheduled id => id

namespace InMemoryFutureStorage

variable {Id Key Owner Result : Type}

def new (maxPending maxCompleted : Limit) (subscriberBufferCapacity : Nat) :
    InMemoryFutureStorage Id Key Owner Result :=
  ⟨∅, ∅, [], 0, .empty, 0, maxPending, maxCompleted, subscriberBufferCapacity⟩

variable [DecidableEq Id] [DecidableEq Key] [DecidableEq Owner]

/-- `this.idempotency.delete(key)`, if there is a key -/
def deleteKey (idempotency : OrderedMap Key Id) (key : Option Key) : OrderedMap Key Id :=
  match key with
  | none => idempotency
  | some key => idempotency.delete key

/-- `this.idempotency.set(key, id)`, if there is a key -/
def setKey (idempotency : OrderedMap Key Id) (key : Option Key) (id : Id) : OrderedMap Key Id :=
  match key with
  | none => idempotency
  | some key => idempotency.set key id

variable (storage : InMemoryFutureStorage Id Key Owner Result)

def forget (id : Id) (key : Option Key) : InMemoryFutureStorage Id Key Owner Result :=
  { storage with
    entries := storage.entries.delete id
    idempotency := deleteKey storage.idempotency key }

/-! ## `register` -/

/-- The end of `register`, where `id` is the new identifier. -/
def schedule (registration : FutureRegistration Key Owner) (id : Id) :
    InMemoryFutureStorage Id Key Owner Result :=
  { storage with
    entries := storage.entries.set id ⟨registration.owner, registration.idempotencyKey, .pending⟩
    idempotency := setKey storage.idempotency registration.idempotencyKey id
    pendingCount := storage.pendingCount + 1 }

def register (registration : FutureRegistration Key Owner) (id : Id) :
    Except RpcError (Registered Id) × InMemoryFutureStorage Id Key Owner Result :=
  match registration.idempotencyKey.bind storage.idempotency.lookup with
  | some existingId =>
    if (storage.entries.lookup existingId).map FutureEntry.owner ≠ some registration.owner then
      (.error ⟨.permissionDenied, ""⟩, storage)
    else (.ok (.existing existingId), storage)
  | none =>
    if storage.maxPending.reachedBy storage.pendingCount then
      (.error ⟨.resourceExhausted, "too many pending futures"⟩, storage)
    else (.ok (.scheduled id), storage.schedule registration id)

/-! ## `cancel` -/

def cancel (id : Id) (owner : Owner) :
    Except RpcError Bool × InMemoryFutureStorage Id Key Owner Result :=
  match storage.entries.lookup id with
  | none => (.error ⟨.permissionDenied, ""⟩, storage)
  | some entry =>
    if entry.owner ≠ owner then (.error ⟨.permissionDenied, ""⟩, storage)
    else
      match entry.state with
      | .completed _ => (.ok false, storage)
      | .pending =>
        (.ok true,
          { storage.forget id entry.idempotencyKey with pendingCount := storage.pendingCount - 1 })

/-! ## `subscribe` -/

/-- The loop of `subscribe`: the results it collects, and the identifiers that
remain. -/
def subscribeLoop (owner : Owner) : List (Id × FutureEntry Key Owner Result) → Option (Finset Id) →
      List (Id × Result) × Option (Finset Id)
  | [], remainingIds => ([], remainingIds)
  | (id, entry) :: rest, remainingIds =>
    match entry.state with
    | .pending => subscribeLoop owner rest remainingIds
    | .completed result =>
      if entry.owner = owner ∧ remainingIds.all (id ∈ ·) then
        let (immediate, left) := subscribeLoop owner rest (remainingIds.map (·.erase id))
        ((id, result) :: immediate, left)
      else subscribeLoop owner rest remainingIds

/-- The identifiers to wait for; none of them stands for all of them. -/
def requestedIds (ids : Option (List Id)) : Option (Finset Id) :=
  match ids with
  | none => none
  | some [] => none
  | some (id :: ids) => some (id :: ids).toFinset

def subscribe (ids : Option (List Id))
    (owner : Owner) : List (Id × Result) × InMemoryFutureStorage Id Key Owner Result :=
  let (immediate, remainingIds) := subscribeLoop owner storage.entries.pairs (requestedIds ids)
  let opened := { storage with nextRef := storage.nextRef + 1 }
  if remainingIds = some ∅ then (immediate, opened)
  else
    (immediate,
      { opened with
        subscribers := storage.subscribers ++ [⟨storage.nextRef, owner, remainingIds, .empty⟩] })

/-- The stream's `cancel` callback -/
def unsubscribe (ref : Nat) : InMemoryFutureStorage Id Key Owner Result :=
  { storage with subscribers := storage.subscribers.filter (·.ref ≠ ref) }

def pull (ref : Nat) : InMemoryFutureStorage Id Key Owner Result :=
  { storage with
    subscribers := storage.subscribers.map fun subscriber =>
      if subscriber.ref = ref then { subscriber with controller := subscriber.controller.read }
      else subscriber }

/-! ## `complete` -/

/-- The body of the loop over the subscribers: what is left, and whether it got it. -/
def deliver (capacity : Nat) (owner : Owner) (id : Id) (result : Result)
    (subscriber : Subscriber Id Owner Result) : Option (Subscriber Id Owner Result) × Bool :=
  if subscriber.owner ≠ owner ∨ ¬subscriber.ids.all (id ∈ ·) then (some subscriber, false)
  else if subscriber.controller.desiredSize capacity ≤ 0 then (none, false)
  else
    let ids := subscriber.ids.map (·.erase id)
    if ids = some ∅ then (none, true)
    else (some { subscriber with ids, controller := subscriber.controller.enqueue result }, true)

def deliveredTo (owner : Owner) (id : Id) (result : Result) : List Nat :=
  (storage.subscribers.filter fun subscriber =>
    (deliver storage.subscriberBufferCapacity owner id result subscriber).2).map (·.ref)

def deliverAll (owner : Owner) (id : Id)
    (result : Result) : InMemoryFutureStorage Id Key Owner Result :=
  { storage with
    subscribers := storage.subscribers.filterMap fun subscriber =>
      (deliver storage.subscriberBufferCapacity owner id result subscriber).1 }

/-- The loop that evicts, for as many rounds as the queue is long. -/
def evictLoop (fuel : Nat) (storage : InMemoryFutureStorage Id Key Owner Result) :
    InMemoryFutureStorage Id Key Owner Result :=
  match fuel with
  | 0 => storage
  | fuel + 1 =>
    if storage.maxCompleted.exceededBy storage.completedOrder.length then
      match storage.completedOrder.shift 1024 with
      | none => storage
      | some (evicted, completedOrder) =>
        let removed := storage.entries.lookup evicted
        evictLoop fuel { storage.forget evicted (removed.bind FutureEntry.idempotencyKey) with
          completedOrder }
    else storage

/-- The end of `complete`, where the result is kept. -/
def keep (id : Id) (entry : FutureEntry Key Owner Result) (result : Result) :
    InMemoryFutureStorage Id Key Owner Result :=
  let kept := { storage with
    entries := storage.entries.set id { entry with state := .completed result }
    completedOrder := storage.completedOrder.push id }
  evictLoop kept.completedOrder.length kept

/-- `complete`, with the subscribers the result was enqueued for. -/
def complete (id : Id) (result : Result)
    (discard : Bool) : List Nat × InMemoryFutureStorage Id Key Owner Result :=
  match storage.entries.lookup id with
  | none => ([], storage)
  | some entry =>
    match entry.state with
    | .completed _ => ([], storage)
    | .pending =>
      let counted := { storage with pendingCount := storage.pendingCount - 1 }
      let delivered := counted.deliverAll entry.owner id result
      (counted.deliveredTo entry.owner id result,
        if discard then delivered.forget id entry.idempotencyKey
        else delivered.keep id entry result)

end InMemoryFutureStorage

end Bebop.TypeScript.Rpc
