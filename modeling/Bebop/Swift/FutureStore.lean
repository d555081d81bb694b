import Bebop.Lib.DropQueue
import Bebop.Lib.OrderedMap
import Bebop.Rpc.Frame
import Mathlib.Data.Finset.Basic

/-!
# Bebop — the Swift future store

`FutureStore` of `FutureStore.swift`: what each section that holds the lock does to the
state. A checked operation that fails traps, which is `none`. Left out are the contexts and
tasks of the entries, which are only cancelled, and the continuations of the subscribers.
-/

namespace Bebop.Swift.Rpc

open Bebop.Rpc (RpcError)

inductive FutureState (Result : Type) where
  | pending
  | completed (result : Result) (sequence : Nat)
  deriving DecidableEq

structure FutureEntry (Owner Result : Type) where
  state : FutureState Result
  owner : Owner
  deriving DecidableEq

structure Subscriber (Id Owner : Type) where
  id : Nat
  owner : Owner
  futureIds : Option (Finset Id)
  minimumSequence : Option Nat
  deriving DecidableEq

structure FutureStore (Id Key Owner Result : Type) where
  futures : OrderedMap Id (FutureEntry Owner Result)
  subscribers : OrderedMap Nat (Subscriber Id Owner)
  nextSubscriberId : Nat
  idempotencyIndex : OrderedMap Key Id
  reverseIdempotency : OrderedMap Id Key
  /-- `completedOrder` and `completedEvictionOffset` -/
  completedOrder : DropQueue Id
  nextCompletionSequence : Nat
  pendingCount : Nat
  maxPendingFutures : Nat
  maxCompletedFutures : Nat

/-- `UInt.max`, which stands for no limit. -/
def unlimited : Nat := 2 ^ 64 - 1

structure FutureRegistration (Key Owner : Type) where
  idempotencyKey : Option Key
  owner : Owner
  discardResult : Bool
  deriving DecidableEq

/-- The future that has the key, or a new one whose task is running. -/
inductive Registered (Id : Type) where
  | existing (id : Id)
  | started (id : Id)
  deriving DecidableEq

/-- What `yield` gave. -/
inductive YieldResult where
  | enqueued
  | dropped
  | terminated
  deriving DecidableEq, Repr

section

variable {Id Owner : Type} [DecidableEq Id] [DecidableEq Owner]

def Subscriber.accepts (subscriber : Subscriber Id Owner) (resultId : Id) (resultOwner : Owner)
    (sequence : Option Nat) : Bool :=
  if subscriber.owner = resultOwner then
    match subscriber.futureIds with
    | some futureIds => resultId ∈ futureIds
    | none =>
      match subscriber.minimumSequence, sequence with
      | some minimumSequence, some sequence => sequence ≥ minimumSequence
      | _, _ => true
  else false

end

namespace FutureStore

variable {Id Key Owner Result : Type}

def new (maxPendingFutures maxCompletedFutures : Nat) : FutureStore Id Key Owner Result :=
  ⟨∅, ∅, 0, ∅, ∅, .empty, 0, 0, maxPendingFutures, maxCompletedFutures⟩

variable [DecidableEq Id] [DecidableEq Key] [DecidableEq Owner]

variable (store : FutureStore Id Key Owner Result)

def forget (id : Id) : FutureStore Id Key Owner Result :=
  match store.reverseIdempotency.lookup id with
  | none => { store with futures := store.futures.delete id }
  | some key =>
    { store with
      futures := store.futures.delete id
      reverseIdempotency := store.reverseIdempotency.delete id
      idempotencyIndex := store.idempotencyIndex.delete key }

/-- `pendingCount -= 1` -/
def decrement : Option (FutureStore Id Key Owner Result) :=
  if store.pendingCount = 0 then none
  else some { store with pendingCount := store.pendingCount - 1 }

/-! ## Registration -/

/-- The end of the section of `register`, where `id` is the new identifier. -/
def start (registration : FutureRegistration Key Owner)
    (id : Id) : FutureStore Id Key Owner Result :=
  let indexed :=
    match registration.idempotencyKey with
    | none => store
    | some key =>
      { store with
        idempotencyIndex := store.idempotencyIndex.set key id
        reverseIdempotency := store.reverseIdempotency.set id key }
  { indexed with
    futures := store.futures.set id ⟨.pending, registration.owner⟩
    pendingCount := store.pendingCount + 1 }

def register (registration : FutureRegistration Key Owner)
    (id : Id) : Except RpcError (Registered Id) × FutureStore Id Key Owner Result :=
  match registration.idempotencyKey.bind store.idempotencyIndex.lookup with
  | some existing =>
    if (store.futures.lookup existing).map FutureEntry.owner = some registration.owner then
      (.ok (.existing existing), store)
    else (.error ⟨.permissionDenied, ""⟩, store)
  | none =>
    if store.maxPendingFutures < unlimited ∧ store.pendingCount ≥ store.maxPendingFutures then
      (.error ⟨.resourceExhausted, "too many pending futures"⟩, store)
    else (.ok (.started id), store.start registration id)

/-! ## Completion -/

/-- The loop of `evict`, for as many rounds as there are identifiers. -/
def evictLoop (limit fuel evicted : Nat) (store : FutureStore Id Key Owner Result) :
    Option (Nat × FutureStore Id Key Owner Result) :=
  match fuel with
  | 0 => some (evicted, store)
  | fuel + 1 =>
    if store.completedOrder.length - evicted > limit then
      match store.completedOrder.values[store.completedOrder.head + evicted]? with
      | none => none
      | some evictId => evictLoop limit fuel (evicted + 1) (store.forget evictId)
    else some (evicted, store)

/-- `evict`. The limit is converted to `Int`, which traps from 2^63 on. -/
def evict : Option (FutureStore Id Key Owner Result) :=
  if ¬store.maxCompletedFutures < unlimited then some store
  else if 2 ^ 63 ≤ store.maxCompletedFutures then none
  else
    match evictLoop store.maxCompletedFutures store.completedOrder.length 0 store with
    | none => none
    | some (evicted, store) =>
      some { store with completedOrder := (store.completedOrder.skip evicted).compact }

/-- The part of `complete` before the eviction. -/
def markCompleted (id : Id) (owner : Owner) (result : Result) : FutureStore Id Key Owner Result :=
  { store with
    nextCompletionSequence := (store.nextCompletionSequence + 1) % 2 ^ 64
    futures := store.futures.set id ⟨.completed result store.nextCompletionSequence, owner⟩
    completedOrder := store.completedOrder.push id }

def complete (id : Id) (result : Result) :
    Option (Option Owner × FutureStore Id Key Owner Result) :=
  match store.futures.lookup id with
  | none => some (none, store)
  | some entry =>
    match entry.state with
    | .completed _ _ => some (none, store)
    | .pending =>
      store.decrement.bind fun store =>
        (store.markCompleted id entry.owner result).evict.map fun store => (some entry.owner, store)

def removePending (id : Id) : Option (FutureStore Id Key Owner Result) :=
  match store.futures.lookup id with
  | none => some store
  | some entry =>
    match entry.state with
    | .completed _ _ => some store
    | .pending => store.decrement.map fun store => store.forget id

/-! ## Notification -/

/-- The sequence number `notify` looks up. -/
def sequenceOf (id : Id) : Option Nat :=
  match store.futures.lookup id with
  | none => none
  | some entry =>
    match entry.state with
    | .completed _ sequence => some sequence
    | .pending => none

/-- The first section of `notify`: the subscribers that match. -/
def matching (id : Id) (owner : Owner) : List Nat :=
  (store.subscribers.pairs.filter fun p => p.2.accepts id owner (store.sequenceOf id)).map Prod.fst

/-- The body of the loop of the second section of `notify`. -/
def settleOne (id : Id) (store : FutureStore Id Key Owner Result) (delivery : Nat × YieldResult) :
    FutureStore Id Key Owner Result :=
  match store.subscribers.lookup delivery.1 with
  | none => store
  | some subscriber =>
    match delivery.2 with
    | .enqueued =>
      let futureIds := subscriber.futureIds.map (·.erase id)
      if futureIds = some ∅ then
        { store with subscribers := store.subscribers.delete delivery.1 }
      else
        { store with subscribers := store.subscribers.set delivery.1 { subscriber with futureIds } }
    | .dropped => { store with subscribers := store.subscribers.delete delivery.1 }
    | .terminated => { store with subscribers := store.subscribers.delete delivery.1 }

/-- The second section of `notify`. -/
def settle (id : Id) (deliveries : List (Nat × YieldResult)) : FutureStore Id Key Owner Result :=
  deliveries.foldl (settleOne id) store

/-! ## Cancellation -/

def cancel (id : Id) (owner : Owner) : Option (Bool × FutureStore Id Key Owner Result) :=
  match store.futures.lookup id with
  | none => some (false, store)
  | some entry =>
    if entry.owner = owner then
      match entry.state with
      | .completed _ _ => some (false, store)
      | .pending => store.decrement.map fun store => (true, store.forget id)
    else some (false, store)

/-! ## Subscription -/

/-- The result of a future that is completed and belongs to the owner. -/
def resultFor (owner : Owner) (id : Id) : Option Result :=
  match store.futures.lookup id with
  | none => none
  | some entry =>
    match entry.state with
    | .completed result _ => if entry.owner = owner then some result else none
    | .pending => none

/-- The loop over the requested identifiers: each is looked up once. -/
def immediateFor (store : FutureStore Id Key Owner Result) (owner : Owner) :
    List Id → Finset Id → List (Id × Result)
  | [], _ => []
  | id :: ids, seen =>
    if id ∈ seen then store.immediateFor owner ids seen
    else
      match store.resultFor owner id with
      | none => store.immediateFor owner ids (insert id seen)
      | some result => (id, result) :: store.immediateFor owner ids (insert id seen)

def immediateAll (owner : Owner) : List (Id × Result) :=
  store.futures.pairs.filterMap fun p => (store.resultFor owner p.1).map (p.1, ·)

/-- The section of `subscribe`: the results at hand, and perhaps a subscriber. -/
def subscribe (ids : Option (List Id)) (owner : Owner) :
    List (Id × Result) × Option Nat × FutureStore Id Key Owner Result :=
  match ids with
  | none =>
    (store.immediateAll owner, some store.nextSubscriberId,
      { store with
        nextSubscriberId := store.nextSubscriberId + 1
        subscribers := store.subscribers.set store.nextSubscriberId
          ⟨store.nextSubscriberId, owner, none, some store.nextCompletionSequence⟩ })
  | some ids =>
    let immediate := store.immediateFor owner ids ∅
    let remainingIds := ids.toFinset \ (immediate.map Prod.fst).toFinset
    if remainingIds = ∅ then (immediate, none, store)
    else
      (immediate, some store.nextSubscriberId,
        { store with
          nextSubscriberId := store.nextSubscriberId + 1
          subscribers := store.subscribers.set store.nextSubscriberId
            ⟨store.nextSubscriberId, owner, some remainingIds, none⟩ })

/-- `onTermination` -/
def terminate (subscriberId : Nat) : FutureStore Id Key Owner Result :=
  { store with subscribers := store.subscribers.delete subscriberId }

end FutureStore

end Bebop.Swift.Rpc
