import Bebop.Lib.Transition
import Bebop.Swift.FutureStore

/-!
# Bebop — runs of the Swift future store

The store among concurrent tasks. A registration that is new starts a task. When its work
is done the task completes the future, or removes it if the result is discarded; if it has
something to deliver it takes a snapshot of the subscribers, yields to them one by one, and
settles. Between any two of these steps anything may happen. The world remembers the
identifiers that were issued and what each subscribe call received.
-/

namespace Bebop.Swift.Rpc

open Bebop.Rpc (RpcError)
open Transition

variable {Id Key Owner Result : Type} [DecidableEq Id] [DecidableEq Key] [DecidableEq Owner]

/-- Its work is not done; it is about to notify; or it yields to the `waiting`. -/
inductive TaskState (Owner Result : Type) where
  | executing (owner : Owner) (discardResult : Bool)
  | notifying (owner : Owner) (result : Result)
  | yielding (result : Result) (waiting : List Nat) (deliveries : List (Nat × YieldResult))
  deriving DecidableEq

/-- A call of `subscribe`: its subscriber, and the futures it has results of. -/
structure SubscribeCall (Id : Type) where
  subscriber : Option Nat
  received : List Id

structure FutureWorld (Id Key Owner Result : Type) where
  store : FutureStore Id Key Owner Result
  tasks : OrderedMap Id (TaskState Owner Result)
  issued : List Id
  calls : List (SubscribeCall Id)

inductive FutureEvent (Id Key Owner Result : Type) where
  | register (registration : FutureRegistration Key Owner)
      (answer : Except RpcError (Registered Id))
  | finish (id : Id) (result : Result)
  | snapshot (id : Id)
  | yield (id : Id) (subscriber : Nat) (outcome : YieldResult)
  | settle (id : Id)
  | cancel (id : Id) (owner : Owner) (answer : Bool)
  | subscribe (ids : Option (List Id)) (owner : Owner) (immediate : List (Id × Result))
  | terminate (subscriber : Nat)

/-- The stream of the subscriber receives a future's result. -/
def SubscribeCall.receive (subscriber : Nat) (id : Id) (call : SubscribeCall Id) : SubscribeCall Id :=
  if call.subscriber = some subscriber then { call with received := call.received ++ [id] } else call

namespace FutureWorld

def init (maxPendingFutures maxCompletedFutures : Nat) : FutureWorld Id Key Owner Result :=
  ⟨.new maxPendingFutures maxCompletedFutures, ∅, [], []⟩

variable (world : FutureWorld Id Key Owner Result)

/-- The world after a call of `register`. -/
def registered
    (registration : FutureRegistration Key Owner) (id : Id) : FutureWorld Id Key Owner Result :=
  match world.store.register registration id with
  | (.ok (.started id), store) =>
    { world with
      store
      tasks := world.tasks.set id (.executing registration.owner registration.discardResult)
      issued := id :: world.issued }
  | (_, store) => { world with store }

def finished (id : Id) (owner : Owner)
    (discardResult : Bool) (result : Result) : Option (FutureWorld Id Key Owner Result) :=
  if discardResult then
    (world.store.removePending id).map fun store =>
      { world with store, tasks := world.tasks.set id (.notifying owner result) }
  else
    (world.store.complete id result).map fun p =>
      match p.1 with
      | none => { world with store := p.2, tasks := world.tasks.delete id }
      | some owner =>
        { world with store := p.2, tasks := world.tasks.set id (.notifying owner result) }

def yielded (id : Id) (subscriber : Nat)
    (outcome : YieldResult) (task : TaskState Owner Result) : FutureWorld Id Key Owner Result :=
  { world with
    tasks := world.tasks.set id task
    calls :=
      if outcome = .enqueued then world.calls.map (·.receive subscriber id) else world.calls }

/-- The world after a call of `subscribe`. -/
def subscribed (ids : Option (List Id)) (owner : Owner) : FutureWorld Id Key Owner Result :=
  let (immediate, subscriber, store) := world.store.subscribe ids owner
  { world with store, calls := world.calls ++ [⟨subscriber, immediate.map Prod.fst⟩] }

end FutureWorld

open FutureWorld

inductive FutureStep : FutureWorld Id Key Owner Result → FutureEvent Id Key Owner Result →
    FutureWorld Id Key Owner Result → Prop
  | register {world} (registration id) : id ∉ world.issued →
      FutureStep world (.register registration (world.store.register registration id).1)
        (world.registered registration id)
  | finish {world world' owner discardResult} (id result) :
      world.tasks.lookup id = some (.executing owner discardResult) →
      world.finished id owner discardResult result = some world' →
      FutureStep world (.finish id result) world'
  | snapshot {world owner result} (id) : world.tasks.lookup id = some (.notifying owner result) →
      FutureStep world (.snapshot id)
        { world with
          tasks := world.tasks.set id (.yielding result (world.store.matching id owner) []) }
  | yield {world result waiting deliveries} (id subscriber outcome) :
      world.tasks.lookup id = some (.yielding result (subscriber :: waiting) deliveries) →
      FutureStep world (.yield id subscriber outcome)
        (world.yielded id subscriber outcome
          (.yielding result waiting (deliveries ++ [(subscriber, outcome)])))
  | settle {world result deliveries} (id) :
      world.tasks.lookup id = some (.yielding result [] deliveries) →
      FutureStep world (.settle id)
        { world with
          store := world.store.settle id deliveries
          tasks := world.tasks.delete id }
  | cancel {world answer store} (id owner) : world.store.cancel id owner = some (answer, store) →
      FutureStep world (.cancel id owner answer) { world with store }
  | subscribe {world} (ids owner) :
      FutureStep world (.subscribe ids owner (world.store.subscribe ids owner).1)
        (world.subscribed ids owner)
  | terminate {world} (subscriber) :
      FutureStep world (.terminate subscriber)
        { world with store := world.store.terminate subscriber }

end Bebop.Swift.Rpc
