import Bebop.Lib.Transition
import Bebop.TypeScript.FutureStorage

/-!
# Bebop — runs of the TypeScript future storage

The storage among its callers. A registration that is new leaves a task behind, which
executes in a later step and completes in another; in between, anything may happen. The
world remembers the identifiers that were issued and what each stream received.
-/

namespace Bebop.TypeScript.Rpc

open Bebop.Rpc (RpcError)
open Transition

variable {Id Key Owner Result : Type} [DecidableEq Id] [DecidableEq Key] [DecidableEq Owner]

structure FutureTask where
  discardResult : Bool
  started : Bool

structure FutureWorld (Id Key Owner Result : Type) where
  storage : InMemoryFutureStorage Id Key Owner Result
  tasks : OrderedMap Id FutureTask
  issued : List Id
  /-- A stream and a future whose result it was handed, when it was opened or
  later. -/
  received : List (Nat × Id)

inductive FutureEvent (Id Key Owner Result : Type) where
  | register (registration : FutureRegistration Key Owner)
      (answer : Except RpcError (Registered Id))
  | start (id : Id)
  | complete (id : Id) (result : Result)
  | cancel (id : Id) (owner : Owner) (answer : Except RpcError Bool)
  | subscribe (ids : Option (List Id)) (owner : Owner) (immediate : List (Id × Result))
  | unsubscribe (ref : Nat)
  | pull (ref : Nat)

namespace FutureWorld

def init (maxPending maxCompleted : Limit) (subscriberBufferCapacity : Nat) :
    FutureWorld Id Key Owner Result :=
  ⟨.new maxPending maxCompleted subscriberBufferCapacity, ∅, [], []⟩

/-- The world after a call of `register`. -/
def registered (world : FutureWorld Id Key Owner Result)
    (registration : FutureRegistration Key Owner) (id : Id) : FutureWorld Id Key Owner Result :=
  match world.storage.register registration id with
  | (.ok (.scheduled id), storage) =>
    { world with
      storage
      tasks := world.tasks.set id ⟨registration.discardResult, false⟩
      issued := id :: world.issued }
  | (_, storage) => { world with storage }

/-- The world after a task's call of `complete`. -/
def completed (world : FutureWorld Id Key Owner Result) (id : Id) (result : Result)
    (discard : Bool) : FutureWorld Id Key Owner Result :=
  let (refs, storage) := world.storage.complete id result discard
  { world with
    storage
    tasks := world.tasks.delete id
    received := world.received ++ refs.map (·, id) }

/-- The world after a call of `subscribe`. -/
def subscribed (world : FutureWorld Id Key Owner Result) (ids : Option (List Id)) (owner : Owner) :
    FutureWorld Id Key Owner Result :=
  let (immediate, storage) := world.storage.subscribe ids owner
  { world with
    storage
    received := world.received ++ immediate.map fun p => (world.storage.nextRef, p.1) }

end FutureWorld

open FutureWorld

inductive FutureStep : FutureWorld Id Key Owner Result → FutureEvent Id Key Owner Result →
    FutureWorld Id Key Owner Result → Prop
  | register {world} (registration id) : id ∉ world.issued →
      FutureStep world (.register registration (world.storage.register registration id).1)
        (world.registered registration id)
  | start {world discard} (id) : world.tasks.lookup id = some ⟨discard, false⟩ →
      FutureStep world (.start id) { world with tasks := world.tasks.set id ⟨discard, true⟩ }
  | complete {world discard} (id result) : world.tasks.lookup id = some ⟨discard, true⟩ →
      FutureStep world (.complete id result) (world.completed id result discard)
  | cancel {world} (id owner) :
      FutureStep world (.cancel id owner (world.storage.cancel id owner).1)
        { world with storage := (world.storage.cancel id owner).2 }
  | subscribe {world} (ids owner) :
      FutureStep world (.subscribe ids owner (world.storage.subscribe ids owner).1)
        (world.subscribed ids owner)
  | unsubscribe {world} (ref) :
      FutureStep world (.unsubscribe ref) { world with storage := world.storage.unsubscribe ref }
  | pull {world} (ref) :
      FutureStep world (.pull ref) { world with storage := world.storage.pull ref }

end Bebop.TypeScript.Rpc
