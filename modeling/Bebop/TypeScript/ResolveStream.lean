import Bebop.TypeScript.FutureOwners

/-!
# Bebop — resolve streams of the TypeScript router

The generator that `handleResolve` of `rpc/router.ts` returns, over the future storage.
A step is a stretch of the generator between two suspensions, a step of the storage and
its other callers, or an abort of the call's context.

The `ReadableStream` between the two belongs to the platform. Closing it leaves its queue
to be read; an error and a cancellation empty it. One that is over and empty answers reads
at once, however it came to that.
-/

set_option linter.unusedSectionVars false

namespace Bebop.TypeScript.Rpc

open Transition
open InMemoryFutureStorage

variable {Id Key Owner Result : Type} [DecidableEq Id] [DecidableEq Key] [DecidableEq Owner]

inductive StreamState where
  | readable
  /-- the storage has closed it; the queue can be read -/
  | closing
  /-- its reader has cancelled it -/
  | cancelled
  | errored
  deriving DecidableEq, Repr

/-- What `reader.read()` is answered with. -/
inductive ReadAnswer (Id Result : Type) where
  | value (result : Id × Result)
  | done
  | failed

/-- What a read of an empty stream is answered with, if it is. -/
def StreamState.readEmpty : StreamState → Option (ReadAnswer Id Result)
  | .readable => none
  | .closing | .cancelled => some .done
  | .errored => some .failed

inductive ResolvePhase (Id Result : Type) where
  /-- `next` has not been called -/
  | created
  /-- at the `await` of `subscribe` -/
  | subscribing (immediate : List (Id × Result))
  /-- at the `yield` of an immediate result -/
  | immediate (rest : List (Id × Result))
  /-- at the `await` of a read -/
  | reading (answer : Option (ReadAnswer Id Result))
  /-- at the `yield` of a result that was read -/
  | yielded
  | ended

/-- `request.ids`, and the owner of the call. -/
structure ResolveRequest (Id Owner : Type) where
  ids : Option (List Id)
  owner : Owner

/-- `target` -/
def ResolveRequest.target (request : ResolveRequest Id Owner) : Option (Finset Id) := requestedIds request.ids

def ResolveRequest.Matches (request : ResolveRequest Id Owner) (owner : Owner) (id : Id) : Prop :=
  owner = request.owner ∧ request.target.all (id ∈ ·)

instance (request : ResolveRequest Id Owner) (owner : Owner) (id : Id) : Decidable (request.Matches owner id) :=
  inferInstanceAs (Decidable (_ ∧ _))

/-- The generator and its stream among the futures. `due` are the results of the matching
futures that were there for the subscription or completed since, while the generator has
not ended. -/
structure ResolveWorld (Id Key Owner Result : Type) where
  futures : FutureWorld Id Key Owner Result
  phase : ResolvePhase Id Result
  ref : Option Nat
  stream : StreamState
  queue : List (Id × Result)
  aborted : Bool
  /-- the `abort` listener is registered -/
  listening : Bool
  yielded : List (Id × Result)
  due : List (Id × Result)

inductive ResolveEvent (Id Key Owner Result : Type) where
  | storage (event : FutureEvent Id Key Owner Result)
  /-- the generator goes on after an `await` -/
  | resume
  | next
  /-- `return` or `throw` -/
  | finish
  | abort

namespace ResolvePhase

def answered (phase : ResolvePhase Id Result) (answer : ReadAnswer Id Result) : ResolvePhase Id Result :=
  match phase with
  | .reading none => .reading (some answer)
  | phase => phase

def Active : ResolvePhase Id Result → Prop
  | .created | .ended => False
  | _ => True

instance (phase : ResolvePhase Id Result) : Decidable phase.Active := by
  cases phase <;> unfold Active <;> infer_instance

end ResolvePhase

namespace ResolveWorld

variable (request : ResolveRequest Id Owner) (w : ResolveWorld Id Key Owner Result)

def new (futures : FutureWorld Id Key Owner Result) : ResolveWorld Id Key Owner Result :=
  ⟨futures, .created, none, .readable, [], false, false, [], []⟩

/-- `isSubset(target, resolved)`, if there is a target. -/
def targetResolved : Bool :=
  match request.target with
  | none => false
  | some target => decide (target ⊆ (w.yielded.map Prod.fst).toFinset)

/-! ## The stream -/

def unsubscribe : FutureWorld Id Key Owner Result :=
  match w.ref with
  | none => w.futures
  | some ref => { w.futures with storage := w.futures.storage.unsubscribe ref }

def pull : FutureWorld Id Key Owner Result :=
  match w.ref with
  | none => w.futures
  | some ref => { w.futures with storage := w.futures.storage.pull ref }

/-- `cancel`, of the stream or of its reader. -/
def cancelStream : ResolveWorld Id Key Owner Result :=
  match w.stream with
  | .cancelled | .errored => w
  | .readable | .closing =>
    { w with stream := .cancelled, queue := [], phase := w.phase.answered .done, futures := w.unsubscribe }

/-- `controller.enqueue` -/
def enqueue (result : Id × Result) : ResolveWorld Id Key Owner Result :=
  match w.phase with
  | .reading none => { w with phase := .reading (some (.value result)) }
  | _ => { w with queue := w.queue ++ [result] }

/-- `controller.close` -/
def close : ResolveWorld Id Key Owner Result :=
  { w with stream := .closing, phase := w.phase.answered .done }

/-- `controller.error` -/
def error : ResolveWorld Id Key Owner Result :=
  { w with stream := .errored, queue := [], phase := w.phase.answered .failed }

/-- What `complete` does to the stream, by what `deliver` makes of its subscriber. -/
def serve (result : Id × Result) :
    Option (Subscriber Id Owner Result) × Bool → ResolveWorld Id Key Owner Result
  | (some _, false) => w
  | (none, false) => w.error
  | (some _, true) => w.enqueue result
  | (none, true) => (w.enqueue result).close

/-- The loop of `complete` at the subscriber of this stream. -/
def served (owner : Owner) (id : Id) (result : Result) : ResolveWorld Id Key Owner Result :=
  match w.ref.bind fun ref => w.futures.storage.subscribers.find? (·.ref = ref) with
  | none => w
  | some subscriber =>
    w.serve (id, result) (deliver w.futures.storage.subscriberBufferCapacity owner id result subscriber)

/-- What a call of `complete` does to the stream, and what is due from then on. -/
def completes (id : Id) (result : Result) : ResolveWorld Id Key Owner Result :=
  match w.futures.storage.entries.lookup id with
  | none => w
  | some entry =>
    match entry.state with
    | .completed _ => w
    | .pending =>
      { w.served entry.owner id result with
        due := if w.phase.Active ∧ request.Matches entry.owner id then w.due ++ [(id, result)] else w.due }

def others (event : FutureEvent Id Key Owner Result) (futures : FutureWorld Id Key Owner Result) :
    ResolveWorld Id Key Owner Result :=
  match event with
  | .complete id result => { w.completes request id result with futures }
  | _ => { w with futures }

/-! ## The generator -/

/-- The `finally` block. -/
def finallyBlock : ResolveWorld Id Key Owner Result :=
  { w.cancelStream with listening := false, phase := .ended }

/-- `reader.read()` -/
def read : ResolveWorld Id Key Owner Result :=
  match w.queue with
  | result :: queue => { w with queue, phase := .reading (some (.value result)), futures := w.pull }
  | [] => { w with phase := .reading w.stream.readEmpty, futures := w.pull }

/-- After the immediate results; a listener misses an earlier abort. -/
def afterImmediate : ResolveWorld Id Key Owner Result :=
  if w.targetResolved request then { w.cancelStream with phase := .ended }
  else ResolveWorld.read { w with listening := !w.aborted }

def yieldImmediate : List (Id × Result) → ResolveWorld Id Key Owner Result
  | [] => w.afterImmediate request
  | result :: rest => { w with yielded := w.yielded ++ [result], phase := .immediate rest }

/-- The result of a matching future that is completed. -/
def heldResult (owner : Owner) (ids : Option (Finset Id)) (p : Id × FutureEntry Key Owner Result) :
    Option (Id × Result) :=
  match p.2.state with
  | .pending => none
  | .completed result => if p.2.owner = owner ∧ ids.all (p.1 ∈ ·) then some (p.1, result) else none

/-- The results of the matching futures that the storage holds. -/
def heldResults (storage : InMemoryFutureStorage Id Key Owner Result) : List (Id × Result) :=
  storage.entries.pairs.filterMap (heldResult request.owner request.target)

/-- The call of `subscribe`. -/
def subscribe : ResolveWorld Id Key Owner Result :=
  let (immediate, remainingIds) :=
    subscribeLoop request.owner w.futures.storage.entries.pairs (requestedIds request.ids)
  { w with
    futures := w.futures.subscribed request.ids request.owner
    ref := some w.futures.storage.nextRef
    stream := if remainingIds = some ∅ then .closing else .readable
    phase := .subscribing immediate
    due := heldResults request w.futures.storage }

def afterRead : ReadAnswer Id Result → ResolveWorld Id Key Owner Result
  | .failed => w.finallyBlock
  | .done => w.finallyBlock
  | .value result =>
    if w.aborted then w.finallyBlock
    else { w with yielded := w.yielded ++ [result], phase := .yielded }

def resume : Option (ResolveWorld Id Key Owner Result) :=
  match w.phase with
  | .subscribing immediate => some (w.yieldImmediate request immediate)
  | .reading (some answer) => some (w.afterRead answer)
  | _ => none

def next : Option (ResolveWorld Id Key Owner Result) :=
  match w.phase with
  | .created => some (w.subscribe request)
  | .immediate rest => some (w.yieldImmediate request rest)
  | .yielded => some (if w.targetResolved request then w.finallyBlock else w.read)
  | _ => none

/-- `return` or `throw`; the immediate results are outside the `try`. -/
def finish : Option (ResolveWorld Id Key Owner Result) :=
  match w.phase with
  | .created | .immediate _ => some { w with phase := .ended }
  | .yielded => some w.finallyBlock
  | _ => none

def abort : ResolveWorld Id Key Owner Result :=
  if w.listening then { w.cancelStream with aborted := true, listening := false }
  else { w with aborted := true }

end ResolveWorld

open ResolveWorld

/-- The stream of the generator is read and cancelled by the generator only. -/
def ResolveWorld.Foreign (w : ResolveWorld Id Key Owner Result) : FutureEvent Id Key Owner Result → Prop
  | .unsubscribe ref => w.ref ≠ some ref
  | .pull ref => w.ref ≠ some ref
  | _ => True

inductive ResolveStep (request : ResolveRequest Id Owner) :
    ResolveWorld Id Key Owner Result → ResolveEvent Id Key Owner Result → ResolveWorld Id Key Owner Result → Prop
  | storage {w : ResolveWorld Id Key Owner Result} {event : FutureEvent Id Key Owner Result}
      {futures : FutureWorld Id Key Owner Result} : FutureStep w.futures event futures → w.Foreign event →
      ResolveStep request w (.storage event) (w.others request event futures)
  | resume {w w' : ResolveWorld Id Key Owner Result} : w.resume request = some w' → ResolveStep request w .resume w'
  | next {w w' : ResolveWorld Id Key Owner Result} : w.next request = some w' → ResolveStep request w .next w'
  | finish {w w' : ResolveWorld Id Key Owner Result} : w.finish = some w' → ResolveStep request w .finish w'
  | abort {w : ResolveWorld Id Key Owner Result} : ResolveStep request w .abort w.abort

end Bebop.TypeScript.Rpc
