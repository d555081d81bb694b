import Bebop.Rpc.StreamNames
import Bebop.Swift.FutureDelivery

/-!
# Bebop — owners in the Swift future store

The steps of the store with the name of the owner each belongs to, and what the owners
share: a future, its task and the streams it yields to belong to one owner, and the keys in
use to those who used them (`ownedSound_step`). So a result only goes to streams of its
owner, and another owner's key is refused.
-/

set_option linter.unusedSectionVars false

namespace Bebop.Swift.Rpc

open Bebop.Rpc (RpcError streamName_eq_some streamName_injective)
open Transition

variable {Id Key Owner Result : Type} [DecidableEq Id] [DecidableEq Key] [DecidableEq Owner]

/-- The owner of each subscriber, by its number, and of each identifier issued. -/
structure OwnedWorld (Id Key Owner Result : Type) where
  world : FutureWorld Id Key Owner Result
  streams : List Owner
  owners : OrderedMap Id Owner

inductive OwnerEvent (Id Key Owner Result : Type) where
  | register (registration : FutureRegistration Key Owner)
      (answer : Except RpcError (Registered Id))
  | finish (owner : Owner) (id : Id) (result : Result)
  | snapshot (owner : Owner) (id : Id)
  | yield (owner : Owner) (id : Id) (stream : Owner × Nat) (outcome : YieldResult)
  | settle (owner : Owner) (id : Id)
  | cancel (owner : Owner) (id : Id) (answer : Bool)
  | subscribe (owner : Owner) (ids : Option (List Id)) (immediate : List (Id × Result))
  | terminate (owner : Owner) (stream : Nat)

def OwnerEvent.owner : OwnerEvent Id Key Owner Result → Owner
  | register registration _ => registration.owner
  | finish owner _ _ => owner
  | snapshot owner _ => owner
  | yield owner _ _ _ => owner
  | settle owner _ => owner
  | cancel owner _ _ => owner
  | subscribe owner _ _ => owner
  | terminate owner _ => owner

/-- A call, the identifier of a new future, and what a buffer answers to a yield. -/
inductive OwnerCall (Id Key Owner Result : Type) where
  | register (registration : FutureRegistration Key Owner) (fresh : Option Id)
  | finish (owner : Owner) (id : Id) (result : Result)
  | snapshot (owner : Owner) (id : Id)
  | yield (owner : Owner) (id : Id) (outcome : YieldResult)
  | settle (owner : Owner) (id : Id)
  | cancel (owner : Owner) (id : Id)
  | subscribe (owner : Owner) (ids : Option (List Id))
  | terminate (owner : Owner) (stream : Nat)

def freshId : Except RpcError (Registered Id) → Option Id
  | .ok (.started id) => some id
  | _ => none

def OwnerEvent.call : OwnerEvent Id Key Owner Result → OwnerCall Id Key Owner Result
  | register registration answer => .register registration (freshId answer)
  | finish owner id result => .finish owner id result
  | snapshot owner id => .snapshot owner id
  | yield owner id _ outcome => .yield owner id outcome
  | settle owner id => .settle owner id
  | cancel owner id _ => .cancel owner id
  | subscribe owner ids _ => .subscribe owner ids
  | terminate owner stream => .terminate owner stream

/-- A stream of the owner is handed the future's result. -/
def OwnerEvent.Delivers (owner : Owner) (id : Id) : OwnerEvent Id Key Owner Result → Prop
  | yield _ id' stream _ => id' = id ∧ stream.1 = owner
  | subscribe owner' _ immediate => owner' = owner ∧ id ∈ immediate.map Prod.fst
  | _ => False

namespace OwnedWorld

def init (maxPendingFutures maxCompletedFutures : Nat) : OwnedWorld Id Key Owner Result :=
  ⟨.init maxPendingFutures maxCompletedFutures, [], ∅⟩

/-- The owner of a subscriber, and its number among theirs. -/
def streamName (w : OwnedWorld Id Key Owner Result) (subscriber : Nat) : Option (Owner × Nat) :=
  Bebop.Rpc.streamName w.streams subscriber

def ownersAfter (w : OwnedWorld Id Key Owner Result) (owner : Owner) :
    Except RpcError (Registered Id) → OrderedMap Id Owner
  | .ok (.started id) => w.owners.set id owner
  | _ => w.owners

/-- A subscription opens a stream if something is left to wait for. -/
def streamsAfter (w : OwnedWorld Id Key Owner Result) (owner : Owner) : Option Nat → List Owner
  | some _ => w.streams ++ [owner]
  | none => w.streams

def BelowLimits (w : OwnedWorld Id Key Owner Result) : Prop :=
  w.world.store.pendingCount < w.world.store.maxPendingFutures ∧
    w.world.store.completedOrder.live.length < w.world.store.maxCompletedFutures

end OwnedWorld

inductive OwnedStep : OwnedWorld Id Key Owner Result → OwnerEvent Id Key Owner Result →
    OwnedWorld Id Key Owner Result → Prop
  | register {w world registration answer} : FutureStep w.world (.register registration answer) world →
      OwnedStep w (.register registration answer)
        { w with world, owners := w.ownersAfter registration.owner answer }
  | finish {w world id result owner} : FutureStep w.world (.finish id result) world →
      w.owners.lookup id = some owner → OwnedStep w (.finish owner id result) { w with world }
  | snapshot {w world id owner} : FutureStep w.world (.snapshot id) world →
      w.owners.lookup id = some owner → OwnedStep w (.snapshot owner id) { w with world }
  | yield {w world id subscriber outcome owner stream} :
      FutureStep w.world (.yield id subscriber outcome) world →
      w.owners.lookup id = some owner → w.streamName subscriber = some stream →
      OwnedStep w (.yield owner id stream outcome) { w with world }
  | settle {w world id owner} : FutureStep w.world (.settle id) world →
      w.owners.lookup id = some owner → OwnedStep w (.settle owner id) { w with world }
  | cancel {w world id owner answer} : FutureStep w.world (.cancel id owner answer) world →
      OwnedStep w (.cancel owner id answer) { w with world }
  | subscribe {w world ids owner immediate} :
      FutureStep w.world (.subscribe ids owner immediate) world →
      OwnedStep w (.subscribe owner ids immediate)
        { w with world, streams := w.streamsAfter owner (w.world.store.subscribe ids owner).2.1 }
  | terminate {w world subscriber owner stream} : FutureStep w.world (.terminate subscriber) world →
      w.streamName subscriber = some (owner, stream) →
      OwnedStep w (.terminate owner stream) { w with world }

/-- A task works for the owner, and yields to streams of the owner. -/
def TaskState.OwnedBy (streams : List Owner) (owner : Owner) : TaskState Owner Result → Prop
  | executing owner' _ => owner' = owner
  | notifying owner' _ => owner' = owner
  | yielding _ waiting deliveries =>
    (∀ number ∈ waiting, streams[number]? = some owner) ∧
      ∀ delivery ∈ deliveries, streams[delivery.1]? = some owner

structure OwnedWorld.Sound (uses : Owner → Key → Prop) (w : OwnedWorld Id Key Owner Result) : Prop where
  sound : w.world.Sound
  issued : ∀ id owner, w.owners.lookup id = some owner → id ∈ w.world.issued
  futureOwner : ∀ id entry, w.world.store.futures.lookup id = some entry →
    w.owners.lookup id = some entry.owner
  keyOwner : ∀ id key, w.world.store.reverseIdempotency.lookup id = some key →
    ∃ entry, w.world.store.futures.lookup id = some entry ∧ uses entry.owner key
  streams : w.streams.length = w.world.store.nextSubscriberId
  subscriberOwner : ∀ number subscriber, w.world.store.subscribers.lookup number = some subscriber →
    w.streams[number]? = some subscriber.owner
  tasks : ∀ id task, w.world.tasks.lookup id = some task →
    ∃ owner, w.owners.lookup id = some owner ∧ task.OwnedBy w.streams owner

/-- The keys that a step registers are counted as used. -/
def OwnerEvent.Uses (uses : Owner → Key → Prop) : OwnerEvent Id Key Owner Result → Prop
  | .register registration _ => ∀ key, registration.idempotencyKey = some key →
      uses registration.owner key
  | _ => True

variable {w w' : OwnedWorld Id Key Owner Result} {event : OwnerEvent Id Key Owner Result}
  {uses : Owner → Key → Prop} {id : Id} {owner : Owner} {result : Result}

namespace FutureStore

variable {store store' : FutureStore Id Key Owner Result}

variable (store) in
def KeysLive : Prop :=
  ∀ id key, store.reverseIdempotency.lookup id = some key → ∃ entry, store.futures.lookup id = some entry

theorem keysLive_forget (h : store.KeysLive) (id : Id) : (store.forget id).KeysLive := by
  intro id' key hkey
  rw [lookup_reverse_forget] at hkey
  rw [lookup_forget]
  split at hkey
  · cases hkey
  · rw [if_neg ‹_›]
    exact h id' key hkey

theorem keysLive_evictLoop {limit fuel evicted evicted' : Nat} (h : store.KeysLive)
    (hloop : evictLoop limit fuel evicted store = some (evicted', store')) : store'.KeysLive := by
  induction fuel generalizing evicted store with
  | zero =>
    obtain ⟨-, rfl⟩ := Prod.mk.inj (Option.some.inj hloop)
    exact h
  | succ fuel ih =>
    unfold evictLoop at hloop
    split at hloop
    · split at hloop
      · cases hloop
      · exact ih (keysLive_forget h _) hloop
    · obtain ⟨-, rfl⟩ := Prod.mk.inj (Option.some.inj hloop)
      exact h

theorem keysLive_evict (h : store.KeysLive) (hevict : store.evict = some store') : store'.KeysLive := by
  unfold evict at hevict
  split at hevict
  · obtain rfl := Option.some.inj hevict
    exact h
  · split at hevict
    · cases hevict
    · split at hevict
      · cases hevict
      · rename_i evicted store'' hloop
        obtain rfl := Option.some.inj hevict
        have hkept : store''.KeysLive := keysLive_evictLoop h hloop
        exact hkept

theorem keysLive_complete {answer : Option Owner} (h : store.KeysLive)
    (hcomplete : store.complete id result = some (answer, store')) : store'.KeysLive := by
  unfold complete at hcomplete
  split at hcomplete
  · obtain ⟨-, rfl⟩ := Prod.mk.inj (Option.some.inj hcomplete)
    exact h
  · rename_i entry hentry
    split at hcomplete
    · obtain ⟨-, rfl⟩ := Prod.mk.inj (Option.some.inj hcomplete)
      exact h
    · unfold decrement at hcomplete
      split at hcomplete
      · cases hcomplete
      · rw [Option.bind_some, Option.map_eq_some_iff] at hcomplete
        obtain ⟨evicted, hevict, hpair⟩ := hcomplete
        obtain ⟨-, rfl⟩ := Prod.mk.inj hpair
        refine keysLive_evict (fun id' key hkey => ?_) hevict
        change ∃ e, (store.futures.set id _).lookup id' = some e
        rw [OrderedMap.lookup_set]
        split
        · exact ⟨_, rfl⟩
        · exact h id' key hkey

variable (store) in
theorem lookup_reverse_start (registration : FutureRegistration Key Owner) (id id' : Id) :
    (store.start registration id).reverseIdempotency.lookup id' =
      if id' = id ∧ registration.idempotencyKey.isSome then registration.idempotencyKey
      else store.reverseIdempotency.lookup id' := by
  unfold start
  cases hkey : registration.idempotencyKey with
  | none => exact (if_neg fun h => Bool.false_ne_true h.2).symm
  | some key =>
    refine (OrderedMap.lookup_set store.reverseIdempotency id key id').trans ?_
    by_cases hid : id' = id
    · rw [if_pos hid, if_pos ⟨hid, rfl⟩]
    · rw [if_neg hid, if_neg fun h => hid h.1]

variable (store) in
theorem start_frame (registration : FutureRegistration Key Owner) (id : Id) :
    (store.start registration id).nextSubscriberId = store.nextSubscriberId ∧
      (store.start registration id).subscribers = store.subscribers ∧
      (store.start registration id).completedOrder = store.completedOrder ∧
      (store.start registration id).nextCompletionSequence = store.nextCompletionSequence ∧
      (store.start registration id).maxPendingFutures = store.maxPendingFutures ∧
      (store.start registration id).maxCompletedFutures = store.maxCompletedFutures := by
  unfold start
  cases registration.idempotencyKey <;> exact ⟨rfl, rfl, rfl, rfl, rfl, rfl⟩

theorem owner_settle {number : Nat} {subscriber : Subscriber Id Owner}
    (deliveries : List (Nat × YieldResult))
    (h : (store.settle id deliveries).subscribers.lookup number = some subscriber) :
    ∃ before, store.subscribers.lookup number = some before ∧ before.owner = subscriber.owner := by
  unfold settle at h
  induction deliveries generalizing store with
  | nil => exact ⟨subscriber, h, rfl⟩
  | cons delivery rest ih =>
    obtain ⟨next, hnext, howner⟩ := ih h
    rw [← howner]
    unfold settleOne at hnext
    have hdeleted (hlookup : (store.subscribers.delete delivery.1).lookup number = some next) :
        ∃ before, store.subscribers.lookup number = some before ∧ before.owner = next.owner := by
      rw [OrderedMap.lookup_delete] at hlookup
      split at hlookup
      · cases hlookup
      · exact ⟨next, hlookup, rfl⟩
    split at hnext
    · exact ⟨next, hnext, rfl⟩
    · rename_i before hbefore
      split at hnext
      · dsimp only at hnext
        split at hnext
        · exact hdeleted hnext
        · dsimp only at hnext
          rw [OrderedMap.lookup_set] at hnext
          split at hnext
          · rename_i hsame
            obtain rfl := Option.some.inj hnext
            exact ⟨before, hsame ▸ hbefore, rfl⟩
          · exact ⟨next, hnext, rfl⟩
      · exact hdeleted hnext
      · exact hdeleted hnext

theorem owner_matching {number : Nat} (h : number ∈ store.matching id owner) :
    ∃ subscriber, store.subscribers.lookup number = some subscriber ∧ subscriber.owner = owner := by
  obtain ⟨⟨_, subscriber⟩, hmem, rfl⟩ := List.mem_map.mp h
  obtain ⟨hpair, haccepts⟩ := List.mem_filter.mp hmem
  refine ⟨subscriber, OrderedMap.mem_pairs.mp hpair, ?_⟩
  by_contra hother
  have hrefused : subscriber.accepts id owner (store.sequenceOf id) = false := if_neg hother
  exact Bool.false_ne_true (hrefused.symm.trans haccepts)

end FutureStore

/-! ## What the owners share -/

theorem ownedSound_init (maxPendingFutures maxCompletedFutures : Nat) :
    (OwnedWorld.init maxPendingFutures maxCompletedFutures : OwnedWorld Id Key Owner Result).Sound
      uses where
  sound := sound_init maxPendingFutures maxCompletedFutures
  issued _ _ h := nomatch h
  futureOwner _ _ h := nomatch h
  keyOwner _ _ h := nomatch h
  streams := rfl
  subscriberOwner _ _ h := nomatch h
  tasks _ _ h := nomatch h

theorem OwnedWorld.Sound.advance (h : w.Sound uses) {world : FutureWorld Id Key Owner Result}
    (hsound : world.Sound) (hissued : world.issued = w.world.issued)
    (htasks : ∀ id task, world.tasks.lookup id = some task →
      ∃ owner, w.owners.lookup id = some owner ∧ task.OwnedBy w.streams owner)
    (hfutures : ∀ id entry, world.store.futures.lookup id = some entry →
      ∃ before, w.world.store.futures.lookup id = some before ∧ before.owner = entry.owner)
    (hkeys : ∀ id key, world.store.reverseIdempotency.lookup id = some key →
      w.world.store.reverseIdempotency.lookup id = some key)
    (hlive : world.store.KeysLive)
    (hnext : world.store.nextSubscriberId = w.world.store.nextSubscriberId)
    (hsubscribers : ∀ number subscriber, world.store.subscribers.lookup number = some subscriber →
      ∃ before, w.world.store.subscribers.lookup number = some before ∧
        before.owner = subscriber.owner) :
    OwnedWorld.Sound uses { w with world } where
  sound := hsound
  issued id owner hid := hissued ▸ h.issued id owner hid
  futureOwner id entry hentry := by
    obtain ⟨before, hbefore, howner⟩ := hfutures id entry hentry
    rw [← howner]
    exact h.futureOwner id before hbefore
  keyOwner id key hkey := by
    obtain ⟨before, hbefore, huses⟩ := h.keyOwner id key (hkeys id key hkey)
    obtain ⟨entry, hentry⟩ := hlive id key hkey
    obtain ⟨before', hbefore', howner⟩ := hfutures id entry hentry
    obtain rfl := Option.some.inj (hbefore.symm.trans hbefore')
    exact ⟨entry, hentry, howner ▸ huses⟩
  streams := h.streams.trans hnext.symm
  subscriberOwner number subscriber hlookup := by
    obtain ⟨before, hbefore, howner⟩ := hsubscribers number subscriber hlookup
    rw [← howner]
    exact h.subscriberOwner number before hbefore
  tasks := htasks

theorem OwnedWorld.Sound.keysLive (h : w.Sound uses) : w.world.store.KeysLive := fun id key hkey =>
  let ⟨entry, hentry, _⟩ := h.keyOwner id key hkey
  ⟨entry, hentry⟩

theorem OwnedWorld.Sound.tasks_set (h : w.Sound uses) {task' : TaskState Owner Result}
    (howner : w.owners.lookup id = some owner) (htask' : task'.OwnedBy w.streams owner) :
    ∀ id' task, (w.world.tasks.set id task').lookup id' = some task →
      ∃ owner, w.owners.lookup id' = some owner ∧ task.OwnedBy w.streams owner := by
  intro id' task htask
  rw [OrderedMap.lookup_set] at htask
  split at htask
  · rename_i hsame
    obtain rfl := Option.some.inj htask
    exact ⟨owner, hsame ▸ howner, htask'⟩
  · exact h.tasks id' task htask

theorem OwnedWorld.Sound.tasks_delete (h : w.Sound uses) (id : Id) :
    ∀ id' task, (w.world.tasks.delete id).lookup id' = some task →
      ∃ owner, w.owners.lookup id' = some owner ∧ task.OwnedBy w.streams owner := by
  intro id' task htask
  rw [OrderedMap.lookup_delete] at htask
  split at htask
  · cases htask
  · exact h.tasks id' task htask

theorem OwnedWorld.Sound.forgotten (h : w.Sound uses) {world : FutureWorld Id Key Owner Result} {n : Nat}
    (hsound : world.Sound)
    (hworld : world = { world with
      store := { w.world.store with pendingCount := n }.forget id, issued := w.world.issued })
    (htasks : ∀ id task, world.tasks.lookup id = some task →
      ∃ owner, w.owners.lookup id = some owner ∧ task.OwnedBy w.streams owner) :
    OwnedWorld.Sound uses { w with world } := by
  have hcounted : FutureStore.KeysLive { w.world.store with pendingCount := n } := h.keysLive
  have hlive := FutureStore.keysLive_forget hcounted id
  obtain ⟨r, i, hframe⟩ := FutureStore.forget_eq { w.world.store with pendingCount := n } id
  rw [hworld] at hsound ⊢
  refine h.advance hsound rfl htasks (fun id' entry he => ?_) (fun id' key hkey => ?_) hlive ?_ ?_
  · rw [FutureStore.lookup_forget] at he
    split at he
    · cases he
    · exact ⟨entry, he, rfl⟩
  · rw [FutureStore.lookup_reverse_forget] at hkey
    split at hkey
    · cases hkey
    · exact hkey
  · rw [hframe]
  · rw [hframe]
    exact fun _ subscriber hs => ⟨subscriber, hs, rfl⟩

theorem OwnedWorld.Sound.task (h : w.Sound uses) {task : TaskState Owner Result}
    (htask : w.world.tasks.lookup id = some task) (howner : w.owners.lookup id = some owner) :
    task.OwnedBy w.streams owner := by
  obtain ⟨owner', howner', howned⟩ := h.tasks id task htask
  obtain rfl := Option.some.inj (howner.symm.trans howner')
  exact howned

theorem ownedSound_registered (h : w.Sound uses) (registration : FutureRegistration Key Owner)
    (hfresh : id ∉ w.world.issued)
    (huses : ∀ key, registration.idempotencyKey = some key → uses registration.owner key) :
    OwnedWorld.Sound uses
      { w with
        world := w.world.registered registration id
        owners := w.ownersAfter registration.owner (w.world.store.register registration id).1 } := by
  have hsound := sound_registered h.sound registration hfresh
  unfold FutureWorld.registered at hsound ⊢
  rcases w.world.store.register_cases registration id with (⟨error, hcall⟩ | ⟨known, hcall⟩) | ⟨-, -, hcall⟩
  · rw [hcall]
    exact h
  · rw [hcall]
    exact h
  · rw [hcall] at hsound ⊢
    have howners (id' : Id) : (w.owners.set id registration.owner).lookup id' =
        if id' = id then some registration.owner else w.owners.lookup id' := OrderedMap.lookup_set ..
    have hold {id' : Id} {owner : Owner} (hid : w.owners.lookup id' = some owner) :
        (w.owners.set id registration.owner).lookup id' = some owner := by
      rw [howners, if_neg, hid]
      rintro rfl
      exact hfresh (h.issued _ _ hid)
    refine ⟨hsound, fun id' owner hid => ?_, fun id' entry hentry => ?_, fun id' key hkey => ?_, ?_,
      fun number subscriber hlookup => ?_, fun id' task htask => ?_⟩
    · change (w.owners.set id registration.owner).lookup id' = some owner at hid
      rw [howners] at hid
      split at hid
      · rename_i hsame
        rw [hsame]
        exact List.mem_cons_self ..
      · exact List.mem_cons_of_mem _ (h.issued id' owner hid)
    · change (w.owners.set id registration.owner).lookup id' = some entry.owner
      rw [FutureStore.lookup_start] at hentry
      split at hentry
      · rename_i hsame
        obtain rfl := Option.some.inj hentry
        rw [howners, if_pos hsame]
      · exact hold (h.futureOwner id' entry hentry)
    · rw [FutureStore.lookup_start]
      rw [FutureStore.lookup_reverse_start] at hkey
      by_cases hsame : id' = id
      · rw [if_pos hsame]
        refine ⟨_, rfl, huses key ?_⟩
        cases hregistered : registration.idempotencyKey with
        | some key' => rwa [hregistered, if_pos ⟨hsame, rfl⟩] at hkey
        | none =>
          rw [hregistered, if_neg fun hboth => Bool.false_ne_true hboth.2] at hkey
          exact absurd (h.sound.keyIssued id' key hkey) (hsame ▸ hfresh)
      · rw [if_neg fun hboth => hsame hboth.1] at hkey
        rw [if_neg hsame]
        exact h.keyOwner id' key hkey
    · exact h.streams.trans (FutureStore.start_frame w.world.store registration id).1.symm
    · refine h.subscriberOwner number subscriber ?_
      rwa [(FutureStore.start_frame w.world.store registration id).2.1] at hlookup
    · change (w.world.tasks.set id _).lookup id' = some task at htask
      change ∃ owner, (w.owners.set id registration.owner).lookup id' = some owner ∧
        task.OwnedBy w.streams owner
      rw [OrderedMap.lookup_set] at htask
      rw [howners]
      by_cases hsame : id' = id
      · rw [if_pos hsame] at htask
        obtain rfl := Option.some.inj htask
        exact ⟨_, if_pos hsame, rfl⟩
      · rw [if_neg hsame] at htask
        rw [if_neg hsame]
        exact h.tasks id' task htask

theorem ownedSound_finished (h : w.Sound uses) {discard : Bool} {world : FutureWorld Id Key Owner Result}
    (htask : w.world.tasks.lookup id = some (.executing owner discard))
    (hfinish : w.world.finished id owner discard result = some world) :
    OwnedWorld.Sound uses { w with world } := by
  have hsound := sound_finished h.sound htask hfinish
  obtain ⟨owner', howner, howned⟩ := h.tasks id _ htask
  obtain rfl : owner = owner' := howned
  have hnotifying : (TaskState.notifying owner result).OwnedBy w.streams owner := rfl
  have hnotify := h.tasks_set howner hnotifying
  unfold FutureWorld.finished at hfinish
  cases discard with
  | true =>
    rw [if_pos rfl, Option.map_eq_some_iff] at hfinish
    obtain ⟨store, hremove, rfl⟩ := hfinish
    rcases FutureStore.removePending_cases hremove with ⟨entry, -, -, -, rfl⟩ | ⟨rfl, -⟩
    · exact h.forgotten hsound rfl hnotify
    · exact h.advance hsound rfl hnotify (fun _ entry he => ⟨entry, he, rfl⟩) (fun _ _ hk => hk) h.keysLive
        rfl fun _ subscriber hs => ⟨subscriber, hs, rfl⟩
  | false =>
    rw [if_neg Bool.false_ne_true, Option.map_eq_some_iff] at hfinish
    obtain ⟨⟨answer, store⟩, hcomplete, hworld⟩ := hfinish
    have hlive := FutureStore.keysLive_complete h.keysLive hcomplete
    rcases FutureStore.complete_cases hcomplete with ⟨entry, hentry, -, rfl, -, hevicted⟩ | ⟨rfl, rfl, -⟩
    · dsimp only at hworld
      obtain rfl := hworld
      obtain rfl := Option.some.inj (howner.symm.trans (h.futureOwner id entry hentry))
      obtain ⟨f, i, r, o, hframe⟩ := hevicted.frame
      refine h.advance hsound rfl hnotify (fun id' e he => ?_) (fun id' key hkey => ?_) hlive ?_ ?_
      · have hbefore := hevicted.futures id' e he
        change (w.world.store.futures.set id _).lookup id' = some e at hbefore
        rw [OrderedMap.lookup_set] at hbefore
        split at hbefore
        · rename_i hsame
          obtain rfl := Option.some.inj hbefore
          exact ⟨entry, hsame ▸ hentry, rfl⟩
        · exact ⟨e, hbefore, rfl⟩
      · exact hevicted.reverse id' key hkey
      · rw [hframe]
        rfl
      · rw [hframe]
        exact fun _ subscriber hs => ⟨subscriber, hs, rfl⟩
    · dsimp only at hworld
      obtain rfl := hworld
      exact h.advance hsound rfl (h.tasks_delete id) (fun _ entry he => ⟨entry, he, rfl⟩)
        (fun _ _ hk => hk) h.keysLive rfl fun _ subscriber hs => ⟨subscriber, hs, rfl⟩

theorem subscribe_shape (store : FutureStore Id Key Owner Result) (ids : Option (List Id)) (owner : Owner) :
    (store.subscribe ids owner).2 = (none, store) ∨
      ∃ subscriber : Subscriber Id Owner, subscriber.owner = owner ∧
        (store.subscribe ids owner).2 = (some store.nextSubscriberId,
          { store with
            nextSubscriberId := store.nextSubscriberId + 1
            subscribers := store.subscribers.set store.nextSubscriberId subscriber }) := by
  unfold FutureStore.subscribe
  split
  · exact .inr ⟨_, rfl, rfl⟩
  · dsimp only
    split
    · exact .inl rfl
    · exact .inr ⟨_, rfl, rfl⟩

theorem ownedSound_subscribed (h : w.Sound uses) (ids : Option (List Id)) (owner : Owner)
    (hsound : (w.world.subscribed ids owner).Sound) :
    OwnedWorld.Sound uses
      { w with
        world := w.world.subscribed ids owner
        streams := w.streamsAfter owner (w.world.store.subscribe ids owner).2.1 } := by
  have hlast : (w.streams ++ [owner])[w.world.store.nextSubscriberId]? = some owner := by
    rw [← h.streams, List.getElem?_append_right (Nat.le_refl _), Nat.sub_self, List.getElem?_cons_zero]
  have hgrow {number : Nat} {o : Owner} (hstream : w.streams[number]? = some o) :
      (w.streams ++ [owner])[number]? = some o := by
    rw [List.getElem?_append_left (List.getElem?_eq_some_iff.mp hstream).1]
    exact hstream
  have hshape := subscribe_shape w.world.store ids owner
  unfold FutureWorld.subscribed at hsound ⊢
  generalize w.world.store.subscribe ids owner = answer at hshape hsound ⊢
  obtain ⟨immediate, number, store⟩ := answer
  dsimp only at hshape hsound ⊢
  rcases hshape with hcall | ⟨subscriber, howner, hcall⟩
  · obtain ⟨rfl, rfl⟩ := Prod.mk.inj hcall
    exact ⟨hsound, h.issued, h.futureOwner, h.keyOwner, h.streams, h.subscriberOwner, h.tasks⟩
  · obtain ⟨rfl, rfl⟩ := Prod.mk.inj hcall
    refine ⟨hsound, h.issued, h.futureOwner, h.keyOwner, ?_, fun number s hs => ?_, fun id task htask => ?_⟩
    · show (w.streams ++ [owner]).length = w.world.store.nextSubscriberId + 1
      rw [List.length_append, h.streams, List.length_singleton]
    · change (w.world.store.subscribers.set w.world.store.nextSubscriberId subscriber).lookup number =
        some s at hs
      show (w.streams ++ [owner])[number]? = some s.owner
      rw [OrderedMap.lookup_set] at hs
      split at hs
      · rename_i hsame
        obtain rfl := Option.some.inj hs
        rw [hsame, howner, hlast]
      · exact hgrow (h.subscriberOwner number s hs)
    · obtain ⟨owner', howner', howned⟩ := h.tasks id task htask
      refine ⟨owner', howner', ?_⟩
      show task.OwnedBy (w.streams ++ [owner]) owner'
      cases task with
      | executing _ _ => exact howned
      | notifying _ _ => exact howned
      | yielding _ waiting deliveries =>
        exact ⟨fun number hmem => hgrow (howned.1 number hmem), fun d hd => hgrow (howned.2 d hd)⟩

theorem ownedSound_step (h : w.Sound uses) (hstep : OwnedStep w event w') (huses : event.Uses uses) :
    w'.Sound uses := by
  have hsame (id : Id) (entry : FutureEntry Owner Result)
      (he : w.world.store.futures.lookup id = some entry) :
      ∃ before, w.world.store.futures.lookup id = some before ∧ before.owner = entry.owner :=
    ⟨entry, he, rfl⟩
  have hothers (number : Nat) (subscriber : Subscriber Id Owner)
      (hs : w.world.store.subscribers.lookup number = some subscriber) :
      ∃ before, w.world.store.subscribers.lookup number = some before ∧
        before.owner = subscriber.owner := ⟨subscriber, hs, rfl⟩
  cases hstep with
  | register hstep =>
    cases hstep with
    | register _ id hfresh => exact ownedSound_registered h _ hfresh huses
  | finish hstep _ =>
    cases hstep with
    | finish id result htask hfinish => exact ownedSound_finished h htask hfinish
  | @snapshot world id owner hstep howner =>
    have hsound := sound_step h.sound hstep
    cases hstep with
    | @snapshot owner' result _ htask =>
      obtain rfl : owner' = owner := h.task htask howner
      refine h.advance hsound rfl (h.tasks_set howner ⟨fun number hmem => ?_, fun _ hd => nomatch hd⟩) hsame
        (fun _ _ hk => hk) h.keysLive rfl hothers
      obtain ⟨subscriber, hlookup, hsubscriber⟩ := FutureStore.owner_matching hmem
      exact hsubscriber ▸ h.subscriberOwner number subscriber hlookup
  | @yield world id number outcome owner stream hstep howner hname =>
    have hsound := sound_step h.sound hstep
    cases hstep with
    | @yield result waiting deliveries _ _ _ htask =>
      obtain ⟨hwaiting, hdeliveries⟩ := h.task htask howner
      refine h.advance hsound rfl (h.tasks_set howner ⟨?_, fun d hd => ?_⟩) hsame (fun _ _ hk => hk)
        h.keysLive rfl hothers
      · exact fun n hn => hwaiting n (List.mem_cons_of_mem _ hn)
      · rcases List.mem_append.mp hd with hold | hnew
        · exact hdeliveries d hold
        · obtain rfl := List.mem_singleton.mp hnew
          exact hwaiting number (List.mem_cons_self ..)
  | @settle world id owner hstep howner =>
    have hsound := sound_step h.sound hstep
    cases hstep with
    | @settle result deliveries _ htask =>
      obtain ⟨subscribers, hsettle⟩ := w.world.store.settle_eq id deliveries
      have hleft (number : Nat) (subscriber : Subscriber Id Owner)
          (hs : subscribers.lookup number = some subscriber) :
          ∃ before, w.world.store.subscribers.lookup number = some before ∧
            before.owner = subscriber.owner := by
        have hs' : (w.world.store.settle id deliveries).subscribers.lookup number = some subscriber := by
          rwa [hsettle]
        exact FutureStore.owner_settle deliveries hs'
      rw [hsettle] at hsound ⊢
      exact h.advance hsound rfl (h.tasks_delete id) hsame (fun _ _ hk => hk) h.keysLive rfl hleft
  | @cancel world id owner answer hstep =>
    have hsound := sound_step h.sound hstep
    cases hstep with
    | cancel _ _ hcancel =>
      rcases FutureStore.cancel_cases hcancel with ⟨-, entry, -, -, -, -, rfl⟩ | ⟨-, rfl⟩
      · exact h.forgotten hsound rfl h.tasks
      · exact h
  | @subscribe world ids owner immediate hstep =>
    have hsound := sound_step h.sound hstep
    cases hstep with
    | subscribe _ _ => exact ownedSound_subscribed h ids owner hsound
  | @terminate world number owner stream hstep hname =>
    have hsound := sound_step h.sound hstep
    cases hstep with
    | terminate _ =>
      refine h.advance hsound rfl h.tasks hsame (fun _ _ hk => hk) h.keysLive rfl fun n s hs => ?_
      change (w.world.store.subscribers.delete number).lookup n = some s at hs
      rw [OrderedMap.lookup_delete] at hs
      split at hs
      · cases hs
      · exact ⟨s, hs, rfl⟩

theorem ownedStep_delivers (h : w.Sound uses) (hstep : OwnedStep w event w')
    (hdelivers : event.Delivers owner id) : w.owners.lookup id = some owner := by
  cases hstep with
  | @yield world id' number outcome owner' stream hstep howner hname =>
    obtain ⟨streamOwner, streamNumber⟩ := stream
    obtain ⟨rfl, rfl⟩ := hdelivers
    cases hstep with
    | yield _ _ _ htask =>
      have hstream := (h.task htask howner).1 number (List.mem_cons_self ..)
      have hnamed := (streamName_eq_some hname).1
      rw [howner, Option.some.inj (hstream.symm.trans hnamed)]
  | @subscribe world ids owner' immediate hstep =>
    obtain ⟨rfl, hmem⟩ := hdelivers
    cases hstep with
    | subscribe _ _ =>
      obtain ⟨⟨_, result⟩, hfound, rfl⟩ := List.mem_map.mp hmem
      obtain ⟨entry, _, hentry, -, hentryOwner⟩ :=
        FutureStore.resultFor_eq_some (FutureStore.mem_immediate hfound)
      rw [h.futureOwner _ entry hentry, hentryOwner]
  | register _ => cases hdelivers
  | finish _ _ => cases hdelivers
  | snapshot _ _ => cases hdelivers
  | settle _ _ => cases hdelivers
  | cancel _ => cases hdelivers
  | terminate _ _ => cases hdelivers

theorem ownedStep_owners (h : w.Sound uses) (hstep : OwnedStep w event w')
    (howner : w.owners.lookup id = some owner) : w'.owners.lookup id = some owner := by
  cases hstep with
  | @register world registration answer hstep =>
    cases hstep with
    | register _ fresh hfresh =>
      show (w.ownersAfter registration.owner (w.world.store.register registration fresh).1).lookup id = _
      rcases w.world.store.register_cases registration fresh with
        (⟨error, hcall⟩ | ⟨known, hcall⟩) | ⟨-, -, hcall⟩
      · rw [hcall]
        exact howner
      · rw [hcall]
        exact howner
      · rw [hcall]
        show (w.owners.set fresh registration.owner).lookup id = _
        rw [OrderedMap.lookup_set, if_neg, howner]
        rintro rfl
        exact hfresh (h.issued id owner howner)
  | _ => exact howner

theorem register_denied (h : w.Sound uses) {registration : FutureRegistration Key Owner}
    {entry : FutureEntry Owner Result} {key : Key} (hkey : registration.idempotencyKey = some key)
    (hentry : w.world.store.futures.lookup id = some entry)
    (hlive : w.world.store.reverseIdempotency.lookup id = some key)
    (hother : entry.owner ≠ registration.owner) (fresh : Id) :
    w.world.store.register registration fresh = (.error ⟨.permissionDenied, ""⟩, w.world.store) := by
  have hknown := (h.sound.keys key id).mpr hlive
  rw [FutureStore.register, hkey, Option.bind_some, hknown]
  refine if_neg ?_
  rw [hentry, Option.map_some]
  exact fun heq => hother (Option.some.inj heq)

def UsesKey (events : List (OwnerEvent Id Key Owner Result)) (owner : Owner) (key : Key) : Prop :=
  ∃ registration answer, .register registration answer ∈ events ∧ registration.owner = owner ∧
    registration.idempotencyKey = some key

def KeysApart (events : List (OwnerEvent Id Key Owner Result)) : Prop :=
  ∀ owner owner' key, UsesKey events owner key → UsesKey events owner' key → owner = owner'

theorem uses_of_mem {events : List (OwnerEvent Id Key Owner Result)} (h : event ∈ events) :
    event.Uses (UsesKey events) := by
  cases event with
  | register registration answer => exact fun key hkey => ⟨registration, answer, h, rfl, hkey⟩
  | _ => exact trivial

theorem uses_run {maxPendingFutures maxCompletedFutures : Nat}
    {events : List (OwnerEvent Id Key Owner Result)}
    (hrun : Run OwnedStep (.init maxPendingFutures maxCompletedFutures) events w) :
    Run (Restrict OwnedStep fun _ event => event.Uses (UsesKey events))
      (.init maxPendingFutures maxCompletedFutures) events w :=
  hrun.restrict fun _ => uses_of_mem

theorem ownedSound_run {maxPendingFutures maxCompletedFutures : Nat}
    {events : List (OwnerEvent Id Key Owner Result)}
    (hrun : Run OwnedStep (.init maxPendingFutures maxCompletedFutures) events w) :
    w.Sound (UsesKey events) :=
  (uses_run hrun).invariant (fun _ _ _ hs hstep => ownedSound_step hs hstep.1 hstep.2)
    (ownedSound_init maxPendingFutures maxCompletedFutures)

theorem delivers_run {maxPendingFutures maxCompletedFutures : Nat}
    {events : List (OwnerEvent Id Key Owner Result)}
    (hrun : Run OwnedStep (.init maxPendingFutures maxCompletedFutures) events w)
    (hevent : event ∈ events) (hdelivers : event.Delivers owner id) :
    w.owners.lookup id = some owner := by
  have huses := uses_run hrun
  generalize UsesKey events = uses at huses
  obtain ⟨before, after, rfl⟩ := List.append_of_mem hevent
  obtain ⟨w₁, hbefore, hrest⟩ := huses.split
  have hsound := hbefore.invariant (I := fun w => w.Sound uses)
    (fun _ _ _ hs hstep => ownedSound_step hs hstep.1 hstep.2)
    (ownedSound_init maxPendingFutures maxCompletedFutures)
  cases hrest with
  | cons hone hafter =>
    -- The owner is known when the result is handed out, and stays.
    refine (hafter.invariant (I := fun w => w.Sound uses ∧ w.owners.lookup id = some owner)
      (fun _ _ _ hs hstep => ?_) ?_).2
    · exact ⟨ownedSound_step hs.1 hstep.1 hstep.2, ownedStep_owners hs.1 hstep.1 hs.2⟩
    · exact ⟨ownedSound_step hsound hone.1 hone.2,
        ownedStep_owners hsound hone.1 (ownedStep_delivers hsound hone.1 hdelivers)⟩

theorem FutureStore.register_congr (store : FutureStore Id Key Owner Result)
    (registration : FutureRegistration Key Owner) {id id' : Id}
    (h : freshId (store.register registration id).1 = freshId (store.register registration id').1) :
    store.register registration id = store.register registration id' := by
  unfold register at h ⊢
  cases hkey : registration.idempotencyKey.bind store.idempotencyIndex.lookup with
  | some known => rfl
  | none =>
    rw [hkey] at h
    dsimp only at h ⊢
    split at h
    · rw [if_pos ‹_›, if_pos ‹_›]
    · obtain rfl := Option.some.inj h
      rfl

theorem ownedStep_deterministic :
    Deterministic (@OwnedStep Id Key Owner Result _ _ _) OwnerEvent.call := by
  intro w e w₁ e' w₂ hstep hstep' hcall
  cases hstep with
  | @register world registration answer hone =>
    cases hstep' with
    | @register world' registration' answer' hone' =>
      obtain ⟨rfl, hfresh⟩ := OwnerCall.register.inj hcall
      cases hone with
      | register _ id _ =>
        cases hone' with
        | register _ id' _ =>
          have hsame := w.world.store.register_congr registration hfresh
          unfold FutureWorld.registered
          rw [hsame]
          exact ⟨rfl, rfl⟩
    | _ => cases hcall
  | finish hone howner =>
    cases hstep' with
    | finish hone' howner' =>
      cases hcall
      cases hone with
      | finish _ _ htask hfinish =>
        cases hone' with
        | finish _ _ htask' hfinish' =>
          cases htask.symm.trans htask'
          obtain rfl := Option.some.inj (hfinish.symm.trans hfinish')
          exact ⟨rfl, rfl⟩
    | _ => cases hcall
  | snapshot hone howner =>
    cases hstep' with
    | snapshot hone' howner' =>
      cases hcall
      cases hone with
      | snapshot _ htask =>
        cases hone' with
        | snapshot _ htask' =>
          cases htask.symm.trans htask'
          exact ⟨rfl, rfl⟩
    | _ => cases hcall
  | yield hone howner hname =>
    cases hstep' with
    | yield hone' howner' hname' =>
      cases hcall
      cases hone with
      | yield _ _ _ htask =>
        cases hone' with
        | yield _ _ _ htask' =>
          cases htask.symm.trans htask'
          obtain rfl := Option.some.inj (hname.symm.trans hname')
          exact ⟨rfl, rfl⟩
    | _ => cases hcall
  | settle hone howner =>
    cases hstep' with
    | settle hone' howner' =>
      cases hcall
      cases hone with
      | settle _ htask =>
        cases hone' with
        | settle _ htask' =>
          cases htask.symm.trans htask'
          exact ⟨rfl, rfl⟩
    | _ => cases hcall
  | cancel hone =>
    cases hstep' with
    | cancel hone' =>
      cases hcall
      cases hone with
      | cancel _ _ hcancel =>
        cases hone' with
        | cancel _ _ hcancel' =>
          cases hcancel.symm.trans hcancel'
          exact ⟨rfl, rfl⟩
    | _ => cases hcall
  | subscribe hone =>
    cases hstep' with
    | subscribe hone' =>
      cases hcall
      cases hone
      cases hone'
      exact ⟨rfl, rfl⟩
    | _ => cases hcall
  | terminate hone hname =>
    cases hstep' with
    | terminate hone' hname' =>
      cases hcall
      cases hone
      cases hone'
      obtain rfl := streamName_injective hname hname'
      exact ⟨rfl, rfl⟩
    | _ => cases hcall

end Bebop.Swift.Rpc
