import Bebop.Rpc.StreamNames
import Bebop.TypeScript.FutureIdempotency

/-!
# Bebop — owners in the TypeScript future storage

The steps of the storage with the name of the owner each belongs to, and what the owners
share (`ownedSound_step`). A result only goes to streams of its owner (`delivers_run`), and
another owner's key is refused (`register_denied`).
-/

set_option linter.unusedSectionVars false

namespace Bebop.TypeScript.Rpc

open Bebop.Rpc (RpcError streamNumber streamName_of_owner streamName_replicate streamNumber_lt_count
  streamNumber_injective streamNumber_append streamNumber_length count_append streamName_eq_some
  streamName_injective)
open Transition

variable {Id Key Owner Result : Type} [DecidableEq Id] [DecidableEq Key] [DecidableEq Owner]

/-- The owner of each stream, in their order, and of each identifier issued. -/
structure OwnedWorld (Id Key Owner Result : Type) where
  world : FutureWorld Id Key Owner Result
  streams : List Owner
  owners : OrderedMap Id Owner

inductive OwnerEvent (Id Key Owner Result : Type) where
  | register (registration : FutureRegistration Key Owner)
      (answer : Except RpcError (Registered Id))
  | start (owner : Owner) (id : Id)
  | complete (owner : Owner) (id : Id) (result : Result) (streams : List (Owner × Nat))
  | cancel (owner : Owner) (id : Id) (answer : Except RpcError Bool)
  | subscribe (owner : Owner) (ids : Option (List Id)) (immediate : List (Id × Result))
  | unsubscribe (owner : Owner) (stream : Nat)
  | pull (owner : Owner) (stream : Nat)

def OwnerEvent.owner : OwnerEvent Id Key Owner Result → Owner
  | register registration _ => registration.owner
  | start owner _ => owner
  | complete owner _ _ _ => owner
  | cancel owner _ _ => owner
  | subscribe owner _ _ => owner
  | unsubscribe owner _ => owner
  | pull owner _ => owner

/-- A call, and the identifier of a new future. -/
inductive OwnerCall (Id Key Owner Result : Type) where
  | register (registration : FutureRegistration Key Owner) (fresh : Option Id)
  | start (owner : Owner) (id : Id)
  | complete (owner : Owner) (id : Id) (result : Result)
  | cancel (owner : Owner) (id : Id)
  | subscribe (owner : Owner) (ids : Option (List Id))
  | unsubscribe (owner : Owner) (stream : Nat)
  | pull (owner : Owner) (stream : Nat)

def freshId : Except RpcError (Registered Id) → Option Id
  | .ok (.scheduled id) => some id
  | _ => none

def OwnerEvent.call : OwnerEvent Id Key Owner Result → OwnerCall Id Key Owner Result
  | register registration answer => .register registration (freshId answer)
  | start owner id => .start owner id
  | complete owner id result _ => .complete owner id result
  | cancel owner id _ => .cancel owner id
  | subscribe owner ids _ => .subscribe owner ids
  | unsubscribe owner stream => .unsubscribe owner stream
  | pull owner stream => .pull owner stream

/-- A stream of the owner is handed the future's result. -/
def OwnerEvent.Delivers (owner : Owner) (id : Id) : OwnerEvent Id Key Owner Result → Prop
  | complete _ id' _ streams => id' = id ∧ owner ∈ streams.map Prod.fst
  | subscribe owner' _ immediate => owner' = owner ∧ id ∈ immediate.map Prod.fst
  | _ => False

namespace OwnedWorld

def init (maxPending maxCompleted : Limit) (subscriberBufferCapacity : Nat) :
    OwnedWorld Id Key Owner Result :=
  ⟨.init maxPending maxCompleted subscriberBufferCapacity, [], ∅⟩

/-- The owner of a stream, and the stream's number among theirs. -/
def streamName (w : OwnedWorld Id Key Owner Result) (ref : Nat) : Option (Owner × Nat) :=
  Bebop.Rpc.streamName w.streams ref

def ownersAfter (w : OwnedWorld Id Key Owner Result) (owner : Owner) :
    Except RpcError (Registered Id) → OrderedMap Id Owner
  | .ok (.scheduled id) => w.owners.set id owner
  | _ => w.owners

def BelowLimits (w : OwnedWorld Id Key Owner Result) : Prop :=
  ¬w.world.storage.maxPending.reachedBy w.world.storage.pendingCount ∧
    ¬w.world.storage.maxCompleted.reachedBy w.world.storage.completedOrder.live.length

end OwnedWorld

inductive OwnedStep : OwnedWorld Id Key Owner Result → OwnerEvent Id Key Owner Result →
    OwnedWorld Id Key Owner Result → Prop
  | register {w world registration answer} : FutureStep w.world (.register registration answer) world →
      OwnedStep w (.register registration answer)
        { w with world, owners := w.ownersAfter registration.owner answer }
  | start {w world id owner} : FutureStep w.world (.start id) world →
      w.owners.lookup id = some owner → OwnedStep w (.start owner id) { w with world }
  | complete {w world id result owner} (refs : List Nat) : FutureStep w.world (.complete id result) world →
      w.owners.lookup id = some owner → world.received = w.world.received ++ refs.map (·, id) →
      OwnedStep w (.complete owner id result (refs.filterMap w.streamName)) { w with world }
  | cancel {w world id owner answer} : FutureStep w.world (.cancel id owner answer) world →
      OwnedStep w (.cancel owner id answer) { w with world }
  | subscribe {w world ids owner immediate} :
      FutureStep w.world (.subscribe ids owner immediate) world →
      OwnedStep w (.subscribe owner ids immediate) { w with world, streams := w.streams ++ [owner] }
  | unsubscribe {w world ref owner stream} : FutureStep w.world (.unsubscribe ref) world →
      w.streamName ref = some (owner, stream) →
      OwnedStep w (.unsubscribe owner stream) { w with world }
  | pull {w world ref owner stream} : FutureStep w.world (.pull ref) world →
      w.streamName ref = some (owner, stream) → OwnedStep w (.pull owner stream) { w with world }

/-- An entry, a stream and its results have one owner, keys theirs. -/
structure OwnedWorld.Sound (maxPending maxCompleted : Limit) (uses : Owner → Key → Prop)
    (w : OwnedWorld Id Key Owner Result) : Prop where
  invariant : w.world.Invariant maxPending maxCompleted
  issued : ∀ id owner, w.owners.lookup id = some owner → id ∈ w.world.issued
  taskOwner : ∀ id task, w.world.tasks.lookup id = some task → ∃ owner, w.owners.lookup id = some owner
  entryOwner : ∀ id entry, w.world.storage.entries.lookup id = some entry →
    w.owners.lookup id = some entry.owner
  entryKey : ∀ id entry key, w.world.storage.entries.lookup id = some entry →
    entry.idempotencyKey = some key → uses entry.owner key
  streams : w.streams.length = w.world.storage.nextRef
  streamOwner : ∀ subscriber ∈ w.world.storage.subscribers,
    w.streams[subscriber.ref]? = some subscriber.owner
  received : ∀ ref id, (ref, id) ∈ w.world.received →
    ∃ owner, w.streams[ref]? = some owner ∧ w.owners.lookup id = some owner

variable {w w' v : OwnedWorld Id Key Owner Result} {event : OwnerEvent Id Key Owner Result}
  {maxPending maxCompleted : Limit} {uses : Owner → Key → Prop} {id : Id}

namespace InMemoryFutureStorage

variable {storage : InMemoryFutureStorage Id Key Owner Result}

variable (storage) in
theorem register_cases (registration : FutureRegistration Key Owner) (id : Id) :
    ((∃ answer, storage.register registration id = (answer, storage) ∧
      ∀ id', answer ≠ .ok (.scheduled id')) ∨
    (registration.idempotencyKey.bind storage.idempotency.lookup = none ∧
      storage.register registration id = (.ok (.scheduled id), storage.schedule registration id))) := by
  unfold register
  cases registration.idempotencyKey.bind storage.idempotency.lookup with
  | some known =>
    dsimp only
    split
    · exact .inl ⟨_, rfl, nofun⟩
    · exact .inl ⟨_, rfl, nofun⟩
  | none =>
    dsimp only
    split
    · exact .inl ⟨_, rfl, nofun⟩
    · exact .inr ⟨rfl, rfl⟩

variable (storage) in
theorem cancel_cases (id : Id) (owner : Owner) : (storage.cancel id owner).2 = storage ∨
      ∃ entry, storage.entries.lookup id = some entry ∧ entry.owner = owner ∧
        storage.cancel id owner = (.ok true,
          { storage.forget id entry.idempotencyKey with pendingCount := storage.pendingCount - 1 }) := by
  unfold cancel
  cases hentry : storage.entries.lookup id with
  | none => exact .inl rfl
  | some entry =>
    dsimp only
    split
    · exact .inl rfl
    · rename_i howner
      split
      · exact .inl rfl
      · exact .inr ⟨entry, rfl, not_not.mp howner, rfl⟩

variable (storage) in
/-- A completion below the limit, where nothing is evicted. -/
def settled (id : Id) (entry : FutureEntry Key Owner Result) (result : Result) (discard : Bool) :
    InMemoryFutureStorage Id Key Owner Result :=
  let delivered :=
    { storage.deliverAll entry.owner id result with pendingCount := storage.pendingCount - 1 }
  if discard then delivered.forget id entry.idempotencyKey
  else { delivered with
    entries := storage.entries.set id { entry with state := .completed result }
    completedOrder := storage.completedOrder.push id }

variable (storage) in
theorem capacity_settled (id : Id)
    (entry : FutureEntry Key Owner Result) (result : Result) (discard : Bool) :
    (storage.settled id entry result discard).subscriberBufferCapacity =
      storage.subscriberBufferCapacity := by
  cases discard <;> rfl

variable (storage) in
theorem nextRef_settled (id : Id)
    (entry : FutureEntry Key Owner Result) (result : Result) (discard : Bool) :
    (storage.settled id entry result discard).nextRef = storage.nextRef := by
  cases discard <;> rfl

variable (storage) in
theorem subscribers_settled (id : Id)
    (entry : FutureEntry Key Owner Result) (result : Result) (discard : Bool) :
    (storage.settled id entry result discard).subscribers =
      storage.subscribers.filterMap fun subscriber =>
        (deliver storage.subscriberBufferCapacity entry.owner id result subscriber).1 := by
  cases discard <;> rfl

theorem complete_below {entry : FutureEntry Key Owner Result}
    (hbelow : ¬storage.maxCompleted.reachedBy storage.completedOrder.live.length)
    (hentry : storage.entries.lookup id = some entry) (hpending : entry.isPending)
    (result : Result) (discard : Bool) :
    storage.complete id result discard =
      (storage.deliveredTo entry.owner id result, storage.settled id entry result discard) := by
  rw [complete_of_pending hentry hpending, settled]
  dsimp only
  cases discard with
  | true => rfl
  | false =>
    rw [if_neg nofun, if_neg nofun, keep, evictLoop_of_within]
    · rfl
    · dsimp only
      rw [DropQueue.live_push, List.length_append]
      exact exceededBy_succ hbelow

theorem complete_cases (hbelow : ¬storage.maxCompleted.reachedBy storage.completedOrder.live.length)
    (id : Id) (result : Result) (discard : Bool) :
    storage.complete id result discard = ([], storage) ∨
      ∃ entry, storage.entries.lookup id = some entry ∧ entry.isPending ∧
        storage.complete id result discard =
          (storage.deliveredTo entry.owner id result, storage.settled id entry result discard) := by
  cases hentry : storage.entries.lookup id with
  | none => exact .inl (complete_of_lookup_none hentry result discard)
  | some entry =>
    by_cases hpending : entry.isPending
    · exact .inr ⟨entry, rfl, hpending, complete_below hbelow hentry hpending result discard⟩
    · exact .inl (complete_of_completed hentry hpending result discard)

theorem evictLoop_frame (fuel : Nat) (storage : InMemoryFutureStorage Id Key Owner Result) :
    ∃ entries idempotency completedOrder,
      evictLoop fuel storage = { storage with entries, idempotency, completedOrder } ∧
        ∀ id entry, entries.lookup id = some entry → storage.entries.lookup id = some entry := by
  induction fuel generalizing storage with
  | zero => exact ⟨_, _, _, rfl, fun _ _ hentry => hentry⟩
  | succ fuel ih =>
    unfold evictLoop
    split
    · split
      · exact ⟨_, _, _, rfl, fun _ _ hentry => hentry⟩
      · rename_i evicted queue _
        obtain ⟨e, i, o, hframe, hsub⟩ := ih
          { storage.forget evicted ((storage.entries.lookup evicted).bind FutureEntry.idempotencyKey) with
            completedOrder := queue }
        refine ⟨e, i, o, hframe, fun id entry hentry => ?_⟩
        have hleft : (storage.entries.delete evicted).lookup id = some entry := hsub id entry hentry
        rw [OrderedMap.lookup_delete] at hleft
        split at hleft
        · cases hleft
        · exact hleft
    · exact ⟨_, _, _, rfl, fun _ _ hentry => hentry⟩

variable (storage) in
theorem complete_frame (id : Id) (result : Result) (discard : Bool) :
    storage.complete id result discard = ([], storage) ∨
      ∃ entry entries idempotency completedOrder, storage.entries.lookup id = some entry ∧
        storage.complete id result discard =
          (storage.deliveredTo entry.owner id result,
            { storage.deliverAll entry.owner id result with
              pendingCount := storage.pendingCount - 1, entries, idempotency, completedOrder }) ∧
        ∀ id' e, entries.lookup id' = some e → ∃ before, storage.entries.lookup id' = some before ∧
          before.owner = e.owner ∧ before.idempotencyKey = e.idempotencyKey := by
  cases hentry : storage.entries.lookup id with
  | none => exact .inl (complete_of_lookup_none hentry result discard)
  | some entry =>
    by_cases hpending : entry.isPending
    · rw [complete_of_pending hentry hpending]
      cases discard with
      | true =>
        refine .inr ⟨entry, storage.entries.delete id, deleteKey storage.idempotency entry.idempotencyKey,
          storage.completedOrder, rfl, rfl, fun id' e he => ⟨e, ?_, rfl, rfl⟩⟩
        rw [OrderedMap.lookup_delete] at he
        split at he
        · cases he
        · exact he
      | false =>
        let kept : InMemoryFutureStorage Id Key Owner Result :=
          { storage.deliverAll entry.owner id result with
            pendingCount := storage.pendingCount - 1
            entries := storage.entries.set id { entry with state := .completed result }
            completedOrder := storage.completedOrder.push id }
        obtain ⟨e, i, o, hframe, hsub⟩ := evictLoop_frame kept.completedOrder.length kept
        refine .inr ⟨entry, e, i, o, rfl, congrArg (Prod.mk _) hframe, fun id' e he => ?_⟩
        have hold : (storage.entries.set id _).lookup id' = some e := hsub id' e he
        rw [OrderedMap.lookup_set] at hold
        split at hold
        · rename_i hsame
          obtain rfl := Option.some.inj hold
          exact ⟨entry, hsame ▸ hentry, rfl, rfl⟩
        · exact ⟨e, hold, rfl, rfl⟩
    · exact .inl (complete_of_completed hentry hpending result discard)

theorem mem_deliveredTo {owner : Owner} {result : Result} {ref : Nat}
    (h : ref ∈ storage.deliveredTo owner id result) :
    ∃ subscriber ∈ storage.subscribers, subscriber.ref = ref ∧ subscriber.owner = owner := by
  obtain ⟨subscriber, hmem, rfl⟩ := List.mem_map.mp h
  obtain ⟨hmem, hdelivered⟩ := List.mem_filter.mp hmem
  refine ⟨subscriber, hmem, rfl, ?_⟩
  by_contra howner
  rw [deliver, if_pos (.inl howner)] at hdelivered
  cases hdelivered

theorem mem_deliverAll {owner : Owner} {result : Result} {subscriber : Subscriber Id Owner Result}
    (h : subscriber ∈ (storage.deliverAll owner id result).subscribers) :
    ∃ before ∈ storage.subscribers, before.ref = subscriber.ref ∧ before.owner = subscriber.owner := by
  obtain ⟨before, hmem, hleft⟩ := List.mem_filterMap.mp h
  refine ⟨before, hmem, ?_⟩
  unfold deliver at hleft
  split at hleft
  · obtain rfl := Option.some.inj hleft
    exact ⟨rfl, rfl⟩
  · split at hleft
    · cases hleft
    · dsimp only at hleft
      split at hleft
      · cases hleft
      · obtain rfl := Option.some.inj hleft
        exact ⟨rfl, rfl⟩

variable (storage) in
/-- The subscriber that `subscribe` adds, if it has to wait. -/
def waiting (ids : Option (List Id)) (owner : Owner) : List (Subscriber Id Owner Result) :=
  let remainingIds := (subscribeLoop owner storage.entries.pairs (requestedIds ids)).2
  if remainingIds = some ∅ then [] else [⟨storage.nextRef, owner, remainingIds, .empty⟩]

variable (storage) in
theorem subscribe_eq (ids : Option (List Id)) (owner : Owner) : storage.subscribe ids owner =
      ((subscribeLoop owner storage.entries.pairs (requestedIds ids)).1,
        { storage with
          nextRef := storage.nextRef + 1
          subscribers := storage.subscribers ++ storage.waiting ids owner }) := by
  unfold subscribe waiting
  dsimp only
  split
  · rw [List.append_nil]
  · rfl

theorem mem_subscribeLoop {owner : Owner} {result : Result}
    {pairs : List (Id × FutureEntry Key Owner Result)} {remainingIds : Option (Finset Id)}
    (h : (id, result) ∈ (subscribeLoop owner pairs remainingIds).1) :
    ∃ entry, (id, entry) ∈ pairs ∧ entry.owner = owner := by
  induction pairs generalizing remainingIds with
  | nil => cases h
  | cons p rest ih =>
    obtain ⟨id', entry⟩ := p
    unfold subscribeLoop at h
    cases hstate : entry.state with
    | pending =>
      rw [hstate] at h
      obtain ⟨entry', hmem, howner⟩ := ih h
      exact ⟨entry', List.mem_cons_of_mem _ hmem, howner⟩
    | completed result' =>
      rw [hstate] at h
      dsimp only at h
      split at h
      · rename_i htake
        rcases List.mem_cons.mp h with heq | hrest
        · cases heq
          exact ⟨entry, List.mem_cons_self .., htake.1⟩
        · obtain ⟨entry', hmem, howner⟩ := ih hrest
          exact ⟨entry', List.mem_cons_of_mem _ hmem, howner⟩
      · obtain ⟨entry', hmem, howner⟩ := ih h
        exact ⟨entry', List.mem_cons_of_mem _ hmem, howner⟩

end InMemoryFutureStorage

open InMemoryFutureStorage

/-! ## What the owners share -/

theorem ownedSound_init (maxPending maxCompleted : Limit) (capacity : Nat) :
    (OwnedWorld.init maxPending maxCompleted capacity : OwnedWorld Id Key Owner Result).Sound
      maxPending maxCompleted uses where
  invariant := invariant_init maxPending maxCompleted capacity
  issued _ _ h := nomatch h
  taskOwner _ _ h := nomatch h
  entryOwner _ _ h := nomatch h
  entryKey _ _ _ h := nomatch h
  streams := rfl
  streamOwner _ h := nomatch h
  received _ _ h := nomatch h

/-- The keys that a step registers are counted as used. -/
def OwnerEvent.Uses (uses : Owner → Key → Prop) : OwnerEvent Id Key Owner Result → Prop
  | .register registration _ => ∀ key, registration.idempotencyKey = some key →
      uses registration.owner key
  | _ => True

theorem OwnedWorld.Sound.entries (h : w.Sound maxPending maxCompleted uses)
    {world : FutureWorld Id Key Owner Result} (hinvariant : world.Invariant maxPending maxCompleted)
    (hissued : world.issued = w.world.issued)
    (htasks : ∀ id task, world.tasks.lookup id = some task → ∃ task, w.world.tasks.lookup id = some task)
    (hentries : ∀ id entry, world.storage.entries.lookup id = some entry →
      ∃ before, w.world.storage.entries.lookup id = some before ∧ before.owner = entry.owner ∧
        before.idempotencyKey = entry.idempotencyKey)
    (hnext : world.storage.nextRef = w.world.storage.nextRef)
    (hsubscribers : ∀ subscriber ∈ world.storage.subscribers,
      ∃ before ∈ w.world.storage.subscribers,
        before.ref = subscriber.ref ∧ before.owner = subscriber.owner)
    (hreceived : ∀ ref id, (ref, id) ∈ world.received → (ref, id) ∈ w.world.received ∨
      ∃ owner, w.streams[ref]? = some owner ∧ w.owners.lookup id = some owner) :
    OwnedWorld.Sound maxPending maxCompleted uses { w with world } where
  invariant := hinvariant
  issued id owner hid := hissued ▸ h.issued id owner hid
  taskOwner id task htask :=
    let ⟨_, hbefore⟩ := htasks id task htask
    h.taskOwner id _ hbefore
  entryOwner id entry hentry := by
    obtain ⟨before, hbefore, howner, -⟩ := hentries id entry hentry
    rw [← howner]
    exact h.entryOwner id before hbefore
  entryKey id entry key hentry hkey := by
    obtain ⟨before, hbefore, howner, hsame⟩ := hentries id entry hentry
    rw [← howner]
    exact h.entryKey id before key hbefore (hsame.trans hkey)
  streams := h.streams.trans hnext.symm
  streamOwner subscriber hmem := by
    obtain ⟨before, hbefore, href, howner⟩ := hsubscribers subscriber hmem
    rw [← href, ← howner]
    exact h.streamOwner before hbefore
  received ref id hmem := (hreceived ref id hmem).elim (h.received ref id) fun hnew => hnew

theorem ownedSound_registered (h : w.Sound maxPending maxCompleted uses)
    (registration : FutureRegistration Key Owner) (hfresh : id ∉ w.world.issued)
    (huses : ∀ key, registration.idempotencyKey = some key → uses registration.owner key) :
    OwnedWorld.Sound maxPending maxCompleted uses
      { w with
        world := w.world.registered registration id
        owners := w.ownersAfter registration.owner (w.world.storage.register registration id).1 } := by
  have hinvariant := invariant_registered h.invariant registration hfresh
  unfold FutureWorld.registered at hinvariant ⊢
  rcases w.world.storage.register_cases registration id with ⟨answer, hcall, hnone⟩ | ⟨hkey, hcall⟩
  · rw [hcall] at hinvariant ⊢
    cases answer with
    | error error => exact h
    | ok registered =>
      cases registered with
      | existing known => exact h
      | scheduled known => exact absurd rfl (hnone known)
  · rw [hcall] at hinvariant ⊢
    have howners (id' : Id) : (w.owners.set id registration.owner).lookup id' =
        if id' = id then some registration.owner else w.owners.lookup id' :=
      OrderedMap.lookup_set ..
    have hold {id' : Id} {owner : Owner} (hid : w.owners.lookup id' = some owner) :
        (w.owners.set id registration.owner).lookup id' = some owner := by
      rw [howners, if_neg, hid]
      rintro rfl
      exact hfresh (h.issued _ _ hid)
    refine ⟨hinvariant, fun id' owner hid => ?_, fun id' task htask => ?_, fun id' entry hentry => ?_,
      fun id' entry key hentry hkey' => ?_, h.streams, h.streamOwner, fun ref id' hmem => ?_⟩
    · change (w.owners.set id registration.owner).lookup id' = some owner at hid
      rw [howners] at hid
      split at hid
      · rename_i hsame
        rw [hsame]
        exact List.mem_cons_self ..
      · exact List.mem_cons_of_mem _ (h.issued id' owner hid)
    · change (w.world.tasks.set id _).lookup id' = some task at htask
      change ∃ owner, (w.owners.set id registration.owner).lookup id' = some owner
      rw [OrderedMap.lookup_set] at htask
      rw [howners]
      split at htask
      · exact ⟨_, if_pos ‹_›⟩
      · rename_i hne
        rw [if_neg hne]
        exact h.taskOwner id' task htask
    · change (w.world.storage.entries.set id _).lookup id' = some entry at hentry
      change (w.owners.set id registration.owner).lookup id' = some entry.owner
      rw [OrderedMap.lookup_set] at hentry
      split at hentry
      · rename_i hsame
        obtain rfl := Option.some.inj hentry
        rw [howners, if_pos hsame]
      · exact hold (h.entryOwner id' entry hentry)
    · change (w.world.storage.entries.set id _).lookup id' = some entry at hentry
      rw [OrderedMap.lookup_set] at hentry
      split at hentry
      · obtain rfl := Option.some.inj hentry
        exact huses key hkey'
      · exact h.entryKey id' entry key hentry hkey'
    · obtain ⟨owner, hstream, howner⟩ := h.received ref id' hmem
      exact ⟨owner, hstream, hold howner⟩

theorem ownedSound_completed (h : w.Sound maxPending maxCompleted uses) (id : Id) (result : Result)
    (discard : Bool) (hinvariant : (w.world.completed id result discard).Invariant maxPending maxCompleted) :
    OwnedWorld.Sound maxPending maxCompleted uses
      { w with world := w.world.completed id result discard } := by
  have htasks (id' : Id) (task : FutureTask) (h : (w.world.tasks.delete id).lookup id' = some task) :
      ∃ task, w.world.tasks.lookup id' = some task := by
    rw [OrderedMap.lookup_delete] at h
    split at h
    · cases h
    · exact ⟨task, h⟩
  unfold FutureWorld.completed at hinvariant ⊢
  rcases w.world.storage.complete_frame id result discard with
    hcall | ⟨entry, entries, _, _, hentry, hcall, hentries⟩
  · rw [hcall] at hinvariant ⊢
    refine h.entries hinvariant rfl htasks (fun id' e he => ⟨e, he, rfl, rfl⟩) rfl
      (fun s hs => ⟨s, hs, rfl, rfl⟩) fun ref id' hmem => ?_
    exact (List.mem_append.mp hmem).imp_right nofun
  · rw [hcall] at hinvariant ⊢
    refine h.entries hinvariant rfl htasks hentries rfl (fun s hs => mem_deliverAll hs)
      fun ref id' hmem => ?_
    refine (List.mem_append.mp hmem).imp_right fun hnew => ?_
    obtain ⟨ref', href, hpair⟩ := List.mem_map.mp hnew
    obtain ⟨rfl, rfl⟩ := Prod.mk.inj hpair
    obtain ⟨subscriber, hsubscriber, rfl, howner⟩ := mem_deliveredTo href
    exact ⟨entry.owner, howner ▸ h.streamOwner subscriber hsubscriber, h.entryOwner _ entry hentry⟩

theorem ownedSound_subscribed (h : w.Sound maxPending maxCompleted uses) (ids : Option (List Id))
    (owner : Owner) :
    OwnedWorld.Sound maxPending maxCompleted uses
      { w with world := w.world.subscribed ids owner, streams := w.streams ++ [owner] } := by
  have hinvariant := invariant_subscribed h.invariant ids owner
  have hlast : (w.streams ++ [owner])[w.world.storage.nextRef]? = some owner := by
    rw [← h.streams, List.getElem?_append_right (Nat.le_refl _), Nat.sub_self, List.getElem?_cons_zero]
  have hgrow {ref : Nat} {o : Owner} (hstream : w.streams[ref]? = some o) :
      (w.streams ++ [owner])[ref]? = some o := by
    rw [List.getElem?_append_left (List.getElem?_eq_some_iff.mp hstream).1]
    exact hstream
  have hreceived (ref : Nat) (id : Id)
      (hmem : (ref, id) ∈ w.world.received ++
        (subscribeLoop owner w.world.storage.entries.pairs (requestedIds ids)).1.map
          fun p => (w.world.storage.nextRef, p.1)) :
      ∃ o, (w.streams ++ [owner])[ref]? = some o ∧ w.owners.lookup id = some o := by
    rcases List.mem_append.mp hmem with hold | hnew
    · obtain ⟨o, hstream, howner⟩ := h.received ref id hold
      exact ⟨o, hgrow hstream, howner⟩
    · obtain ⟨⟨id', result⟩, hfound, hpair⟩ := List.mem_map.mp hnew
      obtain ⟨rfl, rfl⟩ := Prod.mk.inj hpair
      obtain ⟨entry, hentry, howner⟩ := mem_subscribeLoop hfound
      refine ⟨owner, hlast, ?_⟩
      rw [← howner]
      exact h.entryOwner _ entry (OrderedMap.mem_pairs.mp hentry)
  unfold FutureWorld.subscribed subscribe at hinvariant ⊢
  dsimp only at hinvariant ⊢
  split
  · rename_i hnothing
    rw [if_pos hnothing] at hinvariant
    exact ⟨hinvariant, h.issued, h.taskOwner, h.entryOwner, h.entryKey,
      by rw [List.length_append, h.streams]; rfl, fun s hs => hgrow (h.streamOwner s hs), hreceived⟩
  · rename_i hwaits
    rw [if_neg hwaits] at hinvariant
    refine ⟨hinvariant, h.issued, h.taskOwner, h.entryOwner, h.entryKey,
      by rw [List.length_append, h.streams]; rfl, fun s hs => ?_, hreceived⟩
    rcases List.mem_append.mp hs with hold | hnew
    · exact hgrow (h.streamOwner s hold)
    · obtain rfl := List.mem_singleton.mp hnew
      exact hlast

theorem ownedSound_step (h : w.Sound maxPending maxCompleted uses) (hstep : OwnedStep w event w')
    (huses : event.Uses uses) : w'.Sound maxPending maxCompleted uses := by
  have hsame (id : Id) (entry : FutureEntry Key Owner Result)
      (hentry : w.world.storage.entries.lookup id = some entry) :
      ∃ before, w.world.storage.entries.lookup id = some before ∧ before.owner = entry.owner ∧
        before.idempotencyKey = entry.idempotencyKey := ⟨entry, hentry, rfl, rfl⟩
  cases hstep with
  | register hstep =>
    cases hstep with
    | register _ id hfresh => exact ownedSound_registered h _ hfresh huses
  | @start world id owner hstep howner =>
    have hinvariant := invariant_step h.invariant hstep
    cases hstep with
    | @start discard _ htask =>
      refine h.entries hinvariant rfl (fun id' task htask' => ?_) hsame rfl
        (fun s hs => ⟨s, hs, rfl, rfl⟩) fun _ _ => .inl
      change (w.world.tasks.set id _).lookup id' = some task at htask'
      rw [OrderedMap.lookup_set] at htask'
      split at htask'
      · rename_i heq
        exact ⟨_, heq ▸ htask⟩
      · exact ⟨task, htask'⟩
  | @complete world id result owner refs hstep howner hreceived =>
    have hinvariant := invariant_step h.invariant hstep
    cases hstep with
    | @complete discard _ _ htask => exact ownedSound_completed h id result discard hinvariant
  | @cancel world id owner answer hstep =>
    have hinvariant := invariant_step h.invariant hstep
    cases hstep with
    | cancel _ _ =>
      rcases w.world.storage.cancel_cases id owner with hcall | ⟨entry, hentry, -, hcall⟩
      · rw [hcall] at hinvariant ⊢
        exact h
      · rw [hcall] at hinvariant ⊢
        refine h.entries hinvariant rfl (fun id' task htask => ⟨task, htask⟩) (fun id' e he => ?_) rfl
          (fun s hs => ⟨s, hs, rfl, rfl⟩) fun _ _ => .inl
        change (w.world.storage.entries.delete id).lookup id' = some e at he
        rw [OrderedMap.lookup_delete] at he
        split at he
        · cases he
        · exact ⟨e, he, rfl, rfl⟩
  | @subscribe world ids owner immediate hstep =>
    cases hstep with
    | subscribe _ _ => exact ownedSound_subscribed h ids owner
  | @unsubscribe world ref owner stream hstep hname =>
    have hinvariant := invariant_step h.invariant hstep
    cases hstep with
    | unsubscribe _ =>
      exact h.entries hinvariant rfl (fun id' task htask => ⟨task, htask⟩) hsame rfl
        (fun s hs => ⟨s, List.mem_of_mem_filter hs, rfl, rfl⟩) fun _ _ => .inl
  | @pull world ref owner stream hstep hname =>
    have hinvariant := invariant_step h.invariant hstep
    cases hstep with
    | pull _ =>
      refine h.entries hinvariant rfl (fun id' task htask => ⟨task, htask⟩) hsame rfl
        (fun s hs => ?_) fun _ _ => .inl
      obtain ⟨before, hbefore, rfl⟩ := List.mem_map.mp hs
      refine ⟨before, hbefore, ?_⟩
      split <;> exact ⟨rfl, rfl⟩

theorem register_denied (h : w.Sound maxPending maxCompleted uses)
    {registration : FutureRegistration Key Owner} {entry : FutureEntry Key Owner Result} {key : Key}
    (hkey : registration.idempotencyKey = some key)
    (hentry : w.world.storage.entries.lookup id = some entry) (hlive : entry.idempotencyKey = some key)
    (hother : entry.owner ≠ registration.owner) (fresh : Id) :
    w.world.storage.register registration fresh = (.error ⟨.permissionDenied, ""⟩, w.world.storage) := by
  have hknown := (h.invariant.consistent.key key id).mpr ⟨entry, hentry, hlive⟩
  rw [register, hkey, Option.bind_some, hknown]
  refine if_pos ?_
  rw [hentry, Option.map_some]
  exact fun heq => hother (Option.some.inj heq)

theorem received_inj {received : List (Nat × Id)} {refs refs' : List Nat}
    (h : received ++ refs.map (·, id) = received ++ refs'.map (·, id)) : refs = refs' :=
  List.map_injective_iff.mpr (fun _ _ hpair => (Prod.mk.inj hpair).1) (List.append_cancel_left h)

theorem ownedStep_delivers {owner : Owner} (h : w.Sound maxPending maxCompleted uses)
    (hstep : OwnedStep w event w') (huses : event.Uses uses) (hdelivers : event.Delivers owner id) :
    w'.owners.lookup id = some owner := by
  have hsound := ownedSound_step h hstep huses
  cases hstep with
  | @complete world id' result owner' refs hstep howner hreceived =>
    obtain ⟨rfl, hmem⟩ := hdelivers
    obtain ⟨⟨_, number⟩, hname, rfl⟩ := List.mem_map.mp hmem
    obtain ⟨ref, href, hname⟩ := List.mem_filterMap.mp hname
    have hnew : (ref, id') ∈ world.received := by
      rw [hreceived]
      exact List.mem_append_right _ (List.mem_map_of_mem href)
    obtain ⟨owner'', hstream, howner''⟩ := hsound.received ref id' hnew
    obtain rfl := Option.some.inj ((streamName_eq_some hname).1.symm.trans hstream)
    exact howner''
  | @subscribe world ids owner' immediate hstep =>
    obtain ⟨rfl, hmem⟩ := hdelivers
    cases hstep with
    | subscribe _ _ =>
      obtain ⟨⟨_, result⟩, hfound, rfl⟩ := List.mem_map.mp hmem
      rw [subscribe_eq] at hfound
      obtain ⟨entry, hentry, howner⟩ := mem_subscribeLoop hfound
      rw [← howner]
      exact h.entryOwner _ entry (OrderedMap.mem_pairs.mp hentry)
  | register _ => cases hdelivers
  | start _ _ => cases hdelivers
  | cancel _ => cases hdelivers
  | unsubscribe _ _ => cases hdelivers
  | pull _ _ => cases hdelivers

theorem ownedStep_owners {owner : Owner} (h : w.Sound maxPending maxCompleted uses)
    (hstep : OwnedStep w event w') (howner : w.owners.lookup id = some owner) :
    w'.owners.lookup id = some owner := by
  cases hstep with
  | @register world registration answer hstep =>
    cases hstep with
    | register _ fresh hfresh =>
      show (w.ownersAfter registration.owner (w.world.storage.register registration fresh).1).lookup id = _
      rcases w.world.storage.register_cases registration fresh with ⟨answer, hcall, hnone⟩ | ⟨-, hcall⟩
      · rw [hcall]
        cases answer with
        | error error => exact howner
        | ok registered =>
          cases registered with
          | existing known => exact howner
          | scheduled known => exact absurd rfl (hnone known)
      · rw [hcall]
        show (w.owners.set fresh registration.owner).lookup id = _
        rw [OrderedMap.lookup_set, if_neg, howner]
        rintro rfl
        exact hfresh (h.issued id owner howner)
  | _ => exact howner

def UsesKey (events : List (OwnerEvent Id Key Owner Result)) (owner : Owner) (key : Key) : Prop :=
  ∃ registration answer, .register registration answer ∈ events ∧ registration.owner = owner ∧
    registration.idempotencyKey = some key

def KeysApart (events : List (OwnerEvent Id Key Owner Result)) : Prop :=
  ∀ owner owner' key, UsesKey events owner key → UsesKey events owner' key → owner = owner'

theorem uses_of_mem {events : List (OwnerEvent Id Key Owner Result)} (h : event ∈ events) :
    event.Uses (UsesKey events) := by
  cases event with
  | register registration answer => exact fun key hkey => ⟨registration, answer, h, rfl, hkey⟩
  | _ => exact trivial

theorem uses_run {capacity : Nat} {events : List (OwnerEvent Id Key Owner Result)}
    (hrun : Run OwnedStep (.init maxPending maxCompleted capacity) events w) :
    Run (Restrict OwnedStep fun _ event => event.Uses (UsesKey events))
      (.init maxPending maxCompleted capacity) events w :=
  hrun.restrict fun _ => uses_of_mem

theorem ownedSound_run {capacity : Nat} {events : List (OwnerEvent Id Key Owner Result)}
    (hrun : Run OwnedStep (.init maxPending maxCompleted capacity) events w) :
    w.Sound maxPending maxCompleted (UsesKey events) :=
  (uses_run hrun).invariant (fun _ _ _ hs hstep => ownedSound_step hs hstep.1 hstep.2)
    (ownedSound_init maxPending maxCompleted capacity)

theorem delivers_run {capacity : Nat} {events : List (OwnerEvent Id Key Owner Result)}
    (hrun : Run OwnedStep (.init maxPending maxCompleted capacity) events w) {owner : Owner}
    (hevent : event ∈ events) (hdelivers : event.Delivers owner id) : w.owners.lookup id = some owner := by
  have huses := uses_run hrun
  generalize UsesKey events = uses at huses
  obtain ⟨before, after, rfl⟩ := List.append_of_mem hevent
  obtain ⟨w₁, hbefore, hrest⟩ := huses.split
  have hsound := hbefore.invariant (I := fun w => w.Sound maxPending maxCompleted uses)
    (fun _ _ _ hs hstep => ownedSound_step hs hstep.1 hstep.2)
    (ownedSound_init maxPending maxCompleted capacity)
  cases hrest with
  | cons hone hafter =>
    -- The owner is known when the result is handed out, and stays.
    refine (hafter.invariant (I := fun w => w.Sound maxPending maxCompleted uses ∧
      w.owners.lookup id = some owner) (fun _ _ _ hs hstep => ?_) ?_).2
    · exact ⟨ownedSound_step hs.1 hstep.1 hstep.2, ownedStep_owners hs.1 hstep.1 hs.2⟩
    · exact ⟨ownedSound_step hsound hone.1 hone.2, ownedStep_delivers hsound hone.1 hone.2 hdelivers⟩

theorem InMemoryFutureStorage.register_congr (storage : InMemoryFutureStorage Id Key Owner Result)
    (registration : FutureRegistration Key Owner) {id id' : Id}
    (h : freshId (storage.register registration id).1 = freshId (storage.register registration id').1) :
    storage.register registration id = storage.register registration id' := by
  unfold register at h ⊢
  cases hkey : registration.idempotencyKey.bind storage.idempotency.lookup with
  | some known => rfl
  | none =>
    rw [hkey] at h
    dsimp only at h ⊢
    split at h
    · rw [if_pos ‹_›, if_pos ‹_›]
    · obtain rfl := Option.some.inj h
      rfl

theorem ownedStep_deterministic :
    Deterministic (@OwnedStep Id Key Owner Result _ _ _) OwnerEvent.call := by
  intro w e w₁ e' w₂ hstep hstep' hcall
  cases hstep with
  | @register world registration answer hone =>
    cases hstep' with
    | @register world' registration' answer' hone' =>
      obtain ⟨rfl, hfresh⟩ := OwnerCall.register.inj hcall
      cases hone with
      | register _ id _ =>
        cases hone' with
        | register _ id' _ =>
          have hsame := w.world.storage.register_congr registration hfresh
          unfold FutureWorld.registered
          rw [hsame]
          exact ⟨rfl, rfl⟩
    | _ => cases hcall
  | start hone howner =>
    cases hstep' with
    | start hone' howner' =>
      cases hcall
      cases hone with
      | start _ htask =>
        cases hone' with
        | start _ htask' =>
          cases htask.symm.trans htask'
          exact ⟨rfl, rfl⟩
    | _ => cases hcall
  | complete refs hone howner hreceived =>
    cases hstep' with
    | complete refs' hone' howner' hreceived' =>
      cases hcall
      cases hone with
      | complete _ _ htask =>
        cases hone' with
        | complete _ _ htask' =>
          cases htask.symm.trans htask'
          obtain rfl := received_inj (hreceived.symm.trans hreceived')
          exact ⟨rfl, rfl⟩
    | _ => cases hcall
  | cancel hone =>
    cases hstep' with
    | cancel hone' =>
      cases hcall
      cases hone
      cases hone'
      exact ⟨rfl, rfl⟩
    | _ => cases hcall
  | subscribe hone =>
    cases hstep' with
    | subscribe hone' =>
      cases hcall
      cases hone
      cases hone'
      exact ⟨rfl, rfl⟩
    | _ => cases hcall
  | unsubscribe hone hname =>
    cases hstep' with
    | unsubscribe hone' hname' =>
      cases hcall
      cases hone
      cases hone'
      obtain rfl := streamName_injective hname hname'
      exact ⟨rfl, rfl⟩
    | _ => cases hcall
  | pull hone hname =>
    cases hstep' with
    | pull hone' hname' =>
      cases hcall
      cases hone
      cases hone'
      obtain rfl := streamName_injective hname hname'
      exact ⟨rfl, rfl⟩
    | _ => cases hcall

end Bebop.TypeScript.Rpc
