import Bebop.Swift.FutureCancel

/-!
# Bebop — each result is delivered at most once in Swift

What keeps a subscribe call from receiving a future's result twice, at once and on its
stream, depends on where the future's task stands (`TaskOk`). While it yields, that leans
on the sequence number of the stored future: if the future is evicted before its task takes
the snapshot, a subscriber to all futures matches although it has the result.
-/

set_option linter.unusedSectionVars false

namespace Bebop.Swift.Rpc

open Transition

variable {Id Key Owner Result : Type} [DecidableEq Id] [DecidableEq Key] [DecidableEq Owner]

/-- A future is stored when its task takes the snapshot, or else no subscriber to all futures
has its result; and the sequence numbers do not wrap. -/
def SnapshotInTime (world : FutureWorld Id Key Owner Result) :
    FutureEvent Id Key Owner Result → Prop
  | .snapshot id =>
    (world.store.sequenceOf id).isSome ∨
      ∀ call ∈ world.calls, ∀ number subscriber, call.subscriber = some number →
        world.store.subscribers.lookup number = some subscriber → subscriber.futureIds = none →
          id ∉ call.received
  | .finish _ _ => world.store.nextCompletionSequence + 1 < 2 ^ 64
  | _ => True

/-- The subscriber does not match, unless its sequence number is lost. -/
structure Unmatched (store : FutureStore Id Key Owner Result) (id : Id)
    (subscriber : Subscriber Id Owner) : Prop where
  finite : ∀ ids, subscriber.futureIds = some ids → id ∉ ids
  all : subscriber.futureIds = none → ∃ minimum, subscriber.minimumSequence = some minimum ∧
    ∀ sequence, store.sequenceOf id = some sequence → sequence < minimum

/-- What holds of a future whose task stands at `task`. -/
def TaskOk (store : FutureStore Id Key Owner Result) (calls : List (SubscribeCall Id)) (id : Id) :
    TaskState Owner Result → Prop
  | .executing _ _ => ∀ call ∈ calls, id ∉ call.received
  | .notifying _ _ =>
    ∀ call ∈ calls, id ∈ call.received → ∀ number subscriber, call.subscriber = some number →
      store.subscribers.lookup number = some subscriber → Unmatched store id subscriber
  | .yielding _ waiting _ =>
    waiting.Nodup ∧ ∀ number ∈ waiting, number < store.nextSubscriberId ∧
      ∀ call ∈ calls, call.subscriber = some number → id ∉ call.received

structure Numbered (store : FutureStore Id Key Owner Result) (calls : List (SubscribeCall Id)) :
    Prop where
  call_lt : ∀ call ∈ calls, ∀ number, call.subscriber = some number → number < store.nextSubscriberId
  subscriber_lt : ∀ number subscriber, store.subscribers.lookup number = some subscriber →
    number < store.nextSubscriberId
  sequence_lt : ∀ id sequence, store.sequenceOf id = some sequence →
    sequence < store.nextCompletionSequence

structure FutureWorld.Delivery (world : FutureWorld Id Key Owner Result) : Prop where
  sound : world.Sound
  numbered : Numbered world.store world.calls
  nodup : ∀ call ∈ world.calls, call.received.Nodup
  issued : ∀ call ∈ world.calls, ∀ id ∈ call.received, id ∈ world.issued
  tasks : ∀ id task, world.tasks.lookup id = some task → TaskOk world.store world.calls id task

variable {world world' : FutureWorld Id Key Owner Result} {event : FutureEvent Id Key Owner Result}
  {id : Id} {owner : Owner} {store store' : FutureStore Id Key Owner Result}
  {calls calls' : List (SubscribeCall Id)} {task : TaskState Owner Result}

/-! ## What a task relies on -/

def Fewer (store store' : FutureStore Id Key Owner Result) : Prop :=
  ∀ number subscriber', store'.subscribers.lookup number = some subscriber' →
    ∃ subscriber, store.subscribers.lookup number = some subscriber ∧
      (subscriber'.futureIds = none →
        subscriber.futureIds = none ∧ subscriber'.minimumSequence = subscriber.minimumSequence) ∧
      ∀ ids', subscriber'.futureIds = some ids' →
        ∃ ids, subscriber.futureIds = some ids ∧ ids' ⊆ ids

theorem Fewer.refl (store : FutureStore Id Key Owner Result) : Fewer store store :=
  fun _ subscriber h => ⟨subscriber, h, fun hnone => ⟨hnone, rfl⟩, fun ids hids =>
    ⟨ids, hids, Finset.Subset.refl ids⟩⟩

theorem Fewer.trans {store'' : FutureStore Id Key Owner Result} (h : Fewer store store')
    (h' : Fewer store' store'') : Fewer store store'' := by
  intro number subscriber'' hlookup
  obtain ⟨subscriber', hlookup', hall', hfinite'⟩ := h' number subscriber'' hlookup
  obtain ⟨subscriber, hlookup'', hall, hfinite⟩ := h number subscriber' hlookup'
  refine ⟨subscriber, hlookup'', fun hnone => ?_, fun ids'' hids'' => ?_⟩
  · obtain ⟨hnone', hmin'⟩ := hall' hnone
    obtain ⟨hnone'', hmin⟩ := hall hnone'
    exact ⟨hnone'', hmin'.trans hmin⟩
  · obtain ⟨ids', hids', hsub'⟩ := hfinite' ids'' hids''
    obtain ⟨ids, hids, hsub⟩ := hfinite ids' hids'
    exact ⟨ids, hids, hsub'.trans hsub⟩

theorem fewer_delete (store : FutureStore Id Key Owner Result) (number : Nat) :
    Fewer store { store with subscribers := store.subscribers.delete number } := by
  intro number' subscriber hlookup
  dsimp only at hlookup
  rw [OrderedMap.lookup_delete] at hlookup
  split at hlookup
  · cases hlookup
  · exact Fewer.refl store number' subscriber hlookup

theorem fewer_settle (store : FutureStore Id Key Owner Result) (id : Id)
    (deliveries : List (Nat × YieldResult)) : Fewer store (store.settle id deliveries) := by
  unfold FutureStore.settle
  induction deliveries generalizing store with
  | nil => exact .refl store
  | cons delivery rest ih =>
    refine Fewer.trans ?_ (ih (FutureStore.settleOne id store delivery))
    unfold FutureStore.settleOne
    split
    · exact .refl store
    · rename_i subscriber hsubscriber
      split
      · dsimp only
        split
        · exact fewer_delete store _
        · intro number subscriber' hlookup
          dsimp only at hlookup
          rw [OrderedMap.lookup_set] at hlookup
          split at hlookup
          · rename_i hsame
            obtain rfl := Option.some.inj hlookup
            refine ⟨subscriber, hsame ▸ hsubscriber, fun hnone => ?_, fun ids' hids' => ?_⟩
            · exact ⟨Option.map_eq_none_iff.mp hnone, rfl⟩
            · obtain ⟨ids, hids, rfl⟩ := Option.map_eq_some_iff.mp hids'
              exact ⟨ids, hids, Finset.erase_subset id ids⟩
          · exact Fewer.refl store number subscriber' hlookup
      · exact fewer_delete store _
      · exact fewer_delete store _

theorem TaskOk.mono (h : TaskOk store calls id task)
    (hcalls : ∀ call' ∈ calls', ∃ call ∈ calls, call.subscriber = call'.subscriber ∧
      (id ∈ call'.received → id ∈ call.received))
    (hfewer : Fewer store store')
    (hsequence : ∀ sequence, store'.sequenceOf id = some sequence → store.sequenceOf id = some sequence)
    (hnext : store.nextSubscriberId ≤ store'.nextSubscriberId) : TaskOk store' calls' id task := by
  cases task with
  | executing owner discard =>
    intro call' hcall' hreceived
    obtain ⟨call, hcall, -, hback⟩ := hcalls call' hcall'
    exact h call hcall (hback hreceived)
  | notifying owner result =>
    intro call' hcall' hreceived number subscriber' hnumber hlookup
    obtain ⟨call, hcall, hsame, hback⟩ := hcalls call' hcall'
    obtain ⟨subscriber, hlookup', hall, hfinite⟩ := hfewer number subscriber' hlookup
    have hunmatched := h call hcall (hback hreceived) number subscriber (hsame.trans hnumber) hlookup'
    refine ⟨fun ids' hids' hmem => ?_, fun hnone => ?_⟩
    · obtain ⟨ids, hids, hsub⟩ := hfinite ids' hids'
      exact hunmatched.finite ids hids (hsub hmem)
    · obtain ⟨hnone', hminimum⟩ := hall hnone
      obtain ⟨minimum, hsome, hlt⟩ := hunmatched.all hnone'
      exact ⟨minimum, hminimum.trans hsome, fun sequence hseq => hlt sequence (hsequence sequence hseq)⟩
  | yielding result waiting deliveries =>
    refine ⟨h.1, fun number hmem => ?_⟩
    obtain ⟨hlt, hnot⟩ := h.2 number hmem
    refine ⟨Nat.lt_of_lt_of_le hlt hnext, fun call' hcall' hnumber hreceived => ?_⟩
    obtain ⟨call, hcall, hsame, hback⟩ := hcalls call' hcall'
    exact hnot call hcall (hsame.trans hnumber) (hback hreceived)

theorem same_calls (calls : List (SubscribeCall Id)) (id : Id) :
    ∀ call' ∈ calls, ∃ call ∈ calls, call.subscriber = call'.subscriber ∧
      (id ∈ call'.received → id ∈ call.received) :=
  fun call hcall => ⟨call, hcall, rfl, fun h => h⟩

/-! ## Sequence numbers -/

theorem sequenceOf_eq_some {sequence : Nat} :
    store.sequenceOf id = some sequence ↔
      ∃ entry result, store.futures.lookup id = some entry ∧ entry.state = .completed result sequence := by
  unfold FutureStore.sequenceOf
  cases hentry : store.futures.lookup id with
  | none => exact ⟨nofun, fun ⟨_, _, h, _⟩ => nomatch h⟩
  | some entry =>
    dsimp only
    constructor
    · intro h
      split at h
      · rename_i result sequence' hstate
        obtain rfl := Option.some.inj h
        exact ⟨entry, result, rfl, hstate⟩
      · cases h
    · rintro ⟨entry', result, hsame, hstate⟩
      obtain rfl := Option.some.inj hsame
      rw [hstate]

theorem sequenceOf_mono
    (h : ∀ entry, store'.futures.lookup id = some entry → store.futures.lookup id = some entry)
    {sequence : Nat} (hsequence : store'.sequenceOf id = some sequence) :
    store.sequenceOf id = some sequence := by
  obtain ⟨entry, result, hentry, hstate⟩ := sequenceOf_eq_some.mp hsequence
  exact sequenceOf_eq_some.mpr ⟨entry, result, h entry hentry, hstate⟩

theorem tasks_set {tasks : OrderedMap Id (TaskState Owner Result)} {task' : TaskState Owner Result}
    (hnew : TaskOk store calls id task')
    (hold : ∀ id' task, id' ≠ id → tasks.lookup id' = some task → TaskOk store calls id' task) :
    ∀ id' task, (tasks.set id task').lookup id' = some task → TaskOk store calls id' task := by
  intro id' task htask
  rw [OrderedMap.lookup_set] at htask
  split at htask
  · rename_i hsame
    obtain rfl := Option.some.inj htask
    rw [hsame]
    exact hnew
  · rename_i hne
    exact hold id' task hne htask

/-! ## One step -/

theorem delivery_init (maxPendingFutures maxCompletedFutures : Nat) :
    (FutureWorld.init maxPendingFutures maxCompletedFutures :
      FutureWorld Id Key Owner Result).Delivery where
  sound := sound_init maxPendingFutures maxCompletedFutures
  numbered := ⟨(fun _ h => nomatch h), (fun _ _ h => nomatch h), fun _ _ h => nomatch h⟩
  nodup := nofun
  issued := nofun
  tasks _ _ h := nomatch h

theorem FutureWorld.Delivery.only (h : world.Delivery) (id : Id)
    {world' : FutureWorld Id Key Owner Result}
    (hsound : world'.Sound) (hcalls : world'.calls = world.calls)
    (hissued : ∀ id' ∈ world.issued, id' ∈ world'.issued)
    (hfewer : Fewer world.store world'.store)
    (hnext : world'.store.nextSubscriberId = world.store.nextSubscriberId)
    (hsequences : ∀ id' sequence, world'.store.sequenceOf id' = some sequence →
      sequence < world'.store.nextCompletionSequence)
    (hsequence : ∀ id' sequence, id' ≠ id → world'.store.sequenceOf id' = some sequence →
      world.store.sequenceOf id' = some sequence)
    (htasks : ∀ id' task, id' ≠ id → world'.tasks.lookup id' = some task →
      world.tasks.lookup id' = some task)
    (hself : ∀ task, world'.tasks.lookup id = some task →
      TaskOk world'.store world'.calls id task) : world'.Delivery := by
  refine ⟨hsound, ⟨?_, ?_, hsequences⟩, ?_, ?_, ?_⟩
  · rw [hcalls, hnext]
    exact h.numbered.call_lt
  · intro number subscriber' hlookup
    obtain ⟨subscriber, hbefore, -⟩ := hfewer number subscriber' hlookup
    rw [hnext]
    exact h.numbered.subscriber_lt number subscriber hbefore
  · rw [hcalls]
    exact h.nodup
  · rw [hcalls]
    exact fun call hcall id' hid' => hissued id' (h.issued call hcall id' hid')
  · intro id' task htask
    by_cases hsame : id' = id
    · subst hsame
      exact hself task htask
    · rw [hcalls]
      exact (h.tasks id' task (htasks id' task hsame htask)).mono (same_calls world.calls id') hfewer
        (fun sequence hs => hsequence id' sequence hsame hs) hnext.ge

theorem delivery_registered (h : world.Delivery) (registration : FutureRegistration Key Owner)
    (hfresh : id ∉ world.issued) : (world.registered registration id).Delivery := by
  have hsound := sound_registered h.sound registration hfresh
  unfold FutureWorld.registered at hsound ⊢
  rcases world.store.register_cases registration id with
    (⟨error, hcall⟩ | ⟨known, hcall⟩) | ⟨-, -, hcall⟩
  · rw [hcall]
    exact h
  · rw [hcall]
    exact h
  · rw [hcall] at hsound ⊢
    have hlookup := world.store.lookup_start registration id
    have hframe : ∃ futures idempotencyIndex reverseIdempotency pendingCount,
        world.store.start registration id =
          { world.store with futures, idempotencyIndex, reverseIdempotency, pendingCount } := by
      unfold FutureStore.start
      split <;> exact ⟨_, _, _, _, rfl⟩
    obtain ⟨f, i, r, p, hframe⟩ := hframe
    have hsequence (id' : Id) (sequence : Nat)
        (hs : (world.store.start registration id).sequenceOf id' = some sequence) :
        world.store.sequenceOf id' = some sequence := by
      obtain ⟨entry, result, hentry, hstate⟩ := sequenceOf_eq_some.mp hs
      rw [hlookup] at hentry
      split at hentry
      · obtain rfl := Option.some.inj hentry
        cases hstate
      · exact sequenceOf_eq_some.mpr ⟨entry, result, hentry, hstate⟩
    refine h.only id hsound rfl (fun _ hid => List.mem_cons_of_mem _ hid) ?_ ?_ ?_ ?_ ?_ ?_
    · dsimp only
      rw [hframe]
      exact .refl world.store
    · dsimp only
      rw [hframe]
    · intro id' sequence hs
      have hlt := h.numbered.sequence_lt id' sequence (hsequence id' sequence hs)
      dsimp only
      rw [hframe]
      exact hlt
    · exact fun id' sequence _ hs => hsequence id' sequence hs
    · intro id' task hne htask
      change (world.tasks.set id _).lookup id' = some task at htask
      rwa [OrderedMap.lookup_set, if_neg hne] at htask
    · intro task htask
      change (world.tasks.set id _).lookup id = some task at htask
      rw [OrderedMap.lookup_set, if_pos rfl] at htask
      obtain rfl := Option.some.inj htask
      exact fun call hcall hid => hfresh (h.issued call hcall id hid)

theorem delivery_finished (h : world.Delivery) {discard : Bool} {result : Result}
    (htask : world.tasks.lookup id = some (.executing owner discard))
    (hfinish : world.finished id owner discard result = some world')
    (hwrap : world.store.nextCompletionSequence + 1 < 2 ^ 64) : world'.Delivery := by
  have hsound := sound_finished h.sound htask hfinish
  have hnobody : ∀ call ∈ world.calls, id ∉ call.received := h.tasks id _ htask
  unfold FutureWorld.finished at hfinish
  split at hfinish
  · obtain ⟨store, hremove, rfl⟩ := Option.map_eq_some_iff.mp hfinish
    have hframe : ∃ futures idempotencyIndex reverseIdempotency pendingCount,
        store = { world.store with futures, idempotencyIndex, reverseIdempotency, pendingCount } ∧
          ∀ id' entry, futures.lookup id' = some entry →
            world.store.futures.lookup id' = some entry := by
      rcases FutureStore.removePending_cases hremove with ⟨entry, hentry, -, -, rfl⟩ | ⟨rfl, -⟩
      · obtain ⟨r, i, hforget⟩ := FutureStore.forget_eq
          { world.store with pendingCount := world.store.pendingCount - 1 } id
        refine ⟨_, _, _, _, hforget, fun id' e he => ?_⟩
        rw [OrderedMap.lookup_delete] at he
        split at he
        · cases he
        · exact he
      · exact ⟨_, _, _, _, rfl, fun _ _ he => he⟩
    obtain ⟨f, i, r, p, rfl, hfutures⟩ := hframe
    refine h.only id hsound rfl (fun _ hid => hid) (.refl world.store) rfl ?_ ?_ ?_ ?_
    · exact fun id' sequence hs =>
        h.numbered.sequence_lt id' sequence (sequenceOf_mono (hfutures id') hs)
    · exact fun id' sequence _ hs => sequenceOf_mono (hfutures id') hs
    · intro id' task hne hsome
      change (world.tasks.set id _).lookup id' = some task at hsome
      rwa [OrderedMap.lookup_set, if_neg hne] at hsome
    · intro task hsome
      change (world.tasks.set id _).lookup id = some task at hsome
      rw [OrderedMap.lookup_set, if_pos rfl] at hsome
      obtain rfl := Option.some.inj hsome
      exact fun call hcall hid => absurd hid (hnobody call hcall)
  · obtain ⟨⟨answer, store⟩, hcomplete, hworld⟩ := Option.map_eq_some_iff.mp hfinish
    rcases FutureStore.complete_cases hcomplete with
      ⟨entry, hentry, hstate, rfl, hcount, hevicted⟩ | ⟨rfl, rfl, hnot⟩
    · dsimp only at hworld
      obtain rfl := hworld
      obtain ⟨f, i, r, o, hframe⟩ := hevicted.frame
      have hfutures (id' : Id) (e : FutureEntry Owner Result) (he : store.futures.lookup id' = some e) :
          (if id' = id then some ⟨.completed result world.store.nextCompletionSequence, entry.owner⟩
            else world.store.futures.lookup id') = some e := by
        have hbefore := hevicted.futures id' e he
        change (world.store.futures.set id _).lookup id' = some e at hbefore
        rwa [OrderedMap.lookup_set] at hbefore
      have hsequence (id' : Id) (sequence : Nat) (hne : id' ≠ id)
          (hs : store.sequenceOf id' = some sequence) : world.store.sequenceOf id' = some sequence := by
        refine sequenceOf_mono (fun e he => ?_) hs
        have hbefore := hfutures id' e he
        rwa [if_neg hne] at hbefore
      have hnext : store.nextCompletionSequence = world.store.nextCompletionSequence + 1 := by
        rw [hframe]
        exact Nat.mod_eq_of_lt hwrap
      refine h.only id hsound rfl (fun _ hid => hid) ?_ ?_ ?_ ?_ ?_ ?_
      · dsimp only
        rw [hframe]
        exact .refl world.store
      · dsimp only
        rw [hframe]
        rfl
      · intro id' sequence hs
        dsimp only at hs ⊢
        rw [hnext]
        by_cases hne : id' = id
        · obtain ⟨e, result', he, hcompleted⟩ := sequenceOf_eq_some.mp hs
          have hbefore := hfutures id' e he
          rw [if_pos hne] at hbefore
          obtain rfl := Option.some.inj hbefore
          obtain ⟨rfl, rfl⟩ := FutureState.completed.inj hcompleted
          exact Nat.lt_succ_self _
        · exact Nat.lt_succ_of_lt (h.numbered.sequence_lt id' sequence (hsequence id' sequence hne hs))
      · exact hsequence
      · intro id' task hne hsome
        change (world.tasks.set id _).lookup id' = some task at hsome
        rwa [OrderedMap.lookup_set, if_neg hne] at hsome
      · intro task hsome
        change (world.tasks.set id _).lookup id = some task at hsome
        rw [OrderedMap.lookup_set, if_pos rfl] at hsome
        obtain rfl := Option.some.inj hsome
        exact fun call hcall hid => absurd hid (hnobody call hcall)
    · dsimp only at hworld
      obtain rfl := hworld
      refine h.only id hsound rfl (fun _ hid => hid) (.refl world.store) rfl
        h.numbered.sequence_lt (fun _ _ _ hs => hs) ?_ ?_
      · intro id' task hne hsome
        change (world.tasks.delete id).lookup id' = some task at hsome
        rwa [OrderedMap.lookup_delete, if_neg hne] at hsome
      · intro task hsome
        change (world.tasks.delete id).lookup id = some task at hsome
        rw [OrderedMap.lookup_delete, if_pos rfl] at hsome
        cases hsome

theorem delivery_snapshot (h : world.Delivery) {result : Result}
    (htask : world.tasks.lookup id = some (.notifying owner result))
    (hsound : FutureWorld.Sound
      { world with
        tasks := world.tasks.set id (.yielding result (world.store.matching id owner) []) })
    (htime : SnapshotInTime world (.snapshot id : FutureEvent Id Key Owner Result)) :
    FutureWorld.Delivery
      { world with
        tasks := world.tasks.set id (.yielding result (world.store.matching id owner) []) } := by
  have hok : TaskOk world.store world.calls id (.notifying owner result) := h.tasks id _ htask
  refine ⟨hsound, h.numbered, h.nodup, h.issued, tasks_set ⟨?_, ?_⟩ fun id' task _ hold =>
    h.tasks id' task hold⟩
  · exact (List.filter_sublist.map Prod.fst).nodup (OrderedMap.nodup_pairs _)
  · intro number hmem
    obtain ⟨⟨_, subscriber⟩, hfilter, rfl⟩ := List.mem_map.mp hmem
    obtain ⟨hpair, haccepts⟩ := List.mem_filter.mp hfilter
    have hlookup := OrderedMap.mem_pairs.mp hpair
    refine ⟨h.numbered.subscriber_lt _ _ hlookup, fun call hcall hnumber hid => ?_⟩
    have hunmatched := hok call hcall hid _ subscriber hnumber hlookup
    unfold Subscriber.accepts at haccepts
    split at haccepts
    · cases hids : subscriber.futureIds with
      | some ids =>
        rw [hids] at haccepts
        exact hunmatched.finite ids hids (of_decide_eq_true haccepts)
      | none =>
        rw [hids] at haccepts
        obtain ⟨minimum, hminimum, hlt⟩ := hunmatched.all hids
        rw [hminimum] at haccepts
        rcases htime with hstored | hnobody
        · obtain ⟨sequence, hsequence⟩ := Option.isSome_iff_exists.mp hstored
          dsimp only at haccepts
          rw [hsequence] at haccepts
          exact absurd (of_decide_eq_true haccepts) (Nat.not_le.mpr (hlt sequence hsequence))
        · exact hnobody call hcall _ subscriber hnumber hlookup hids hid
    · cases haccepts

theorem delivery_yielded (h : world.Delivery) {result : Result} {number : Nat} {waiting : List Nat}
    {deliveries : List (Nat × YieldResult)} {outcome : YieldResult}
    (htask : world.tasks.lookup id = some (.yielding result (number :: waiting) deliveries))
    (hsound : (world.yielded id number outcome
      (.yielding result waiting (deliveries ++ [(number, outcome)]))).Sound) :
    (world.yielded id number outcome
      (.yielding result waiting (deliveries ++ [(number, outcome)]))).Delivery := by
  obtain ⟨hnodup, hwaiting⟩ := h.tasks id _ htask
  obtain ⟨hnot, hrest⟩ := List.nodup_cons.mp hnodup
  unfold FutureWorld.yielded at hsound ⊢
  split at hsound
  · -- the stream of the subscriber receives the result
    rename_i hsent
    rw [if_pos hsent]
    have hback : ∀ call' ∈ world.calls.map (·.receive number id), ∃ call ∈ world.calls,
        call.subscriber = call'.subscriber ∧
          ((call' = call ∧ call.subscriber ≠ some number) ∨
            (call'.received = call.received ++ [id] ∧ call.subscriber = some number)) := by
      intro call' hcall'
      obtain ⟨call, hcall, rfl⟩ := List.mem_map.mp hcall'
      refine ⟨call, hcall, ?_⟩
      unfold SubscribeCall.receive
      split
      · rename_i hsubscriber
        exact ⟨rfl, .inr ⟨rfl, hsubscriber⟩⟩
      · rename_i hsubscriber
        exact ⟨rfl, .inl ⟨rfl, hsubscriber⟩⟩
    refine ⟨hsound, ⟨?_, h.numbered.subscriber_lt, h.numbered.sequence_lt⟩, ?_, ?_,
      tasks_set ⟨hrest, ?_⟩ ?_⟩
    · intro call' hcall' number' hnumber
      obtain ⟨call, hcall, hsame, -⟩ := hback call' hcall'
      exact h.numbered.call_lt call hcall number' (hsame.trans hnumber)
    · intro call' hcall'
      obtain ⟨call, hcall, -, ⟨rfl, -⟩ | ⟨hreceived, hsubscriber⟩⟩ := hback call' hcall'
      · exact h.nodup call' hcall
      · have hnew : id ∉ call.received :=
          (hwaiting number List.mem_cons_self).2 call hcall hsubscriber
        rw [hreceived, List.nodup_append_comm]
        exact List.nodup_cons.mpr ⟨hnew, h.nodup call hcall⟩
    · intro call' hcall' id' hid'
      obtain ⟨call, hcall, -, ⟨rfl, -⟩ | ⟨hreceived, -⟩⟩ := hback call' hcall'
      · exact h.issued call' hcall id' hid'
      · rw [hreceived] at hid'
        rcases List.mem_append.mp hid' with hold | hnew
        · exact h.issued call hcall id' hold
        · rw [List.mem_singleton.mp hnew]
          exact h.sound.taskIssued id _ htask
    · intro number' hmem
      obtain ⟨hlt, hfree⟩ := hwaiting number' (List.mem_cons_of_mem _ hmem)
      refine ⟨hlt, fun call' hcall' hnumber => ?_⟩
      obtain ⟨call, hcall, hsame, ⟨rfl, -⟩ | ⟨-, hsubscriber⟩⟩ := hback call' hcall'
      · exact hfree call' hcall hnumber
      · -- the rest of the list does not name this subscriber again
        have hagain : number = number' :=
          Option.some.inj (hsubscriber.symm.trans (hsame.trans hnumber))
        exact absurd (hagain ▸ hmem) hnot
    · intro id' task hne hold
      refine (h.tasks id' task hold).mono (fun call' hcall' => ?_) (.refl world.store)
        (fun _ hs => hs) (Nat.le_refl _)
      obtain ⟨call, hcall, hsame, ⟨rfl, -⟩ | ⟨hreceived, -⟩⟩ := hback call' hcall'
      · exact ⟨call', hcall, rfl, fun hid => hid⟩
      · refine ⟨call, hcall, hsame, fun hid => ?_⟩
        rw [hreceived] at hid
        rcases List.mem_append.mp hid with hold | hnew
        · exact hold
        · exact absurd (List.mem_singleton.mp hnew) hne
  · rename_i hsent
    rw [if_neg hsent]
    exact ⟨hsound, h.numbered, h.nodup, h.issued,
      tasks_set ⟨hrest, fun number' hmem => hwaiting number' (List.mem_cons_of_mem _ hmem)⟩
        fun id' task _ hold => h.tasks id' task hold⟩

/-! ## Subscriptions -/

theorem FutureStore.nodup_immediateFor (store : FutureStore Id Key Owner Result) (owner : Owner)
    (ids : List Id) (seen : Finset Id) : ((store.immediateFor owner ids seen).map Prod.fst).Nodup := by
  induction ids generalizing seen with
  | nil => exact List.nodup_nil
  | cons id ids ih =>
    unfold immediateFor
    split
    · exact ih seen
    · split
      · exact ih _
      · rw [List.map_cons, List.nodup_cons]
        refine ⟨fun hagain => ?_, ih _⟩
        obtain ⟨p, hp, hfirst⟩ := List.mem_map.mp hagain
        exact (mem_immediateFor hp).2.2 (hfirst ▸ Finset.mem_insert_self _ seen)

theorem FutureStore.nodup_immediateAll (store : FutureStore Id Key Owner Result) (owner : Owner) :
    ((store.immediateAll owner).map Prod.fst).Nodup := by
  have hsub : ∀ pairs : List (Id × FutureEntry Owner Result),
      ((pairs.filterMap fun p => (store.resultFor owner p.1).map (p.1, ·)).map Prod.fst).Sublist
        (pairs.map Prod.fst) := by
    intro pairs
    induction pairs with
    | nil => exact .slnil
    | cons p pairs ih =>
      cases hresult : store.resultFor owner p.1 with
      | none =>
        rw [List.filterMap_cons_none (by rw [hresult]; rfl), List.map_cons]
        exact ih.cons p.1
      | some result =>
        rw [List.filterMap_cons_some (by rw [hresult]; rfl), List.map_cons, List.map_cons]
        exact ih.cons_cons p.1
  exact (hsub _).nodup (OrderedMap.nodup_pairs _)

theorem FutureStore.nodup_immediate (store : FutureStore Id Key Owner Result) (ids : Option (List Id))
    (owner : Owner) : ((store.subscribe ids owner).1.map Prod.fst).Nodup := by
  unfold subscribe
  split
  · exact store.nodup_immediateAll owner
  · dsimp only
    split <;> exact store.nodup_immediateFor owner _ ∅

theorem FutureStore.subscribe_cases (store : FutureStore Id Key Owner Result)
    (ids : Option (List Id)) (owner : Owner) :
    (store.subscribe ids owner).2 = (none, store) ∨
    ∃ subscriber : Subscriber Id Owner,
      (store.subscribe ids owner).2 = (some store.nextSubscriberId,
        { store with
          nextSubscriberId := store.nextSubscriberId + 1
          subscribers := store.subscribers.set store.nextSubscriberId subscriber }) ∧
      (∀ waiting, subscriber.futureIds = some waiting →
        ∀ id ∈ (store.subscribe ids owner).1.map Prod.fst, id ∉ waiting) ∧
      (subscriber.futureIds = none →
        subscriber.minimumSequence = some store.nextCompletionSequence) := by
  unfold subscribe
  split
  · exact .inr ⟨_, rfl, fun _ hnone => (by cases hnone), fun _ => rfl⟩
  · rename_i ids
    dsimp only
    split
    · exact .inl rfl
    · refine .inr ⟨_, rfl, fun waiting hwaiting id hid hmem => ?_, fun hsome => by cases hsome⟩
      obtain rfl := Option.some.inj hwaiting
      exact (Finset.mem_sdiff.mp hmem).2 (List.mem_toFinset.mpr hid)

theorem delivery_subscribed (h : world.Delivery) (ids : Option (List Id)) (owner : Owner)
    (hsound : (world.subscribed ids owner).Sound) : (world.subscribed ids owner).Delivery := by
  -- a result handed out at once is that of a completed future
  have himmediate : ∀ id ∈ (world.store.subscribe ids owner).1.map Prod.fst,
      ∃ sequence entry result, world.store.futures.lookup id = some entry ∧
        entry.state = .completed result sequence := by
    intro id hid
    obtain ⟨p, hp, rfl⟩ := List.mem_map.mp hid
    obtain ⟨entry, sequence, hentry, hstate, -⟩ :=
      FutureStore.resultFor_eq_some (FutureStore.mem_immediate hp)
    exact ⟨sequence, entry, _, hentry, hstate⟩
  have hnodup := world.store.nodup_immediate ids owner
  have hcases := world.store.subscribe_cases ids owner
  unfold FutureWorld.subscribed at hsound ⊢
  generalize world.store.subscribe ids owner = answer at himmediate hnodup hcases hsound ⊢
  obtain ⟨immediate, number, store⟩ := answer
  dsimp only at himmediate hnodup hcases hsound ⊢
  have hcalls : ∀ call ∈ world.calls ++ [⟨number, immediate.map Prod.fst⟩], call ∈ world.calls ∨
      call = ⟨number, immediate.map Prod.fst⟩ := fun call hcall =>
    (List.mem_append.mp hcall).imp_right List.mem_singleton.mp
  -- what a task says of the subscribers there were still holds
  have hstore : store.futures = world.store.futures ∧
      store.nextCompletionSequence = world.store.nextCompletionSequence ∧
      world.store.nextSubscriberId ≤ store.nextSubscriberId ∧
      (∀ number', number = some number' →
        number' = world.store.nextSubscriberId ∧ number' < store.nextSubscriberId) ∧
      ∀ number' subscriber, store.subscribers.lookup number' = some subscriber →
        world.store.subscribers.lookup number' = some subscriber ∨
          (number' = world.store.nextSubscriberId ∧ number = some number' ∧
            (∀ waiting, subscriber.futureIds = some waiting →
              ∀ id ∈ immediate.map Prod.fst, id ∉ waiting) ∧
            (subscriber.futureIds = none →
              subscriber.minimumSequence = some world.store.nextCompletionSequence)) := by
    rcases hcases with hnone | ⟨added, hadded, hfinite, hall⟩
    · obtain ⟨rfl, rfl⟩ := Prod.mk.inj hnone
      exact ⟨rfl, rfl, Nat.le_refl _, nofun, fun _ _ hlookup => .inl hlookup⟩
    · obtain ⟨rfl, rfl⟩ := Prod.mk.inj hadded
      refine ⟨rfl, rfl, Nat.le_succ _, fun number' hnumber => ?_, fun number' subscriber hlookup => ?_⟩
      · obtain rfl := Option.some.inj hnumber
        exact ⟨rfl, Nat.lt_succ_self _⟩
      · dsimp only at hlookup
        rw [OrderedMap.lookup_set] at hlookup
        split at hlookup
        · rename_i hsame
          obtain rfl := Option.some.inj hlookup
          exact .inr ⟨hsame, by rw [hsame], hfinite, hall⟩
        · exact .inl hlookup
  obtain ⟨hfutures, hsequence, hnext, hnumber, hsubscribers⟩ := hstore
  have hsequenceOf (id : Id) : store.sequenceOf id = world.store.sequenceOf id := by
    unfold FutureStore.sequenceOf
    rw [hfutures]
  refine ⟨hsound, ⟨?_, ?_, ?_⟩, ?_, ?_, ?_⟩
  · intro call hcall number' hnumber'
    rcases hcalls call hcall with hold | rfl
    · exact Nat.lt_of_lt_of_le (h.numbered.call_lt call hold number' hnumber') hnext
    · exact (hnumber number' hnumber').2
  · intro number' subscriber hlookup
    rcases hsubscribers number' subscriber hlookup with hold | ⟨-, hnew, -⟩
    · exact Nat.lt_of_lt_of_le (h.numbered.subscriber_lt number' subscriber hold) hnext
    · exact (hnumber number' hnew).2
  · intro id sequence hs
    dsimp only at hs ⊢
    rw [hsequenceOf] at hs
    rw [hsequence]
    exact h.numbered.sequence_lt id sequence hs
  · intro call hcall
    rcases hcalls call hcall with hold | rfl
    · exact h.nodup call hold
    · exact hnodup
  · intro call hcall id hid
    rcases hcalls call hcall with hold | rfl
    · exact h.issued call hold id hid
    · obtain ⟨_, entry, _, hentry, -⟩ := himmediate id hid
      exact h.sound.futureIssued id entry hentry
  · intro id task htask
    have hok := h.tasks id task htask
    cases task with
    | executing owner' discard =>
      intro call hcall hid
      rcases hcalls call hcall with hold | rfl
      · exact hok call hold hid
      · -- the future of a task at work is pending
        obtain ⟨_, entry, _, hentry, hstate⟩ := himmediate id hid
        rw [h.sound.executing id owner' discard entry htask hentry] at hstate
        cases hstate
    | notifying owner' result =>
      intro call hcall hid number' subscriber hnumber' hlookup
      rcases hsubscribers number' subscriber hlookup with hold | ⟨hfresh, hnew, hfinite, hall⟩
      · rcases hcalls call hcall with hcall | rfl
        · have hunmatched := hok call hcall hid number' subscriber hnumber' hold
          refine ⟨hunmatched.finite, fun hnone => ?_⟩
          obtain ⟨minimum, hsome, hlt⟩ := hunmatched.all hnone
          refine ⟨minimum, hsome, fun sequence hs => hlt sequence ?_⟩
          rwa [← hsequenceOf]
        · have hlt := h.numbered.subscriber_lt number' subscriber hold
          rw [(hnumber number' hnumber').1] at hlt
          exact absurd hlt (Nat.lt_irrefl _)
      · rcases hcalls call hcall with hcall | rfl
        · have hlt := h.numbered.call_lt call hcall number' hnumber'
          rw [hfresh] at hlt
          exact absurd hlt (Nat.lt_irrefl _)
        · refine ⟨fun waiting hwaiting => hfinite waiting hwaiting id hid, fun hnone => ?_⟩
          refine ⟨_, hall hnone, fun sequence hs => ?_⟩
          rw [hsequenceOf] at hs
          exact h.numbered.sequence_lt id sequence hs
    | yielding result waiting deliveries =>
      refine ⟨hok.1, fun number' hmem => ?_⟩
      obtain ⟨hlt, hfree⟩ := hok.2 number' hmem
      refine ⟨Nat.lt_of_lt_of_le hlt hnext, fun call hcall hnumber' => ?_⟩
      rcases hcalls call hcall with hold | rfl
      · exact hfree call hold hnumber'
      · -- a subscriber in the snapshot was there before
        rw [(hnumber number' hnumber').1] at hlt
        exact absurd hlt (Nat.lt_irrefl _)

/-! ## Runs -/

theorem delivery_step (h : world.Delivery)
    (hstep : Restrict FutureStep SnapshotInTime world event world') : world'.Delivery := by
  obtain ⟨hstep, hallowed⟩ := hstep
  have hsound := sound_step h.sound hstep
  cases hstep with
  | register registration id hfresh => exact delivery_registered h registration hfresh
  | finish id result htask hfinish => exact delivery_finished h htask hfinish hallowed
  | snapshot id htask => exact delivery_snapshot h htask hsound hallowed
  | yield id number outcome htask => exact delivery_yielded h htask hsound
  | @settle result deliveries id htask =>
    obtain ⟨subscribers, hsettle⟩ := world.store.settle_eq id deliveries
    have hfewer := fewer_settle world.store id deliveries
    rw [hsettle] at hfewer hsound ⊢
    refine h.only id hsound rfl (fun _ hid => hid) hfewer rfl h.numbered.sequence_lt
      (fun _ _ _ hs => hs) ?_ ?_
    · intro id' task hne hsome
      change (world.tasks.delete id).lookup id' = some task at hsome
      rwa [OrderedMap.lookup_delete, if_neg hne] at hsome
    · intro task hsome
      change (world.tasks.delete id).lookup id = some task at hsome
      rw [OrderedMap.lookup_delete, if_pos rfl] at hsome
      cases hsome
  | cancel id owner hcancel =>
    rcases FutureStore.cancel_cases hcancel with ⟨-, entry, -, -, -, -, rfl⟩ | ⟨-, rfl⟩
    · obtain ⟨r, i, hforget⟩ := FutureStore.forget_eq
        { world.store with pendingCount := world.store.pendingCount - 1 } id
      have hsequence (id' : Id) (sequence : Nat)
          (hs : FutureStore.sequenceOf (FutureStore.forget
            { world.store with pendingCount := world.store.pendingCount - 1 } id) id' =
              some sequence) : world.store.sequenceOf id' = some sequence := by
        refine sequenceOf_mono (fun entry he => ?_) hs
        rw [FutureStore.lookup_forget] at he
        split at he
        · cases he
        · exact he
      rw [hforget] at hsound hsequence ⊢
      refine h.only id hsound rfl (fun _ hid => hid) (.refl world.store) rfl ?_ ?_
        (fun _ _ _ hsome => hsome) ?_
      · exact fun id' sequence hs => h.numbered.sequence_lt id' sequence (hsequence id' sequence hs)
      · exact fun id' sequence _ hs => hsequence id' sequence hs
      · intro task hsome
        exact (h.tasks id task hsome).mono (same_calls world.calls id) (.refl world.store)
          (hsequence id) (Nat.le_refl _)
    · exact h
  | subscribe ids owner => exact delivery_subscribed h ids owner hsound
  | terminate number =>
    have hfewer := fewer_delete world.store number
    refine ⟨hsound, ⟨h.numbered.call_lt, ?_, h.numbered.sequence_lt⟩, h.nodup, h.issued, ?_⟩
    · intro number' subscriber hlookup
      obtain ⟨before, hbefore, -⟩ := hfewer number' subscriber hlookup
      exact h.numbered.subscriber_lt number' before hbefore
    · intro id task hsome
      exact (h.tasks id task hsome).mono (same_calls world.calls id) hfewer (fun _ hs => hs)
        (Nat.le_refl _)

/-- If futures are stored at the snapshots, no call gets a result twice. -/
theorem delivery_atMostOnce {maxPendingFutures maxCompletedFutures : Nat}
    {events : List (FutureEvent Id Key Owner Result)}
    (hrun : Run (Restrict FutureStep SnapshotInTime)
      (.init maxPendingFutures maxCompletedFutures) events world) :
    ∀ call ∈ world.calls, call.received.Nodup :=
  (hrun.invariant (I := FutureWorld.Delivery) (fun _ _ _ => delivery_step)
    (delivery_init maxPendingFutures maxCompletedFutures)).nodup

/-- A subscribe call that finds the result before the task notifies. -/
theorem delivery_atMostOnce_stored :
    ∃ (events : List (FutureEvent Nat Nat Nat Nat)) (world : FutureWorld Nat Nat Nat Nat),
      Run (Restrict FutureStep SnapshotInTime) (.init 4 4) events world ∧
        (∃ call ∈ world.calls, call.received = [1]) ∧ ∀ call ∈ world.calls, call.received.Nodup := by
  have hrun : Run (Restrict FutureStep SnapshotInTime)
      (.init 4 4 : FutureWorld Nat Nat Nat Nat) _ _ :=
    .cons ⟨.register ⟨none, 0, false⟩ 1 (by decide), trivial⟩
      (.cons ⟨.finish 1 10 rfl rfl, by unfold SnapshotInTime; decide⟩
        (.cons ⟨.subscribe none 0, trivial⟩
          (.single ⟨.snapshot 1 rfl, .inl rfl⟩)))
  exact ⟨_, _, hrun, ⟨_, List.mem_singleton_self _, rfl⟩, delivery_atMostOnce hrun⟩

/-- Room for one: evicted before its snapshot, a result is delivered twice. -/
theorem delivery_evicted :
    ∃ (events : List (FutureEvent Nat Nat Nat Nat)) (world : FutureWorld Nat Nat Nat Nat),
      Run FutureStep (.init 4 1) events world ∧
        ∃ call ∈ world.calls, call.received = [1, 1] := by
  have hrun : Run FutureStep (.init 4 1 : FutureWorld Nat Nat Nat Nat) _ _ :=
    .cons (.register ⟨none, 0, false⟩ 1 (by decide))
      (.cons (.register ⟨none, 0, false⟩ 2 (by decide))
        (.cons (.finish 1 10 rfl rfl)
          (.cons (.subscribe none 0)
            (.cons (.finish 2 20 rfl rfl)
              (.cons (.snapshot 1 rfl)
                (.single (.yield 1 0 .enqueued rfl)))))))
  exact ⟨_, _, hrun, _, List.mem_singleton_self _, rfl⟩

end Bebop.Swift.Rpc
