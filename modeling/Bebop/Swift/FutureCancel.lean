import Bebop.Swift.FutureInvariant

/-!
# Bebop — cancelled futures in Swift

What a cancellation promises (`CancelHolds`): the future's result is delivered to nobody,
its task's last section leaves the counter alone, and its key is free again. The first
fails where the future was registered with `discardResult`: a task that discards its result
notifies the subscribers whether or not there was a future to remove.
-/

set_option linter.unusedSectionVars false

namespace Bebop.Swift.Rpc

open Transition

variable {Id Key Owner Result : Type} [DecidableEq Id] [DecidableEq Key] [DecidableEq Owner]

/-- The step hands a future's result to a subscriber. -/
def FutureEvent.Delivers (id : Id) : FutureEvent Id Key Owner Result → Prop
  | .yield id' _ outcome => id' = id ∧ outcome = .enqueued
  | .subscribe _ _ immediate => id ∈ immediate.map Prod.fst
  | _ => False

/-- What the cancellation that leads to `cancelled` promises. -/
structure CancelHolds (world cancelled : FutureWorld Id Key Owner Result) (id : Id) : Prop where
  silent : ∀ events later, Run FutureStep cancelled events later → ∀ event ∈ events, ¬event.Delivers id
  counter : ∀ later, Reaches FutureStep cancelled later → ∀ result after,
    FutureStep later (.finish id result) after → after.store.pendingCount = later.store.pendingCount
  key : ∀ key, world.store.idempotencyIndex.lookup key = some id → ∀ registration,
    registration.idempotencyKey = some key → ∀ id', id' ∉ cancelled.issued →
      (cancelled.store.register registration id').1 = .ok (.started id')

variable {world world' : FutureWorld Id Key Owner Result} {event : FutureEvent Id Key Owner Result}
  {id : Id} {owner : Owner}

/-! ## A future that is gone -/

structure Gone (world : FutureWorld Id Key Owner Result) (id : Id) : Prop where
  sound : world.Sound
  issued : id ∈ world.issued
  future : world.store.futures.lookup id = none

theorem FutureStore.removePending_of_none {store : FutureStore Id Key Owner Result}
    (h : store.futures.lookup id = none) : store.removePending id = some store := by
  rw [removePending, h]

theorem FutureStore.complete_of_none {store : FutureStore Id Key Owner Result}
    (h : store.futures.lookup id = none) (result : Result) :
    store.complete id result = some (none, store) := by
  rw [complete, h]

theorem Gone.step (h : Gone world id) (hstep : FutureStep world event world') : Gone world' id := by
  have hsound := sound_step h.sound hstep
  have hissued := h.issued
  have hfuture := h.future
  cases hstep with
  | register registration id' hfresh =>
    have hne : id ≠ id' := by
      rintro rfl
      exact hfresh hissued
    refine ⟨hsound, ?_, ?_⟩
    · unfold FutureWorld.registered
      split
      · exact List.mem_cons_of_mem _ hissued
      · exact hissued
    · unfold FutureWorld.registered
      rcases world.store.register_cases registration id' with
        (⟨error, hcall⟩ | ⟨known, hcall⟩) | ⟨-, -, hcall⟩
      · rw [hcall]
        exact hfuture
      · rw [hcall]
        exact hfuture
      · rw [hcall]
        change (world.store.start registration id').futures.lookup id = none
        rw [FutureStore.lookup_start, if_neg hne, hfuture]
  | @finish _ owner' discard id' result htask hfinish =>
    unfold FutureWorld.finished at hfinish
    split at hfinish
    · obtain ⟨store, hremove, rfl⟩ := Option.map_eq_some_iff.mp hfinish
      refine ⟨hsound, hissued, ?_⟩
      rcases FutureStore.removePending_cases hremove with ⟨entry, hentry, -, -, rfl⟩ | ⟨rfl, -⟩
      · dsimp only
        rw [FutureStore.lookup_forget]
        split
        · rfl
        · exact hfuture
      · exact hfuture
    · obtain ⟨⟨answer, store⟩, hcomplete, rfl⟩ := Option.map_eq_some_iff.mp hfinish
      have hstore : store.futures.lookup id = none := by
        rcases FutureStore.complete_cases hcomplete with ⟨entry, hentry, -, -, -, hevicted⟩ | ⟨-, rfl, -⟩
        · have hne : id ≠ id' := by
            rintro rfl
            rw [hfuture] at hentry
            cases hentry
          rw [Option.eq_none_iff_forall_not_mem]
          intro e he
          have hbefore := hevicted.futures id e he
          change (world.store.futures.set id' _).lookup id = some e at hbefore
          rw [OrderedMap.lookup_set, if_neg hne, hfuture] at hbefore
          cases hbefore
        · exact hfuture
      cases answer <;> exact ⟨hsound, hissued, hstore⟩
  | snapshot _ _ => exact ⟨hsound, hissued, hfuture⟩
  | yield _ _ _ _ => exact ⟨hsound, hissued, hfuture⟩
  | @settle _ deliveries id' htask =>
    obtain ⟨subscribers, hsettle⟩ := world.store.settle_eq id' deliveries
    refine ⟨hsound, hissued, ?_⟩
    dsimp only
    rw [hsettle]
    exact hfuture
  | cancel id' owner' hcancel =>
    refine ⟨hsound, hissued, ?_⟩
    rcases FutureStore.cancel_cases hcancel with ⟨-, entry, hentry, -, -, -, rfl⟩ | ⟨-, rfl⟩
    · dsimp only
      rw [FutureStore.lookup_forget]
      split
      · rfl
      · exact hfuture
    · exact hfuture
  | subscribe ids owner' =>
    obtain ⟨subscribers, next, hsubscribe⟩ := world.store.subscribe_eq ids owner'
    refine ⟨hsound, hissued, ?_⟩
    change (world.store.subscribe ids owner').2.2.futures.lookup id = none
    rw [hsubscribe]
    exact hfuture
  | terminate _ => exact ⟨hsound, hissued, hfuture⟩

theorem Gone.finish (h : Gone world id) {result : Result}
    (hstep : FutureStep world (.finish id result) world') : world'.store = world.store := by
  cases hstep with
  | finish _ _ htask hfinish =>
    unfold FutureWorld.finished at hfinish
    split at hfinish
    · rw [FutureStore.removePending_of_none h.future] at hfinish
      obtain rfl := Option.some.inj hfinish
      rfl
    · rw [FutureStore.complete_of_none h.future] at hfinish
      obtain rfl := Option.some.inj hfinish
      rfl

/-! ## Immediate results -/

theorem FutureStore.mem_immediateFor {store : FutureStore Id Key Owner Result} {ids : List Id}
    {seen : Finset Id} {p : Id × Result} (h : p ∈ store.immediateFor owner ids seen) :
    store.resultFor owner p.1 = some p.2 ∧ p.1 ∈ ids ∧ p.1 ∉ seen := by
  induction ids generalizing seen with
  | nil => cases h
  | cons id ids ih =>
    unfold immediateFor at h
    split at h
    · obtain ⟨hresult, hmem, hnot⟩ := ih h
      exact ⟨hresult, List.mem_cons_of_mem _ hmem, hnot⟩
    · rename_i hseen
      split at h
      · obtain ⟨hresult, hmem, hnot⟩ := ih h
        exact ⟨hresult, List.mem_cons_of_mem _ hmem, fun hp => hnot (Finset.mem_insert_of_mem hp)⟩
      · rename_i result hsome
        rcases List.mem_cons.mp h with rfl | hrest
        · exact ⟨hsome, List.mem_cons_self, hseen⟩
        · obtain ⟨hresult, hmem, hnot⟩ := ih hrest
          exact ⟨hresult, List.mem_cons_of_mem _ hmem, fun hp => hnot (Finset.mem_insert_of_mem hp)⟩

theorem FutureStore.mem_immediate {store : FutureStore Id Key Owner Result} {ids : Option (List Id)}
    {p : Id × Result} (h : p ∈ (store.subscribe ids owner).1) :
    store.resultFor owner p.1 = some p.2 := by
  unfold subscribe at h
  split at h
  · obtain ⟨q, -, hq⟩ := List.mem_filterMap.mp h
    obtain ⟨result, hresult, rfl⟩ := Option.map_eq_some_iff.mp hq
    exact hresult
  · dsimp only at h
    split at h <;> exact (mem_immediateFor h).1

theorem FutureStore.resultFor_eq_some {store : FutureStore Id Key Owner Result} {result : Result}
    (h : store.resultFor owner id = some result) :
    ∃ entry sequence, store.futures.lookup id = some entry ∧
      entry.state = .completed result sequence ∧ entry.owner = owner := by
  unfold resultFor at h
  split at h
  · cases h
  · rename_i entry hentry
    split at h
    · rename_i result' sequence hstate
      split at h
      · rename_i howner
        obtain rfl := Option.some.inj h
        exact ⟨entry, sequence, hentry, hstate, howner⟩
      · cases h
    · cases h

/-! ## Without `discardResult` -/

/-- The future is gone, and its task has nothing to deliver. -/
structure Dead (world : FutureWorld Id Key Owner Result) (id : Id) : Prop where
  gone : Gone world id
  task : ∀ task, world.tasks.lookup id = some task → ∃ owner, task = .executing owner false

theorem Dead.step (h : Dead world id) (hstep : FutureStep world event world') :
    Dead world' id ∧ ¬event.Delivers id := by
  have hgone := h.gone.step hstep
  have htask := h.task
  cases hstep with
  | register registration id' hfresh =>
    have hne : id ≠ id' := by
      rintro rfl
      exact hfresh h.gone.issued
    refine ⟨⟨hgone, ?_⟩, nofun⟩
    unfold FutureWorld.registered
    rcases world.store.register_cases registration id' with
      (⟨error, hcall⟩ | ⟨known, hcall⟩) | ⟨-, -, hcall⟩
    · rw [hcall]
      exact htask
    · rw [hcall]
      exact htask
    · rw [hcall]
      intro task hsome
      change (world.tasks.set id' _).lookup id = some task at hsome
      rw [OrderedMap.lookup_set, if_neg hne] at hsome
      exact htask task hsome
  | @finish _ owner' discard id' result hexecuting hfinish =>
    refine ⟨⟨hgone, ?_⟩, nofun⟩
    unfold FutureWorld.finished at hfinish
    by_cases hid : id = id'
    · -- its own task finds no future to complete, and ends
      subst hid
      obtain ⟨owner'', hsame⟩ := htask _ hexecuting
      obtain ⟨rfl, rfl⟩ := TaskState.executing.inj hsame
      rw [if_neg nofun, FutureStore.complete_of_none h.gone.future] at hfinish
      obtain rfl := Option.some.inj hfinish
      intro task hsome
      change (world.tasks.delete id).lookup id = some task at hsome
      rw [OrderedMap.lookup_delete, if_pos rfl] at hsome
      cases hsome
    · split at hfinish
      · obtain ⟨store, -, rfl⟩ := Option.map_eq_some_iff.mp hfinish
        intro task hsome
        change (world.tasks.set id' _).lookup id = some task at hsome
        rw [OrderedMap.lookup_set, if_neg hid] at hsome
        exact htask task hsome
      · obtain ⟨⟨answer, store⟩, -, rfl⟩ := Option.map_eq_some_iff.mp hfinish
        intro task hsome
        cases answer with
        | none =>
          change (world.tasks.delete id').lookup id = some task at hsome
          rw [OrderedMap.lookup_delete, if_neg hid] at hsome
          exact htask task hsome
        | some owner'' =>
          change (world.tasks.set id' _).lookup id = some task at hsome
          rw [OrderedMap.lookup_set, if_neg hid] at hsome
          exact htask task hsome
  | snapshot id' hnotifying =>
    refine ⟨⟨hgone, fun task hsome => ?_⟩, nofun⟩
    change (world.tasks.set id' _).lookup id = some task at hsome
    rw [OrderedMap.lookup_set] at hsome
    split at hsome
    · rename_i hid
      obtain ⟨_, hsame⟩ := htask _ (hid ▸ hnotifying)
      cases hsame
    · exact htask task hsome
  | yield id' subscriber outcome hyielding =>
    have hid : id ≠ id' := by
      rintro rfl
      obtain ⟨_, hsame⟩ := htask _ hyielding
      cases hsame
    refine ⟨⟨hgone, fun task hsome => ?_⟩, fun hdelivers => hid hdelivers.1.symm⟩
    change (world.tasks.set id' _).lookup id = some task at hsome
    rw [OrderedMap.lookup_set, if_neg hid] at hsome
    exact htask task hsome
  | settle id' hyielding =>
    refine ⟨⟨hgone, fun task hsome => ?_⟩, nofun⟩
    change (world.tasks.delete id').lookup id = some task at hsome
    rw [OrderedMap.lookup_delete] at hsome
    split at hsome
    · cases hsome
    · exact htask task hsome
  | cancel _ _ _ => exact ⟨⟨hgone, htask⟩, nofun⟩
  | subscribe ids owner' =>
    refine ⟨⟨hgone, htask⟩, fun hdelivers => ?_⟩
    obtain ⟨p, hp, rfl⟩ := List.mem_map.mp hdelivers
    obtain ⟨entry, _, hentry, -, -⟩ :=
      FutureStore.resultFor_eq_some (FutureStore.mem_immediate hp)
    rw [h.gone.future] at hentry
    cases hentry
  | terminate _ => exact ⟨⟨hgone, htask⟩, nofun⟩

/-! ## With `discardResult` -/

theorem Gone.delivered (h : Gone world id) (result : Result)
    (htask : world.tasks.lookup id = some (.executing owner true)) :
    ∃ events later, Run FutureStep world events later ∧ ∃ event ∈ events, event.Delivers id := by
  let opened := world.subscribed none owner
  let notifying : FutureWorld Id Key Owner Result :=
    { opened with tasks := opened.tasks.set id (.notifying owner result) }
  have hfinish : opened.finished id owner true result = some notifying := by
    have hremove : opened.store.removePending id = some opened.store :=
      FutureStore.removePending_of_none h.future
    rw [FutureWorld.finished, if_pos rfl, hremove]
    rfl
  have hnotifying : notifying.tasks.lookup id = some (.notifying owner result) := by
    rw [OrderedMap.lookup_set, if_pos rfl]
  -- the new subscriber matches, so the list of those to yield to has a first one
  have hmatch : notifying.store.matching id owner ≠ [] := by
    have hsubscriber : notifying.store.subscribers.lookup world.store.nextSubscriberId =
        some ⟨world.store.nextSubscriberId, owner, none, some world.store.nextCompletionSequence⟩ :=
      (OrderedMap.lookup_set ..).trans (if_pos rfl)
    have hsequence : notifying.store.sequenceOf id = none := by
      have hfuture : notifying.store.futures.lookup id = none := h.future
      rw [FutureStore.sequenceOf, hfuture]
    refine List.ne_nil_of_mem (List.mem_map.mpr ⟨_, List.mem_filter.mpr
      ⟨OrderedMap.mem_pairs.mpr hsubscriber, ?_⟩, rfl⟩)
    rw [hsequence]
    unfold Subscriber.accepts
    rw [if_pos rfl]
  obtain ⟨subscriber, waiting, hwaiting⟩ := List.exists_cons_of_ne_nil hmatch
  let yielding : FutureWorld Id Key Owner Result :=
    { notifying with
      tasks := notifying.tasks.set id (.yielding result (notifying.store.matching id owner) []) }
  have hyielding : yielding.tasks.lookup id = some (.yielding result (subscriber :: waiting) []) := by
    change (notifying.tasks.set id _).lookup id = _
    rw [OrderedMap.lookup_set, if_pos rfl, hwaiting]
  exact ⟨_, _, .cons (.subscribe none owner) (.cons (.finish id result htask hfinish)
    (.cons (.snapshot id hnotifying) (.single (.yield id subscriber .enqueued hyielding)))),
    .yield id subscriber .enqueued, by simp, rfl, rfl⟩

/-! ## Cancellations -/

theorem gone_of_cancel (h : world.Sound) {store : FutureStore Id Key Owner Result}
    (hcancel : world.store.cancel id owner = some (true, store)) :
    Gone { world with store } id ∧ (∃ discard, world.tasks.lookup id = some (.executing owner discard)) ∧
      (∀ key, world.store.idempotencyIndex.lookup key = some id →
        store.idempotencyIndex.lookup key = none) ∧
      store.maxPendingFutures = world.store.maxPendingFutures ∧
      store.pendingCount + 1 = world.store.pendingCount := by
  have hsound := sound_cancel h hcancel
  rcases FutureStore.cancel_cases hcancel with
    ⟨-, entry, hentry, howner, hstate, hcount, rfl⟩ | ⟨hfalse, -⟩
  · obtain ⟨discard, htask⟩ := h.pending id entry hentry hstate
    rw [howner] at htask
    obtain ⟨r, i, hframe⟩ := FutureStore.forget_eq
      { world.store with pendingCount := world.store.pendingCount - 1 } id
    refine ⟨⟨hsound, h.futureIssued id entry hentry, ?_⟩, ⟨discard, htask⟩, fun key hkey => ?_, ?_, ?_⟩
    · dsimp only
      rw [FutureStore.lookup_forget, if_pos rfl]
    · have hreverse := (h.keys key id).mp hkey
      unfold FutureStore.forget
      dsimp only
      rw [hreverse]
      dsimp only
      rw [OrderedMap.lookup_delete, if_pos rfl]
    · rw [hframe]
    · rw [hframe]
      dsimp only
      omega
  · cases hfalse

/-- The promise is kept exactly if the future has no `discardResult`. -/
theorem cancelHolds_iff [Inhabited Result] {maxPendingFutures maxCompletedFutures : Nat}
    (hreaches : Reaches FutureStep (.init maxPendingFutures maxCompletedFutures) world)
    {store : FutureStore Id Key Owner Result}
    (hcancel : world.store.cancel id owner = some (true, store)) :
    CancelHolds world { world with store } id ↔
      world.tasks.lookup id ≠ some (.executing owner true) := by
  have hsound := sound_of_reaches hreaches
  obtain ⟨hgone, ⟨discard, htask⟩, hkey, hlimit, hcount⟩ := gone_of_cancel hsound hcancel
  constructor
  · intro hholds hdiscard
    obtain ⟨events, later, hrun, event, hmem, hdelivers⟩ := hgone.delivered default hdiscard
    exact hholds.silent events later hrun event hmem hdelivers
  · intro hkept
    have hdead : Dead { world with store } id := by
      refine ⟨hgone, fun task hsome => ⟨owner, ?_⟩⟩
      obtain rfl := Option.some.inj (htask.symm.trans hsome)
      cases discard with
      | true => exact absurd htask hkept
      | false => rfl
    refine ⟨?_, ?_, ?_⟩
    · intro events later hrun
      exact hrun.labels (I := (Dead · id)) (P := (¬·.Delivers id)) (fun _ _ _ => Dead.step) hdead
    · rintro later ⟨events, hrun⟩ result after hstep
      have hlater : Gone later id := hrun.invariant (I := (Gone · id)) (fun _ _ _ => Gone.step) hgone
      rw [hlater.finish hstep]
    · intro key hindex registration hregistration id' hfresh
      have hroom : ¬(store.maxPendingFutures < unlimited ∧
          store.pendingCount ≥ store.maxPendingFutures) := by
        rintro ⟨hlimited, hfull⟩
        rw [hlimit] at hlimited hfull
        have hbefore := hsound.limit hlimited
        omega
      dsimp only
      rw [FutureStore.register, hregistration, Option.bind_some, hkey key hindex]
      dsimp only
      rw [if_neg hroom]

/-- A cancelled future whose result is kept. -/
theorem cancelHolds_kept :
    ∃ (world : FutureWorld Nat Nat Nat Nat) (store : FutureStore Nat Nat Nat Nat),
      world.store.cancel 5 0 = some (true, store) ∧ CancelHolds world { world with store } 5 := by
  let world : FutureWorld Nat Nat Nat Nat := (FutureWorld.init 1 1).registered ⟨some 7, 0, false⟩ 5
  have hreaches : Reaches FutureStep (.init 1 1) world :=
    ⟨_, .single (.register ⟨some 7, 0, false⟩ 5 (by decide))⟩
  have hcancel : world.store.cancel 5 0 =
      some (true, { world.store with pendingCount := 0 }.forget 5) := rfl
  exact ⟨world, _, hcancel, (cancelHolds_iff hreaches hcancel).mpr (by decide)⟩

/-- A cancelled future whose result is discarded: it is delivered all the same. -/
theorem cancelHolds_discarded :
    ∃ (world : FutureWorld Nat Nat Nat Nat) (store : FutureStore Nat Nat Nat Nat),
      Reaches FutureStep (.init 1 1) world ∧ world.store.cancel 5 0 = some (true, store) ∧
        ¬CancelHolds world { world with store } 5 := by
  let world : FutureWorld Nat Nat Nat Nat := (FutureWorld.init 1 1).registered ⟨none, 0, true⟩ 5
  have hreaches : Reaches FutureStep (.init 1 1) world :=
    ⟨_, .single (.register ⟨none, 0, true⟩ 5 (by decide))⟩
  have hcancel : world.store.cancel 5 0 =
      some (true, { world.store with pendingCount := 0 }.forget 5) := rfl
  refine ⟨world, _, hreaches, hcancel, fun hholds => ?_⟩
  obtain ⟨hgone, -⟩ := gone_of_cancel (sound_of_reaches hreaches) hcancel
  obtain ⟨events, later, hrun, event, hmem, hdelivers⟩ := hgone.delivered 9 rfl
  exact hholds.silent events later hrun event hmem hdelivers

end Bebop.Swift.Rpc
