import Bebop.TypeScript.ResolveStream

/-!
# Bebop — the storage side of resolve streams

What a step of the storage means to one of its subscriptions. A future that was completed,
or has left, does not come back (`Past`), so its result is handed out once. The subscriber
waits for the identifiers that have not been handed out (`Listed`).
-/

set_option linter.unusedSectionVars false

namespace Bebop.TypeScript.Rpc

open Transition
open InMemoryFutureStorage

variable {Id Key Owner Result : Type} [DecidableEq Id] [DecidableEq Key] [DecidableEq Owner]
  {futures futures' : FutureWorld Id Key Owner Result} {event : FutureEvent Id Key Owner Result}
  {maxPending maxCompleted : Limit} {id : Id}

def FutureWorld.scheduled (futures : FutureWorld Id Key Owner Result) (registration : FutureRegistration Key Owner)
    (new : Id) : FutureWorld Id Key Owner Result :=
  { futures with
    storage := futures.storage.schedule registration new
    tasks := futures.tasks.set new ⟨registration.discardResult, false⟩
    issued := new :: futures.issued }

theorem registered_or (futures : FutureWorld Id Key Owner Result) (registration : FutureRegistration Key Owner)
    (new : Id) : futures.registered registration new = futures ∨
      futures.registered registration new = futures.scheduled registration new := by
  unfold FutureWorld.registered
  rcases register_cases futures.storage registration new with ⟨answer, heq, hnot⟩ | ⟨-, heq⟩
  · rw [heq]
    cases answer with
    | error error => exact .inl rfl
    | ok registered =>
      cases registered with
      | existing known => exact .inl rfl
      | scheduled new' => exact absurd rfl (hnot new')
  · rw [heq]
    exact .inr rfl

/-! ## Completed futures -/

/-- The identifier was issued, and its future is not pending any more. -/
def Past (futures : FutureWorld Id Key Owner Result) (id : Id) : Prop :=
  id ∈ futures.issued ∧ ∀ entry, futures.storage.entries.lookup id = some entry → ¬entry.isPending

theorem lookup_of_complete (storage : InMemoryFutureStorage Id Key Owner Result) {id' : Id} {result : Result}
    {discard : Bool} {e : FutureEntry Key Owner Result}
    (h : (storage.complete id result discard).2.entries.lookup id' = some e) (hpending : e.isPending) :
    id' ≠ id ∧ storage.entries.lookup id' = some e := by
  cases hentry : storage.entries.lookup id with
  | none =>
    rw [complete_of_lookup_none hentry] at h
    refine ⟨?_, h⟩
    rintro rfl
    cases hentry.symm.trans h
  | some entry =>
    by_cases hwas : entry.isPending
    · rw [complete_of_pending hentry hwas] at h
      have hset : (storage.entries.set id { entry with state := .completed result }).lookup id' = some e ∨
          (storage.entries.delete id).lookup id' = some e := by
        cases discard with
        | true => exact .inr h
        | false =>
          let kept : InMemoryFutureStorage Id Key Owner Result :=
            { storage.deliverAll entry.owner id result with
              pendingCount := storage.pendingCount - 1
              entries := storage.entries.set id { entry with state := .completed result }
              completedOrder := storage.completedOrder.push id }
          obtain ⟨entries, _, _, hframe, hsub⟩ := evictLoop_frame kept.completedOrder.length kept
          have hlookup : (evictLoop kept.completedOrder.length kept).entries.lookup id' = some e := h
          rw [hframe] at hlookup
          exact .inl (hsub id' e hlookup)
      rw [OrderedMap.lookup_set, OrderedMap.lookup_delete] at hset
      by_cases hsame : id' = id
      · rw [if_pos hsame, if_pos hsame] at hset
        rcases hset with hset | hset
        · cases hset
          cases hpending
        · cases hset
      · rw [if_neg hsame, if_neg hsame] at hset
        exact ⟨hsame, hset.elim (fun hset => hset) fun hset => hset⟩
    · rw [complete_of_completed hentry hwas] at h
      refine ⟨?_, h⟩
      rintro rfl
      obtain rfl := Option.some.inj (hentry.symm.trans h)
      exact hwas hpending

theorem Past.step (h : Past futures id) (hstep : FutureStep futures event futures') : Past futures' id := by
  obtain ⟨hissued, hpast⟩ := h
  cases hstep with
  | register registration new hfresh =>
    rcases registered_or futures registration new with hsame | hscheduled
    · rw [hsame]
      exact ⟨hissued, hpast⟩
    · rw [hscheduled]
      refine ⟨List.mem_cons_of_mem _ hissued, fun entry hentry => ?_⟩
      change (futures.storage.entries.set new _).lookup id = some entry at hentry
      rw [OrderedMap.lookup_set, if_neg] at hentry
      · exact hpast entry hentry
      · rintro rfl
        exact hfresh hissued
  | start _ _ => exact ⟨hissued, hpast⟩
  | complete completed result _ =>
    refine ⟨hissued, fun entry hentry hpending => ?_⟩
    exact hpast entry (lookup_of_complete futures.storage hentry hpending).2 hpending
  | cancel cancelled owner =>
    refine ⟨hissued, fun entry hentry => ?_⟩
    rcases cancel_cases futures.storage cancelled owner with heq | ⟨_, -, -, heq⟩
    · rw [heq] at hentry
      exact hpast entry hentry
    · rw [heq] at hentry
      change (futures.storage.entries.delete cancelled).lookup id = some entry at hentry
      rw [OrderedMap.lookup_delete] at hentry
      split at hentry
      · cases hentry
      · exact hpast entry hentry
  | subscribe ids owner =>
    refine ⟨hissued, fun entry hentry => ?_⟩
    change (futures.storage.subscribe ids owner).2.entries.lookup id = some entry at hentry
    rw [subscribe_eq] at hentry
    exact hpast entry hentry
  | unsubscribe ref => exact ⟨hissued, hpast⟩
  | pull ref => exact ⟨hissued, hpast⟩

theorem past_completed (h : futures.Invariant maxPending maxCompleted) {entry : FutureEntry Key Owner Result}
    (hentry : futures.storage.entries.lookup id = some entry) (result : Result) (discard : Bool) :
    Past (futures.completed id result discard) id := by
  refine ⟨h.issued id (OrderedMap.mem_iff.mpr ⟨entry, hentry⟩), fun e he hpending => ?_⟩
  exact (lookup_of_complete futures.storage he hpending).1 rfl

/-! ## Subscribing -/

theorem subscribeLoop_eq (owner : Owner) (pairs : List (Id × FutureEntry Key Owner Result))
    (hnodup : (pairs.map Prod.fst).Nodup) (ids : Option (Finset Id)) :
    subscribeLoop owner pairs ids = (pairs.filterMap (ResolveWorld.heldResult owner ids),
      ids.map (· \ ((pairs.filterMap (ResolveWorld.heldResult owner ids)).map Prod.fst).toFinset)) := by
  induction pairs generalizing ids with
  | nil =>
    refine Prod.ext rfl ?_
    show ids = ids.map (· \ ∅)
    simp only [Finset.sdiff_empty, Option.map_id']
  | cons p rest ih =>
    rw [List.map_cons, List.nodup_cons] at hnodup
    obtain ⟨id, entry⟩ := p
    unfold subscribeLoop
    rw [List.filterMap_cons]
    cases hstate : entry.state with
    | pending =>
      have hnone : ResolveWorld.heldResult owner ids (id, entry) = none := by
        unfold ResolveWorld.heldResult
        rw [hstate]
      rw [hnone]
      exact ih hnodup.2 ids
    | completed result =>
      dsimp only
      by_cases htake : entry.owner = owner ∧ ids.all (id ∈ ·)
      · have hsome : ResolveWorld.heldResult owner ids (id, entry) = some (id, result) := by
          unfold ResolveWorld.heldResult
          rw [hstate]
          exact if_pos htake
        -- the rest has other identifiers, so taking this one changes nothing for it
        have hothers : rest.filterMap (ResolveWorld.heldResult owner (ids.map (·.erase id))) =
            rest.filterMap (ResolveWorld.heldResult owner ids) := by
          refine List.filterMap_congr fun p hp => ?_
          have hne : p.1 ≠ id := by
            intro hsame
            have hin : p.1 ∈ rest.map Prod.fst := List.mem_map_of_mem hp
            rw [hsame] at hin
            exact hnodup.1 hin
          have hall : (ids.map (·.erase id)).all (p.1 ∈ ·) = ids.all (p.1 ∈ ·) := by
            cases ids with
            | none => rfl
            | some ids =>
              show decide (p.1 ∈ ids.erase id) = decide (p.1 ∈ ids)
              rw [decide_eq_decide, Finset.mem_erase]
              exact and_iff_right hne
          unfold ResolveWorld.heldResult
          rw [hall]
        rw [if_pos htake, hsome, ih hnodup.2, hothers]
        refine Prod.ext rfl ?_
        show (ids.map (·.erase id)).map _ = _
        rw [Option.map_map]
        refine congrArg (fun f => Option.map f ids) (funext fun ids => ?_)
        show ids.erase id \ _ = ids \ (id :: _).toFinset
        rw [List.toFinset_cons, Finset.sdiff_insert, Finset.erase_sdiff_comm]
      · have hnone : ResolveWorld.heldResult owner ids (id, entry) = none := by
          unfold ResolveWorld.heldResult
          rw [hstate]
          exact if_neg htake
        rw [if_neg htake, hnone]
        exact ih hnodup.2 ids

theorem heldResult_some {owner : Owner} {ids : Option (Finset Id)} {p : Id × FutureEntry Key Owner Result}
    {result : Id × Result} (h : ResolveWorld.heldResult owner ids p = some result) :
    result.1 = p.1 ∧ ¬p.2.isPending ∧ ids.all (p.1 ∈ ·) := by
  unfold ResolveWorld.heldResult at h
  unfold FutureEntry.isPending
  cases hstate : p.2.state with
  | pending =>
    rw [hstate] at h
    cases h
  | completed value =>
    rw [hstate] at h
    dsimp only at h
    split at h
    · rename_i htake
      cases h
      exact ⟨rfl, fun hpending => (by cases hpending), htake.2⟩
    · cases h

theorem nodup_heldResults {owner : Owner} {ids : Option (Finset Id)} {pairs : List (Id × FutureEntry Key Owner Result)}
    (hnodup : (pairs.map Prod.fst).Nodup) :
    ((pairs.filterMap (ResolveWorld.heldResult owner ids)).map Prod.fst).Nodup := by
  have hsublist : ((pairs.filterMap (ResolveWorld.heldResult owner ids)).map Prod.fst).Sublist (pairs.map Prod.fst) := by
    clear hnodup
    induction pairs with
    | nil => exact .slnil
    | cons p rest ih =>
      rw [List.filterMap_cons]
      cases hresult : ResolveWorld.heldResult owner ids p with
      | none => exact ih.cons _
      | some result =>
        rw [List.map_cons, List.map_cons, (heldResult_some hresult).1]
        exact ih.cons_cons _
  exact hsublist.nodup hnodup

theorem past_heldResults (h : futures.Invariant maxPending maxCompleted) {owner : Owner} {ids : Option (Finset Id)}
    (hmem : id ∈ (futures.storage.entries.pairs.filterMap (ResolveWorld.heldResult owner ids)).map Prod.fst) :
    Past futures id ∧ ids.all (id ∈ ·) := by
  obtain ⟨result, hresult, rfl⟩ := List.mem_map.mp hmem
  obtain ⟨p, hp, hsome⟩ := List.mem_filterMap.mp hresult
  obtain ⟨hid, hdone, htarget⟩ := heldResult_some hsome
  have hlookup : futures.storage.entries.lookup p.1 = some p.2 := OrderedMap.mem_pairs.mp hp
  rw [hid]
  refine ⟨⟨h.issued p.1 (OrderedMap.mem_iff.mpr ⟨p.2, hlookup⟩), fun entry hentry => ?_⟩, htarget⟩
  obtain rfl := Option.some.inj (hlookup.symm.trans hentry)
  exact hdone

/-! ## Subscribers -/

theorem mem_subscribers_of_step
    (hstep : FutureStep futures event futures') (hcomplete : ∀ id result, event ≠ .complete id result) {ref : Nat}
    (hlt : ref < futures.storage.nextRef) (hunsubscribe : event ≠ .unsubscribe ref) (hpull : event ≠ .pull ref)
    {subscriber : Subscriber Id Owner Result} (href : subscriber.ref = ref) :
    subscriber ∈ futures'.storage.subscribers ↔ subscriber ∈ futures.storage.subscribers := by
  cases hstep with
  | register registration new _ =>
    rcases registered_or futures registration new with hsame | hscheduled
    · rw [hsame]
    · rw [hscheduled, FutureWorld.scheduled]
      rfl
  | start _ _ => rfl
  | complete id result _ => exact absurd rfl (hcomplete id result)
  | cancel cancelled owner =>
    rcases cancel_cases futures.storage cancelled owner with heq | ⟨_, -, -, heq⟩
    · rw [heq]
    · rw [heq]
      rfl
  | subscribe ids owner =>
    show subscriber ∈ (futures.storage.subscribe ids owner).2.subscribers ↔ _
    rw [subscribe_eq]
    show subscriber ∈ futures.storage.subscribers ++ futures.storage.waiting ids owner ↔ _
    rw [List.mem_append]
    refine or_iff_left fun hnew => ?_
    -- the new stream has a number of its own
    unfold InMemoryFutureStorage.waiting at hnew
    dsimp only at hnew
    split at hnew
    · cases hnew
    · rw [List.mem_singleton.mp hnew] at href
      exact absurd href (Nat.ne_of_gt hlt)
  | unsubscribe other =>
    show subscriber ∈ futures.storage.subscribers.filter (·.ref ≠ other) ↔ _
    rw [List.mem_filter]
    refine and_iff_left (decide_eq_true fun hsame => hunsubscribe ?_)
    rw [← hsame, href]
  | pull other =>
    have hother : subscriber.ref ≠ other := fun hsame => hpull (by rw [← hsame, href])
    show subscriber ∈ futures.storage.subscribers.map _ ↔ _
    rw [List.mem_map]
    constructor
    · rintro ⟨before, hbefore, heq⟩
      by_cases hread : before.ref = other
      · rw [if_pos hread] at heq
        rw [← heq] at hother
        exact absurd hread hother
      · rw [if_neg hread] at heq
        exact heq ▸ hbefore
    · exact fun hmem => ⟨subscriber, hmem, if_neg hother⟩

theorem nextRef_le_of_step (hstep : FutureStep futures event futures') :
    futures.storage.nextRef ≤ futures'.storage.nextRef := by
  cases hstep with
  | register registration new _ =>
    rcases registered_or futures registration new with hsame | hscheduled
    · exact Nat.le_of_eq (congrArg (fun w => w.storage.nextRef) hsame).symm
    · exact Nat.le_of_eq (congrArg (fun w => w.storage.nextRef) hscheduled).symm
  | start _ _ => exact Nat.le_refl _
  | complete id result discard =>
    rcases complete_frame futures.storage id result _ with heq | ⟨_, _, _, _, -, heq, -⟩
    · exact Nat.le_of_eq (congrArg (fun answer => answer.2.nextRef) heq).symm
    · exact Nat.le_of_eq (congrArg (fun answer => answer.2.nextRef) heq).symm
  | cancel cancelled owner =>
    rcases cancel_cases futures.storage cancelled owner with heq | ⟨_, -, -, heq⟩
    · exact Nat.le_of_eq (congrArg InMemoryFutureStorage.nextRef heq).symm
    · exact Nat.le_of_eq (congrArg (fun answer => answer.2.nextRef) heq).symm
  | subscribe ids owner =>
    have hnext : (futures.storage.subscribe ids owner).2.nextRef = futures.storage.nextRef + 1 :=
      congrArg (fun answer => answer.2.nextRef) (subscribe_eq futures.storage ids owner)
    exact Nat.le_of_lt (Nat.lt_of_lt_of_eq (Nat.lt_succ_self _) hnext.symm)
  | unsubscribe ref => exact Nat.le_refl _
  | pull ref => exact Nat.le_refl _

theorem subscribers_completed (h : futures.Invariant maxPending maxCompleted) {entry : FutureEntry Key Owner Result}
    (hentry : futures.storage.entries.lookup id = some entry) (hpending : entry.isPending) (result : Result)
    (discard : Bool) : (futures.completed id result discard).storage.subscribers =
      (futures.storage.deliverAll entry.owner id result).subscribers := by
  obtain ⟨-, -, -, e, i, o, p, hframe, -⟩ := complete_spec h.consistent id result discard
  have hremaining : futures.storage.remaining id result =
      (futures.storage.deliverAll entry.owner id result).subscribers := by
    unfold InMemoryFutureStorage.remaining
    rw [hentry]
    exact if_pos hpending
  exact (congrArg InMemoryFutureStorage.subscribers hframe).trans hremaining

theorem subscribers_completed_again (h : futures.Invariant maxPending maxCompleted)
    (hdone : ∀ entry, futures.storage.entries.lookup id = some entry → ¬entry.isPending) (result : Result)
    (discard : Bool) : (futures.completed id result discard).storage.subscribers = futures.storage.subscribers := by
  obtain ⟨-, -, -, e, i, o, p, hframe, -⟩ := complete_spec h.consistent id result discard
  have hremaining : futures.storage.remaining id result = futures.storage.subscribers := by
    unfold InMemoryFutureStorage.remaining
    cases hentry : futures.storage.entries.lookup id with
    | none => rfl
    | some entry => exact if_neg (hdone entry hentry)
  exact (congrArg InMemoryFutureStorage.subscribers hframe).trans hremaining

end Bebop.TypeScript.Rpc
