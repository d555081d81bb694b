import Bebop.Swift.FutureRuns

/-!
# Bebop — what the Swift future store keeps

What each section leaves alone, and what the store keeps among its tasks: a pending future
has a task at work, the two key maps are inverse, the pending futures stay within their
limit (`FutureWorld.Sound`), and the counter and the queue say what the entries say
(`FutureStore.Tallied`).
-/

set_option linter.unusedSectionVars false

namespace Bebop.Swift.Rpc

open Transition

variable {Id Key Owner Result : Type} [DecidableEq Id] [DecidableEq Key] [DecidableEq Owner]

namespace FutureStore

variable {store store' : FutureStore Id Key Owner Result} {id : Id} {entry : FutureEntry Owner Result}

/-! ## Sections -/

variable (store) in
def KeysInverse : Prop :=
  ∀ key id, store.idempotencyIndex.lookup key = some id ↔ store.reverseIdempotency.lookup id = some key

variable (store) in
theorem forget_eq (id : Id) : ∃ reverseIdempotency idempotencyIndex,
      store.forget id = { store with
        futures := store.futures.delete id, reverseIdempotency, idempotencyIndex } := by
  unfold forget
  split <;> exact ⟨_, _, rfl⟩

variable (store) in
theorem lookup_forget (id id' : Id) :
    (store.forget id).futures.lookup id' = if id' = id then none else store.futures.lookup id' := by
  obtain ⟨r, i, hforget⟩ := store.forget_eq id
  rw [hforget]
  exact OrderedMap.lookup_delete store.futures id id'

variable (store) in
theorem lookup_reverse_forget (id id' : Id) : (store.forget id).reverseIdempotency.lookup id' =
      if id' = id then none else store.reverseIdempotency.lookup id' := by
  unfold forget
  cases hkey : store.reverseIdempotency.lookup id with
  | none =>
    dsimp only
    split
    · rename_i h
      rw [h, hkey]
    · rfl
  | some key => exact OrderedMap.lookup_delete store.reverseIdempotency id id'

theorem keysInverse_forget (h : store.KeysInverse) (id : Id) : (store.forget id).KeysInverse := by
  intro key id'
  rw [lookup_reverse_forget]
  unfold forget
  cases hkey : store.reverseIdempotency.lookup id with
  | none =>
    dsimp only
    rw [h]
    by_cases hid : id' = id
    · subst hid
      rw [if_pos rfl, hkey]
    · rw [if_neg hid]
  | some key' =>
    dsimp only
    rw [OrderedMap.lookup_delete]
    by_cases hid : id' = id
    · subst hid
      rw [if_pos rfl]
      refine ⟨fun hsome => ?_, nofun⟩
      split at hsome
      · cases hsome
      · rename_i hne
        have hsame := (h key id').mp hsome
        rw [hkey] at hsame
        exact absurd (Option.some.inj hsame).symm hne
    · rw [if_neg hid, ← h]
      by_cases hk : key = key'
      · subst hk
        rw [if_pos rfl, (h key id).mpr hkey]
        exact ⟨nofun, fun hsome => absurd (Option.some.inj hsome).symm hid⟩
      · rw [if_neg hk]

theorem keysInverse_start (h : store.KeysInverse) (registration : FutureRegistration Key Owner)
    (hnew : registration.idempotencyKey.bind store.idempotencyIndex.lookup = none)
    (hfresh : store.reverseIdempotency.lookup id = none) :
    (store.start registration id).KeysInverse := by
  unfold start
  cases hkey : registration.idempotencyKey with
  | none => exact h
  | some key =>
    rw [hkey, Option.bind_some] at hnew
    intro key' id'
    change (store.idempotencyIndex.set key id).lookup key' = some id' ↔
      (store.reverseIdempotency.set id key).lookup id' = some key'
    rw [OrderedMap.lookup_set, OrderedMap.lookup_set]
    by_cases hk : key' = key
    · subst hk
      rw [if_pos rfl]
      by_cases hid : id' = id
      · rw [hid, if_pos rfl]
        exact ⟨fun _ => rfl, fun _ => rfl⟩
      · rw [if_neg hid, ← h, hnew]
        exact ⟨fun hsome => absurd (Option.some.inj hsome).symm hid, nofun⟩
    · rw [if_neg hk]
      by_cases hid : id' = id
      · subst hid
        rw [if_pos rfl, h, hfresh]
        exact ⟨nofun, fun hsome => absurd (Option.some.inj hsome).symm hk⟩
      · rw [if_neg hid, h]

structure Evicted (store store' : FutureStore Id Key Owner Result) : Prop where
  frame : ∃ futures idempotencyIndex reverseIdempotency completedOrder,
    store' = { store with futures, idempotencyIndex, reverseIdempotency, completedOrder }
  futures : ∀ id entry, store'.futures.lookup id = some entry → store.futures.lookup id = some entry
  reverse : ∀ id key, store'.reverseIdempotency.lookup id = some key →
    store.reverseIdempotency.lookup id = some key
  keys : store.KeysInverse → store'.KeysInverse

variable (store) in
theorem Evicted.refl : Evicted store store :=
  ⟨⟨_, _, _, _, rfl⟩, fun _ _ h => h, fun _ _ h => h, fun h => h⟩

theorem Evicted.trans {store'' : FutureStore Id Key Owner Result} (h : Evicted store store')
    (h' : Evicted store' store'') : Evicted store store'' := by
  refine ⟨?_, fun id entry he => h.futures id entry (h'.futures id entry he),
    fun id key hk => h.reverse id key (h'.reverse id key hk), fun hk => h'.keys (h.keys hk)⟩
  obtain ⟨f, i, r, o, rfl⟩ := h.frame
  obtain ⟨f', i', r', o', rfl⟩ := h'.frame
  exact ⟨f', i', r', o', rfl⟩

variable (store) in
theorem Evicted.forget (id : Id) : Evicted store (store.forget id) := by
  refine ⟨?_, fun id' entry he => ?_, fun id' key hk => ?_, fun hk => keysInverse_forget hk id⟩
  · obtain ⟨r, i, hforget⟩ := store.forget_eq id
    exact ⟨_, _, _, _, hforget⟩
  · rw [lookup_forget] at he
    split at he
    · cases he
    · exact he
  · rw [lookup_reverse_forget] at hk
    split at hk
    · cases hk
    · exact hk

theorem evicted_evictLoop {limit fuel evicted evicted' : Nat}
    (h : evictLoop limit fuel evicted store = some (evicted', store')) : Evicted store store' := by
  induction fuel generalizing evicted store with
  | zero =>
    obtain ⟨-, rfl⟩ := Prod.mk.inj (Option.some.inj h)
    exact .refl _
  | succ fuel ih =>
    unfold evictLoop at h
    split at h
    · split at h
      · cases h
      · exact (Evicted.forget store _).trans (ih h)
    · obtain ⟨-, rfl⟩ := Prod.mk.inj (Option.some.inj h)
      exact .refl _

theorem evicted_evict (h : store.evict = some store') : Evicted store store' := by
  unfold evict at h
  split at h
  · obtain rfl := Option.some.inj h
    exact .refl _
  · split at h
    · cases h
    · split at h
      · cases h
      · rename_i evicted store'' hloop
        obtain rfl := Option.some.inj h
        exact (evicted_evictLoop hloop).trans
          ⟨⟨_, _, _, _, rfl⟩, fun _ _ h => h, fun _ _ h => h, fun h => h⟩

theorem complete_cases {result : Result} {owner : Option Owner}
    (h : store.complete id result = some (owner, store')) :
    (∃ entry, store.futures.lookup id = some entry ∧ entry.state = .pending ∧
      owner = some entry.owner ∧ store.pendingCount ≠ 0 ∧
      Evicted ({ store with pendingCount := store.pendingCount - 1 }.markCompleted id entry.owner
        result) store') ∨
    (owner = none ∧ store' = store ∧
      ∀ entry, store.futures.lookup id = some entry → entry.state ≠ .pending) := by
  unfold complete at h
  split at h
  · rename_i hnone
    obtain ⟨rfl, rfl⟩ := Prod.mk.inj (Option.some.inj h)
    exact .inr ⟨rfl, rfl, fun entry he => by rw [hnone] at he; cases he⟩
  · rename_i entry hentry
    split at h
    · rename_i hstate
      obtain ⟨rfl, rfl⟩ := Prod.mk.inj (Option.some.inj h)
      refine .inr ⟨rfl, rfl, fun entry' he => ?_⟩
      obtain rfl := Option.some.inj (hentry.symm.trans he)
      rw [hstate]
      nofun
    · rename_i hstate
      unfold decrement at h
      split at h
      · cases h
      · rename_i hcount
        rw [Option.bind_some, Option.map_eq_some_iff] at h
        obtain ⟨evicted, hevict, hpair⟩ := h
        obtain ⟨rfl, rfl⟩ := Prod.mk.inj hpair
        exact .inl ⟨entry, hentry, hstate, rfl, hcount, evicted_evict hevict⟩

theorem removePending_cases (h : store.removePending id = some store') :
    (∃ entry, store.futures.lookup id = some entry ∧ entry.state = .pending ∧
      store.pendingCount ≠ 0 ∧
      store' = { store with pendingCount := store.pendingCount - 1 }.forget id) ∨
    (store' = store ∧ ∀ entry, store.futures.lookup id = some entry → entry.state ≠ .pending) := by
  unfold removePending at h
  split at h
  · rename_i hnone
    obtain rfl := Option.some.inj h
    exact .inr ⟨rfl, fun entry he => by rw [hnone] at he; cases he⟩
  · rename_i entry hentry
    split at h
    · rename_i hstate
      obtain rfl := Option.some.inj h
      refine .inr ⟨rfl, fun entry' he => ?_⟩
      obtain rfl := Option.some.inj (hentry.symm.trans he)
      rw [hstate]
      nofun
    · rename_i hstate
      unfold decrement at h
      split at h
      · cases h
      · rename_i hcount
        exact .inl ⟨entry, hentry, hstate, hcount, (Option.some.inj h).symm⟩

theorem cancel_cases {owner : Owner} {answer : Bool}
    (h : store.cancel id owner = some (answer, store')) :
    (answer = true ∧ ∃ entry, store.futures.lookup id = some entry ∧ entry.owner = owner ∧
      entry.state = .pending ∧ store.pendingCount ≠ 0 ∧
      store' = { store with pendingCount := store.pendingCount - 1 }.forget id) ∨
    (answer = false ∧ store' = store) := by
  unfold cancel at h
  split at h
  · obtain ⟨rfl, rfl⟩ := Prod.mk.inj (Option.some.inj h)
    exact .inr ⟨rfl, rfl⟩
  · rename_i entry hentry
    split at h
    · rename_i howner
      split at h
      · obtain ⟨rfl, rfl⟩ := Prod.mk.inj (Option.some.inj h)
        exact .inr ⟨rfl, rfl⟩
      · rename_i hstate
        unfold decrement at h
        split at h
        · cases h
        · rename_i hcount
          obtain ⟨rfl, rfl⟩ := Prod.mk.inj (Option.some.inj h)
          exact .inl ⟨rfl, entry, hentry, howner, hstate, hcount, rfl⟩
    · obtain ⟨rfl, rfl⟩ := Prod.mk.inj (Option.some.inj h)
      exact .inr ⟨rfl, rfl⟩

variable (store) in
theorem settle_eq (id : Id) (deliveries : List (Nat × YieldResult)) :
    ∃ subscribers, store.settle id deliveries = { store with subscribers } := by
  unfold settle
  induction deliveries generalizing store with
  | nil => exact ⟨_, rfl⟩
  | cons delivery rest ih =>
    have hone : ∃ subscribers, settleOne id store delivery = { store with subscribers } := by
      unfold settleOne
      split
      · exact ⟨_, rfl⟩
      · split
        · dsimp only
          split <;> exact ⟨_, rfl⟩
        · exact ⟨_, rfl⟩
        · exact ⟨_, rfl⟩
    obtain ⟨subscribers, hone⟩ := hone
    rw [List.foldl_cons, hone]
    obtain ⟨subscribers', hrest⟩ := ih { store with subscribers }
    exact ⟨subscribers', hrest⟩

variable (store) in
theorem subscribe_eq (ids : Option (List Id)) (owner : Owner) :
    ∃ subscribers nextSubscriberId, (store.subscribe ids owner).2.2 =
      { store with subscribers, nextSubscriberId } := by
  unfold subscribe
  split
  · exact ⟨_, _, rfl⟩
  · dsimp only
    split <;> exact ⟨_, _, rfl⟩

variable (store) in
theorem register_cases (registration : FutureRegistration Key Owner) (id : Id) :
    ((∃ error, store.register registration id = (.error error, store)) ∨
      ∃ known, store.register registration id = (.ok (.existing known), store)) ∨
    (registration.idempotencyKey.bind store.idempotencyIndex.lookup = none ∧
      ¬(store.maxPendingFutures < unlimited ∧ store.pendingCount ≥ store.maxPendingFutures) ∧
      store.register registration id = (.ok (.started id), store.start registration id)) := by
  cases hbind : registration.idempotencyKey.bind store.idempotencyIndex.lookup with
  | some known =>
    left
    unfold register
    rw [hbind]
    dsimp only
    split
    · exact .inr ⟨known, rfl⟩
    · exact .inl ⟨_, rfl⟩
  | none =>
    by_cases hfull : store.maxPendingFutures < unlimited ∧ store.pendingCount ≥ store.maxPendingFutures
    · refine .inl (.inl ⟨⟨.resourceExhausted, "too many pending futures"⟩, ?_⟩)
      rw [register, hbind]
      exact if_pos hfull
    · refine .inr ⟨rfl, hfull, ?_⟩
      rw [register, hbind]
      exact if_neg hfull

variable (store) in
theorem lookup_start (registration : FutureRegistration Key Owner) (id id' : Id) :
    (store.start registration id).futures.lookup id' =
      if id' = id then some ⟨.pending, registration.owner⟩ else store.futures.lookup id' :=
  OrderedMap.lookup_set store.futures id _ id'

end FutureStore

/-! ## The store and its tasks -/

structure FutureWorld.Sound (world : FutureWorld Id Key Owner Result) : Prop where
  taskIssued : ∀ id task, world.tasks.lookup id = some task → id ∈ world.issued
  futureIssued : ∀ id entry, world.store.futures.lookup id = some entry → id ∈ world.issued
  keyIssued : ∀ id key, world.store.reverseIdempotency.lookup id = some key → id ∈ world.issued
  keys : world.store.KeysInverse
  pending : ∀ id entry, world.store.futures.lookup id = some entry → entry.state = .pending →
    ∃ discard, world.tasks.lookup id = some (.executing entry.owner discard)
  executing : ∀ id owner discard entry, world.tasks.lookup id = some (.executing owner discard) →
    world.store.futures.lookup id = some entry → entry.state = .pending
  limit : world.store.maxPendingFutures < unlimited →
    world.store.pendingCount ≤ world.store.maxPendingFutures

variable {world world' : FutureWorld Id Key Owner Result} {event : FutureEvent Id Key Owner Result}
  {id : Id} {owner : Owner} {result : Result}

theorem sound_init (maxPendingFutures maxCompletedFutures : Nat) :
    (FutureWorld.init maxPendingFutures maxCompletedFutures :
      FutureWorld Id Key Owner Result).Sound where
  taskIssued _ _ h := nomatch h
  futureIssued _ _ h := nomatch h
  keyIssued _ _ h := nomatch h
  keys _ _ := ⟨nofun, nofun⟩
  pending _ _ h := nomatch h
  executing _ _ _ _ h := nomatch h
  limit _ := Nat.zero_le _

theorem FutureWorld.Sound.advance (h : world.Sound) {store : FutureStore Id Key Owner Result}
    {tasks : OrderedMap Id (TaskState Owner Result)} (calls : List (SubscribeCall Id))
    (hid : id ∈ world.issued)
    (hfutures : ∀ id' entry, store.futures.lookup id' = some entry → id' ≠ id →
      world.store.futures.lookup id' = some entry)
    (hself : ∀ entry, store.futures.lookup id = some entry → entry.state ≠ .pending)
    (htasks : ∀ id', id' ≠ id → tasks.lookup id' = world.tasks.lookup id')
    (hdone : ∀ owner discard, tasks.lookup id ≠ some (.executing owner discard))
    (hreverse : ∀ id' key, store.reverseIdempotency.lookup id' = some key →
      world.store.reverseIdempotency.lookup id' = some key)
    (hkeys : store.KeysInverse)
    (hcount : store.pendingCount ≤ world.store.pendingCount)
    (hlimit : store.maxPendingFutures = world.store.maxPendingFutures) :
    FutureWorld.Sound { world with store, tasks, calls } where
  taskIssued id' task htask := by
    by_cases hsame : id' = id
    · rw [hsame]
      exact hid
    · exact h.taskIssued id' task ((htasks id' hsame).symm.trans htask)
  futureIssued id' entry he := by
    by_cases hsame : id' = id
    · rw [hsame]
      exact hid
    · exact h.futureIssued id' entry (hfutures id' entry he hsame)
  keyIssued id' key hk := h.keyIssued id' key (hreverse id' key hk)
  keys := hkeys
  pending id' entry he hpending := by
    by_cases hsame : id' = id
    · subst hsame
      exact absurd hpending (hself entry he)
    · obtain ⟨discard, htask⟩ := h.pending id' entry (hfutures id' entry he hsame) hpending
      exact ⟨discard, (htasks id' hsame).trans htask⟩
  executing id' owner discard entry htask he := by
    by_cases hsame : id' = id
    · subst hsame
      exact absurd htask (hdone owner discard)
    · exact h.executing id' owner discard entry ((htasks id' hsame).symm.trans htask)
        (hfutures id' entry he hsame)
  limit hunlimited := by
    rw [hlimit] at hunlimited ⊢
    exact Nat.le_trans hcount (h.limit hunlimited)

theorem FutureWorld.Sound.not_pending (h : world.Sound) {task : TaskState Owner Result}
    (htask : world.tasks.lookup id = some task) (hdone : ∀ owner discard, task ≠ .executing owner discard)
    {entry : FutureEntry Owner Result} (he : world.store.futures.lookup id = some entry) :
    entry.state ≠ .pending := by
  intro hpending
  obtain ⟨discard, hexecuting⟩ := h.pending id entry he hpending
  exact hdone _ _ (Option.some.inj (htask.symm.trans hexecuting))

theorem sound_registered (h : world.Sound) (registration : FutureRegistration Key Owner)
    (hfresh : id ∉ world.issued) : (world.registered registration id).Sound := by
  have hfuture : world.store.futures.lookup id = none := by
    rw [Option.eq_none_iff_forall_not_mem]
    exact fun entry he => hfresh (h.futureIssued id entry he)
  have hreverse : world.store.reverseIdempotency.lookup id = none := by
    rw [Option.eq_none_iff_forall_not_mem]
    exact fun key hk => hfresh (h.keyIssued id key hk)
  unfold FutureWorld.registered
  rcases world.store.register_cases registration id with
    (⟨error, hcall⟩ | ⟨known, hcall⟩) | ⟨hnew, hroom, hcall⟩
  · rw [hcall]
    exact h
  · rw [hcall]
    exact h
  · rw [hcall]
    refine ⟨?_, ?_, ?_, FutureStore.keysInverse_start h.keys registration hnew hreverse, ?_, ?_, ?_⟩
    · intro id' task htask
      change (world.tasks.set id _).lookup id' = some task at htask
      rw [OrderedMap.lookup_set] at htask
      split at htask
      · rename_i hsame
        rw [hsame]
        exact List.mem_cons_self
      · exact List.mem_cons_of_mem _ (h.taskIssued id' task htask)
    · intro id' entry he
      rw [FutureStore.lookup_start] at he
      split at he
      · rename_i hsame
        rw [hsame]
        exact List.mem_cons_self
      · exact List.mem_cons_of_mem _ (h.futureIssued id' entry he)
    · intro id' key hk
      unfold FutureStore.start at hk
      cases hkey : registration.idempotencyKey with
      | none =>
        rw [hkey] at hk
        exact List.mem_cons_of_mem _ (h.keyIssued id' key hk)
      | some key' =>
        rw [hkey] at hk
        change (world.store.reverseIdempotency.set id key').lookup id' = some key at hk
        rw [OrderedMap.lookup_set] at hk
        split at hk
        · rename_i hsame
          rw [hsame]
          exact List.mem_cons_self
        · exact List.mem_cons_of_mem _ (h.keyIssued id' key hk)
    · intro id' entry he hpending
      rw [FutureStore.lookup_start] at he
      change ∃ discard, (world.tasks.set id _).lookup id' = some (.executing entry.owner discard)
      rw [OrderedMap.lookup_set]
      by_cases hsame : id' = id
      · rw [if_pos hsame] at he ⊢
        obtain rfl := Option.some.inj he
        exact ⟨_, rfl⟩
      · rw [if_neg hsame] at he ⊢
        exact h.pending id' entry he hpending
    · intro id' owner' discard entry htask he
      rw [FutureStore.lookup_start] at he
      change (world.tasks.set id _).lookup id' = _ at htask
      rw [OrderedMap.lookup_set] at htask
      by_cases hsame : id' = id
      · rw [if_pos hsame] at he
        obtain rfl := Option.some.inj he
        rfl
      · rw [if_neg hsame] at he htask
        exact h.executing id' owner' discard entry htask he
    · intro hlimited
      have hlimit : (world.store.start registration id).maxPendingFutures =
          world.store.maxPendingFutures := by
        unfold FutureStore.start
        split <;> rfl
      have hcount : (world.store.start registration id).pendingCount =
          world.store.pendingCount + 1 := by
        unfold FutureStore.start
        split <;> rfl
      dsimp only at hlimited ⊢
      rw [hlimit] at hlimited ⊢
      rw [hcount]
      exact Nat.not_le.mp fun hfull => hroom ⟨hlimited, hfull⟩

theorem sound_finished (h : world.Sound) {discard : Bool}
    (htask : world.tasks.lookup id = some (.executing owner discard))
    (hfinish : world.finished id owner discard result = some world') : world'.Sound := by
  have hid := h.taskIssued id _ htask
  unfold FutureWorld.finished at hfinish
  cases discard with
  | true =>
    rw [if_pos rfl, Option.map_eq_some_iff] at hfinish
    obtain ⟨store, hremove, rfl⟩ := hfinish
    have htasks (id' : Id) (hne : id' ≠ id) :
        (world.tasks.set id (.notifying owner result)).lookup id' = world.tasks.lookup id' := by
      rw [OrderedMap.lookup_set, if_neg hne]
    have hdone (owner' : Owner) (discard : Bool) :
        (world.tasks.set id (.notifying owner result)).lookup id ≠
          some (.executing owner' discard) := by
      rw [OrderedMap.lookup_set, if_pos rfl]
      nofun
    rcases FutureStore.removePending_cases hremove with ⟨entry, hentry, hstate, hcount, rfl⟩ | ⟨rfl, hnot⟩
    · have hgone := FutureStore.lookup_forget
        { world.store with pendingCount := world.store.pendingCount - 1 } id
      have hkey := FutureStore.lookup_reverse_forget
        { world.store with pendingCount := world.store.pendingCount - 1 } id
      obtain ⟨r, i, hframe⟩ := FutureStore.forget_eq
        { world.store with pendingCount := world.store.pendingCount - 1 } id
      refine h.advance world.calls hid ?_ ?_ htasks hdone ?_ ?_ ?_ ?_
      · intro id' e he hne
        rwa [hgone, if_neg hne] at he
      · intro e he
        rw [hgone, if_pos rfl] at he
        cases he
      · intro id' key hk
        rw [hkey] at hk
        split at hk
        · cases hk
        · exact hk
      · have htallied : FutureStore.KeysInverse
            { world.store with pendingCount := world.store.pendingCount - 1 } := h.keys
        exact FutureStore.keysInverse_forget htallied id
      · rw [hframe]
        exact Nat.sub_le _ _
      · rw [hframe]
    · exact h.advance world.calls hid (fun _ _ he _ => he) hnot htasks hdone (fun _ _ hk => hk) h.keys
        (Nat.le_refl _) rfl
  | false =>
    rw [if_neg nofun, Option.map_eq_some_iff] at hfinish
    obtain ⟨⟨answer, store⟩, hcomplete, hworld⟩ := hfinish
    rcases FutureStore.complete_cases hcomplete with
      ⟨entry, hentry, hstate, rfl, hcount, hevicted⟩ | ⟨rfl, rfl, hnot⟩
    · dsimp only at hworld
      obtain rfl := hworld
      obtain ⟨f, i, r, o, hframe⟩ := hevicted.frame
      have hmarked (id' : Id) (e : FutureEntry Owner Result) (he : store.futures.lookup id' = some e) :
          (if id' = id then some ⟨.completed result world.store.nextCompletionSequence, entry.owner⟩
            else world.store.futures.lookup id') = some e := by
        have hbefore := hevicted.futures id' e he
        change (world.store.futures.set id _).lookup id' = some e at hbefore
        rwa [OrderedMap.lookup_set] at hbefore
      refine h.advance world.calls hid ?_ ?_ ?_ ?_ hevicted.reverse (hevicted.keys h.keys) ?_ ?_
      · intro id' e he hne
        have hbefore := hmarked id' e he
        rwa [if_neg hne] at hbefore
      · intro e he
        have hbefore := hmarked id e he
        rw [if_pos rfl] at hbefore
        rw [← Option.some.inj hbefore]
        nofun
      · intro id' hne
        rw [OrderedMap.lookup_set, if_neg hne]
      · intro owner' discard
        rw [OrderedMap.lookup_set, if_pos rfl]
        nofun
      · rw [hframe]
        exact Nat.sub_le _ _
      · rw [hframe]
        rfl
    · dsimp only at hworld
      obtain rfl := hworld
      refine h.advance world.calls hid (fun _ _ he _ => he) hnot ?_ ?_ (fun _ _ hk => hk) h.keys
        (Nat.le_refl _) rfl
      · intro id' hne
        rw [OrderedMap.lookup_delete, if_neg hne]
      · intro owner' discard
        rw [OrderedMap.lookup_delete, if_pos rfl]
        nofun

theorem sound_next (h : world.Sound) {task : TaskState Owner Result}
    (htask : world.tasks.lookup id = some task) (hdone : ∀ owner discard, task ≠ .executing owner discard)
    {tasks : OrderedMap Id (TaskState Owner Result)} (calls : List (SubscribeCall Id))
    (subscribers : OrderedMap Nat (Subscriber Id Owner))
    (htasks : ∀ id', id' ≠ id → tasks.lookup id' = world.tasks.lookup id')
    (hnext : ∀ owner discard, tasks.lookup id ≠ some (.executing owner discard)) :
    FutureWorld.Sound
      { world with store := { world.store with subscribers := subscribers }, tasks, calls } :=
  h.advance calls (h.taskIssued id task htask) (fun _ _ he _ => he)
    (fun _ he => h.not_pending htask hdone he) htasks hnext (fun _ _ hk => hk) h.keys (Nat.le_refl _) rfl

theorem sound_cancel (h : world.Sound) {answer : Bool} {store : FutureStore Id Key Owner Result}
    (hcancel : world.store.cancel id owner = some (answer, store)) :
    FutureWorld.Sound { world with store } := by
  rcases FutureStore.cancel_cases hcancel with ⟨-, entry, hentry, howner, hstate, hcount, rfl⟩ | ⟨-, rfl⟩
  · have hgone := FutureStore.lookup_forget
      { world.store with pendingCount := world.store.pendingCount - 1 } id
    have hkey := FutureStore.lookup_reverse_forget
      { world.store with pendingCount := world.store.pendingCount - 1 } id
    obtain ⟨r, i, hframe⟩ := FutureStore.forget_eq
      { world.store with pendingCount := world.store.pendingCount - 1 } id
    have hfutures (id' : Id) (e : FutureEntry Owner Result)
        (he : ({ world.store with pendingCount := world.store.pendingCount - 1 }.forget
          id).futures.lookup id' = some e) : world.store.futures.lookup id' = some e := by
      rw [hgone] at he
      split at he
      · cases he
      · exact he
    have htallied : FutureStore.KeysInverse
        { world.store with pendingCount := world.store.pendingCount - 1 } := h.keys
    refine ⟨h.taskIssued, fun id' e he => h.futureIssued id' e (hfutures id' e he), ?_,
      FutureStore.keysInverse_forget htallied id, fun id' e he hp => h.pending id' e (hfutures id' e he) hp,
      fun id' o d e ht he => h.executing id' o d e ht (hfutures id' e he), ?_⟩
    · intro id' key hk
      rw [hkey] at hk
      split at hk
      · cases hk
      · exact h.keyIssued id' key hk
    · intro hlimited
      rw [hframe] at hlimited ⊢
      exact Nat.le_trans (Nat.sub_le _ _) (h.limit hlimited)
  · exact h

theorem sound_step (h : world.Sound) (hstep : FutureStep world event world') : world'.Sound := by
  cases hstep with
  | register registration id hfresh => exact sound_registered h registration hfresh
  | finish id result htask hfinish => exact sound_finished h htask hfinish
  | snapshot id htask =>
    refine sound_next h htask nofun world.calls world.store.subscribers ?_ ?_
    · intro id' hne
      rw [OrderedMap.lookup_set, if_neg hne]
    · intro owner discard
      rw [OrderedMap.lookup_set, if_pos rfl]
      nofun
  | yield id subscriber outcome htask =>
    refine sound_next h htask nofun _ world.store.subscribers ?_ ?_
    · intro id' hne
      rw [OrderedMap.lookup_set, if_neg hne]
    · intro owner discard
      rw [OrderedMap.lookup_set, if_pos rfl]
      nofun
  | @settle result deliveries id htask =>
    obtain ⟨subscribers, hsettle⟩ := world.store.settle_eq id deliveries
    rw [hsettle]
    refine sound_next h htask nofun world.calls subscribers ?_ ?_
    · intro id' hne
      rw [OrderedMap.lookup_delete, if_neg hne]
    · intro owner discard
      rw [OrderedMap.lookup_delete, if_pos rfl]
      nofun
  | cancel id owner hcancel => exact sound_cancel h hcancel
  | subscribe ids owner =>
    obtain ⟨subscribers, next, hsubscribe⟩ := world.store.subscribe_eq ids owner
    unfold FutureWorld.subscribed
    dsimp only
    rw [hsubscribe]
    exact ⟨h.taskIssued, h.futureIssued, h.keyIssued, h.keys, h.pending, h.executing, h.limit⟩
  | terminate subscriber =>
    exact ⟨h.taskIssued, h.futureIssued, h.keyIssued, h.keys, h.pending, h.executing, h.limit⟩

theorem sound_of_reaches {maxPendingFutures maxCompletedFutures : Nat}
    (h : Reaches FutureStep (.init maxPendingFutures maxCompletedFutures) world) : world.Sound := by
  obtain ⟨events, hrun⟩ := h
  exact hrun.invariant (fun _ _ _ => sound_step) (sound_init maxPendingFutures maxCompletedFutures)

/-! ## The counter and the order of completion -/

def FutureState.isPending : FutureState Result → Bool
  | pending => true
  | completed _ _ => false

namespace FutureStore

variable {store : FutureStore Id Key Owner Result} {id : Id} {entry : FutureEntry Owner Result}
  {order : List Id}

/-- The counter and the queue say what the entries say, and a key belongs to an entry. -/
structure Tallies (store : FutureStore Id Key Owner Result) (order : List Id) : Prop where
  pending : store.pendingCount = store.futures.countP fun entry => entry.state.isPending
  completed : ∀ id, id ∈ order ↔
    ∃ entry, store.futures.lookup id = some entry ∧ entry.state.isPending = false
  nodup : order.Nodup
  stored : ∀ id key, store.reverseIdempotency.lookup id = some key →
    ∃ entry, store.futures.lookup id = some entry

/-- With these limits, no more results are kept than they allow. -/
structure Tallied (maxPendingFutures maxCompletedFutures : Nat) (store : FutureStore Id Key Owner Result) :
    Prop where
  tallies : store.Tallies store.completedOrder.live
  bound : maxCompletedFutures < unlimited → store.completedOrder.live.length ≤ maxCompletedFutures
  limits : store.maxPendingFutures = maxPendingFutures ∧ store.maxCompletedFutures = maxCompletedFutures

variable {maxPending maxCompleted : Nat}

theorem Tallies.notMem (h : store.Tallies order) (hentry : store.futures.lookup id = some entry)
    (hpending : entry.state.isPending = true) : id ∉ order := by
  intro hmem
  obtain ⟨e, he, hdone⟩ := (h.completed id).mp hmem
  obtain rfl := Option.some.inj (hentry.symm.trans he)
  rw [hpending] at hdone
  cases hdone

theorem Tallies.forget (h : store.Tallies order) (hentry : store.futures.lookup id = some entry)
    (count : Nat) (hcount : store.pendingCount = count + entry.state.isPending.toNat) (order' : List Id)
    (horder : ∀ id', id' ∈ order' ↔ id' ∈ order ∧ id' ≠ id) (hnodup : order'.Nodup) :
    ({ store with pendingCount := count }.forget id).Tallies order' := by
  have hfutures := lookup_forget { store with pendingCount := count } id
  have hreverse := lookup_reverse_forget { store with pendingCount := count } id
  have hpending := h.pending
  rw [OrderedMap.countP_of_lookup _ hentry, hcount] at hpending
  refine ⟨?_, fun id' => ?_, hnodup, fun id' key hkey => ?_⟩
  · obtain ⟨r, i, hforget⟩ := forget_eq { store with pendingCount := count } id
    rw [hforget]
    exact Nat.add_right_cancel hpending
  · rw [horder, h.completed, hfutures]
    by_cases hid : id' = id
    · rw [if_pos hid]
      exact iff_of_false (fun hboth => hboth.2 hid) nofun
    · rw [if_neg hid]
      exact and_iff_left hid
  · rw [hreverse] at hkey
    rw [hfutures]
    split at hkey
    · cases hkey
    · rename_i hid
      rw [if_neg hid]
      exact h.stored id' key hkey

variable (store) in
theorem start_eq (registration : FutureRegistration Key Owner) (id : Id) :
    ∃ reverseIdempotency idempotencyIndex, store.start registration id = { store with
        futures := store.futures.set id ⟨.pending, registration.owner⟩
        pendingCount := store.pendingCount + 1, reverseIdempotency, idempotencyIndex } ∧
      ∀ id' key, reverseIdempotency.lookup id' = some key →
        id' = id ∨ store.reverseIdempotency.lookup id' = some key := by
  unfold start
  cases registration.idempotencyKey with
  | none => exact ⟨_, _, rfl, fun _ _ hkey => .inr hkey⟩
  | some key =>
    refine ⟨_, _, rfl, fun id' key' hkey => ?_⟩
    rw [OrderedMap.lookup_set] at hkey
    split at hkey
    · exact .inl ‹_›
    · exact .inr hkey

theorem Tallied.start (h : store.Tallied maxPending maxCompleted) (hfresh : store.futures.lookup id = none)
    (registration : FutureRegistration Key Owner) : (store.start registration id).Tallied maxPending maxCompleted := by
  have hfutures := OrderedMap.lookup_set store.futures id ⟨.pending, registration.owner⟩
  obtain ⟨r, i, hstart, hreverse⟩ := store.start_eq registration id
  rw [hstart]
  refine ⟨⟨?_, fun id' => ?_, h.tallies.nodup, fun id' key hkey => ?_⟩, h.bound, h.limits⟩
  · dsimp only
    rw [OrderedMap.countP_set, h.tallies.pending, store.futures.countP_eq _ id, hfresh]
    rfl
  · rw [h.tallies.completed, hfutures]
    by_cases hid : id' = id
    · rw [if_pos hid, hid, hfresh]
      refine iff_of_false nofun ?_
      rintro ⟨e, he, hdone⟩
      obtain rfl := Option.some.inj he
      cases hdone
    · rw [if_neg hid]
  · rw [hfutures]
    by_cases hid : id' = id
    · rw [if_pos hid]
      exact ⟨_, rfl⟩
    · rw [if_neg hid]
      exact h.tallies.stored id' key ((hreverse id' key hkey).resolve_left hid)

theorem Tallies.markCompleted (h : store.Tallies order) (hentry : store.futures.lookup id = some entry)
    (hpending : entry.state.isPending = true) {count : Nat} (hcount : store.pendingCount = count + 1)
    (owner : Owner) (result : Result) :
    ({ store with pendingCount := count }.markCompleted id owner result).Tallies (order ++ [id]) := by
  have hfutures (id' : Id) :
      ({ store with pendingCount := count }.markCompleted id owner result).futures.lookup id' =
        if id' = id then some ⟨.completed result store.nextCompletionSequence, owner⟩
        else store.futures.lookup id' := OrderedMap.lookup_set ..
  have hnot := h.notMem hentry hpending
  refine ⟨?_, fun id' => ?_, ?_, fun id' key hkey => ?_⟩
  · have hbefore := h.pending
    rw [OrderedMap.countP_of_lookup _ hentry, hpending, hcount] at hbefore
    exact (Nat.add_right_cancel hbefore).trans (OrderedMap.countP_set
      (fun entry : FutureEntry Owner Result => entry.state.isPending) store.futures id
      ⟨.completed result store.nextCompletionSequence, owner⟩).symm
  · rw [List.mem_append, List.mem_singleton, h.completed, hfutures]
    by_cases hid : id' = id
    · rw [if_pos hid]
      exact iff_of_true (.inr hid) ⟨_, rfl, rfl⟩
    · rw [if_neg hid]
      exact or_iff_left hid
  · exact List.nodup_append.mpr ⟨h.nodup, List.nodup_singleton _, fun a ha b hb => by
      rintro rfl
      exact hnot (List.mem_singleton.mp hb ▸ ha)⟩
  · rw [hfutures]
    split
    · exact ⟨_, rfl⟩
    · exact h.stored id' key hkey

/-- The loop forgets the results that were completed first, until the limit is kept. -/
theorem Tallies.evictLoop (limit fuel evicted : Nat)
    (h : store.Tallies (store.completedOrder.live.drop evicted))
    (hfuel : store.completedOrder.live.length ≤ evicted + fuel) : ∃ evicted' store',
      evictLoop limit fuel evicted store = some (evicted', store') ∧
      store'.Tallies (store.completedOrder.live.drop evicted') ∧
      store.completedOrder.live.length - evicted' ≤ limit ∧ store'.completedOrder = store.completedOrder := by
  induction fuel generalizing store evicted with
  | zero => exact ⟨evicted, store, rfl, h, by omega, rfl⟩
  | succ fuel ih =>
    unfold FutureStore.evictLoop
    rw [DropQueue.length_eq]
    split
    · rename_i hover
      have hlt : evicted < store.completedOrder.live.length := by omega
      have hget : store.completedOrder.values[store.completedOrder.head + evicted]? =
          some store.completedOrder.live[evicted] := by
        rw [← List.getElem?_drop]
        exact List.getElem?_eq_getElem hlt
      rw [hget]
      dsimp only
      rw [List.drop_eq_getElem_cons hlt] at h
      obtain ⟨entry, hentry, hdone⟩ := (h.completed _).mp List.mem_cons_self
      obtain ⟨hhead, htail⟩ := List.nodup_cons.mp h.nodup
      have hforget := h.forget hentry store.pendingCount (by rw [hdone]; rfl)
        (store.completedOrder.live.drop (evicted + 1)) (fun id' => by
          rw [List.mem_cons]
          constructor
          · exact fun hmem => ⟨.inr hmem, fun heq => hhead (heq ▸ hmem)⟩
          · exact fun hboth => hboth.1.resolve_left hboth.2) htail
      obtain ⟨r, i, heq⟩ := store.forget_eq store.completedOrder.live[evicted]
      have hsame : (store.forget store.completedOrder.live[evicted]).completedOrder = store.completedOrder := by
        rw [heq]
      have hrest := @ih (store.forget store.completedOrder.live[evicted]) (evicted + 1)
      rw [hsame] at hrest
      obtain ⟨evicted', store', hloop, htallies, hlimit, horder⟩ := hrest hforget (by omega)
      exact ⟨evicted', store', hloop, htallies, hlimit, horder⟩
    · exact ⟨evicted, store, rfl, h, by omega, rfl⟩

theorem Tallies.evict (h : store.Tallies store.completedOrder.live)
    (hlimits : store.maxPendingFutures = maxPending ∧ store.maxCompletedFutures = maxCompleted)
    (hroom : maxCompleted < unlimited → maxCompleted < 2 ^ 63) :
    ∃ store', store.evict = some store' ∧ store'.Tallied maxPending maxCompleted := by
  obtain ⟨hpending, hcompleted⟩ := hlimits
  unfold FutureStore.evict
  rw [hcompleted]
  by_cases hlimited : maxCompleted < unlimited
  · obtain ⟨evicted, store', hloop, htallies, hlimit, horder⟩ :=
      h.evictLoop maxCompleted store.completedOrder.length 0
        (by rw [DropQueue.length_eq, Nat.zero_add])
    obtain ⟨f, i, r, o, rfl⟩ := (evicted_evictLoop hloop).frame
    have hlive : (DropQueue.compact (o.skip evicted)).live = store.completedOrder.live.drop evicted := by
      rw [DropQueue.live_compact, DropQueue.live_skip, show o = store.completedOrder from horder]
    rw [if_neg (not_not.mpr hlimited), if_neg (Nat.not_le.mpr (hroom hlimited)), hloop]
    refine ⟨_, rfl, ⟨?_, fun _ => ?_, hpending, hcompleted⟩⟩
    · dsimp only
      rw [hlive]
      exact ⟨htallies.pending, htallies.completed, htallies.nodup, htallies.stored⟩
    · dsimp only
      rw [hlive, List.length_drop]
      exact hlimit
  · rw [if_pos hlimited]
    exact ⟨store, rfl, h, fun h => absurd h hlimited, hpending, hcompleted⟩

theorem Tallied.pending_pos (h : store.Tallied maxPending maxCompleted) (hentry : store.futures.lookup id = some entry)
    (hpending : entry.state.isPending = true) : ∃ count, store.pendingCount = count + 1 ∧
      store.decrement = some { store with pendingCount := count } := by
  have hcount := h.tallies.pending
  rw [OrderedMap.countP_of_lookup _ hentry, hpending] at hcount
  refine ⟨_, hcount, ?_⟩
  unfold decrement
  rw [if_neg (by rw [hcount]; exact Nat.succ_ne_zero _), hcount]
  rfl

theorem Tallied.forget (h : store.Tallied maxPending maxCompleted) (hentry : store.futures.lookup id = some entry)
    (hpending : entry.state.isPending = true) {count : Nat} (hcount : store.pendingCount = count + 1) :
    ({ store with pendingCount := count }.forget id).Tallied maxPending maxCompleted := by
  have hnot := h.tallies.notMem hentry hpending
  have htallies := h.tallies.forget hentry count (by rw [hpending]; exact hcount) _
    (fun id' => ⟨fun hmem => ⟨hmem, fun heq => hnot (heq ▸ hmem)⟩, And.left⟩) h.tallies.nodup
  obtain ⟨r, i, hforget⟩ := forget_eq { store with pendingCount := count } id
  rw [hforget] at htallies ⊢
  exact ⟨htallies, h.bound, h.limits⟩

theorem Tallied.complete (h : store.Tallied maxPending maxCompleted)
    (hroom : maxCompleted < unlimited → maxCompleted < 2 ^ 63) (id : Id) (result : Result) :
    ∃ owner store', store.complete id result = some (owner, store') ∧ store'.Tallied maxPending maxCompleted := by
  unfold FutureStore.complete
  cases hentry : store.futures.lookup id with
  | none => exact ⟨none, store, rfl, h⟩
  | some entry =>
    dsimp only
    cases hstate : entry.state with
    | completed _ _ => exact ⟨none, store, rfl, h⟩
    | pending =>
      have hpending : entry.state.isPending = true := by
        rw [hstate]
        rfl
      obtain ⟨count, hcount, hdecrement⟩ := h.pending_pos hentry hpending
      have hmarked := h.tallies.markCompleted hentry hpending hcount entry.owner result
      rw [← DropQueue.live_push] at hmarked
      obtain ⟨store', hevict, htallied⟩ := Tallies.evict hmarked h.limits hroom
      refine ⟨some entry.owner, store', ?_, htallied⟩
      dsimp only
      rw [hdecrement, Option.bind_some, hevict]
      rfl

theorem Tallied.removePending (h : store.Tallied maxPending maxCompleted) (id : Id) :
    ∃ store', store.removePending id = some store' ∧ store'.Tallied maxPending maxCompleted := by
  unfold FutureStore.removePending
  cases hentry : store.futures.lookup id with
  | none => exact ⟨store, rfl, h⟩
  | some entry =>
    dsimp only
    cases hstate : entry.state with
    | completed _ _ => exact ⟨store, rfl, h⟩
    | pending =>
      have hpending : entry.state.isPending = true := by
        rw [hstate]
        rfl
      obtain ⟨count, hcount, hdecrement⟩ := h.pending_pos hentry hpending
      exact ⟨_, by rw [hdecrement]; rfl, h.forget hentry hpending hcount⟩

theorem Tallied.cancel (h : store.Tallied maxPending maxCompleted) (id : Id) (owner : Owner) :
    ∃ answer store', store.cancel id owner = some (answer, store') ∧ store'.Tallied maxPending maxCompleted := by
  unfold FutureStore.cancel
  cases hentry : store.futures.lookup id with
  | none => exact ⟨false, store, rfl, h⟩
  | some entry =>
    dsimp only
    split
    · cases hstate : entry.state with
      | completed _ _ => exact ⟨false, store, rfl, h⟩
      | pending =>
        have hpending : entry.state.isPending = true := by
          rw [hstate]
          rfl
        obtain ⟨count, hcount, hdecrement⟩ := h.pending_pos hentry hpending
        exact ⟨true, _, by rw [hdecrement]; rfl, h.forget hentry hpending hcount⟩
    · exact ⟨false, store, rfl, h⟩

theorem Tallied.subscribers (h : store.Tallied maxPending maxCompleted)
    (subscribers : OrderedMap Nat (Subscriber Id Owner)) (nextSubscriberId : Nat) :
    Tallied maxPending maxCompleted { store with subscribers, nextSubscriberId } :=
  ⟨⟨h.tallies.pending, h.tallies.completed, h.tallies.nodup, h.tallies.stored⟩, h.bound, h.limits⟩

end FutureStore

open FutureStore (Tallied)

variable {maxPending maxCompleted : Nat}

theorem tallied_step (h : world.store.Tallied maxPending maxCompleted)
    (hroom : maxCompleted < unlimited → maxCompleted < 2 ^ 63) (hsound : world.Sound)
    (hstep : FutureStep world event world') : world'.store.Tallied maxPending maxCompleted := by
  cases hstep with
  | register registration id hfresh =>
    unfold FutureWorld.registered
    rcases world.store.register_cases registration id with (⟨error, hcall⟩ | ⟨known, hcall⟩) | ⟨-, -, hcall⟩
    · rw [hcall]
      exact h
    · rw [hcall]
      exact h
    · rw [hcall]
      have hfuture : world.store.futures.lookup id = none := by
        rw [Option.eq_none_iff_forall_not_mem]
        exact fun entry he => hfresh (hsound.futureIssued id entry he)
      exact h.start hfuture registration
  | @finish _ owner discard id result htask hfinish =>
    unfold FutureWorld.finished at hfinish
    cases discard with
    | true =>
      obtain ⟨store, hremove, htallied⟩ := h.removePending id
      rw [if_pos rfl, hremove] at hfinish
      obtain rfl := Option.some.inj hfinish
      exact htallied
    | false =>
      obtain ⟨answer, store, hcomplete, htallied⟩ := h.complete hroom id result
      rw [if_neg nofun, hcomplete] at hfinish
      cases answer <;> obtain rfl := Option.some.inj hfinish <;> exact htallied
  | snapshot id htask => exact h
  | yield id subscriber outcome htask => exact h
  | @settle result deliveries id htask =>
    obtain ⟨subscribers, hsettle⟩ := world.store.settle_eq id deliveries
    dsimp only
    rw [hsettle]
    exact h.subscribers _ _
  | cancel id owner hcancel =>
    obtain ⟨answer, store, hcall, htallied⟩ := h.cancel id owner
    cases hcancel.symm.trans hcall
    exact htallied
  | subscribe ids owner =>
    obtain ⟨subscribers, next, hsubscribe⟩ := world.store.subscribe_eq ids owner
    unfold FutureWorld.subscribed
    dsimp only
    rw [hsubscribe]
    exact h.subscribers _ _
  | terminate subscriber =>
    exact h.subscribers _ _

end Bebop.Swift.Rpc
