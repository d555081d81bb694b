import Bebop.TypeScript.FutureRuns

/-!
# Bebop — the representation invariant of the TypeScript future storage

The counter, the completion queue and the key index say what the entries say
(`Consistent`), and no stream waits for a result it was handed (`Streams`). Each operation
keeps both, so they hold in every reachable state (`futureStorage_invariant`).
-/

set_option linter.unusedSectionVars false

namespace Bebop.TypeScript.Rpc

open Transition

variable {Id Key Owner Result : Type} [DecidableEq Id] [DecidableEq Key] [DecidableEq Owner]

def FutureEntry.isPending (entry : FutureEntry Key Owner Result) : Bool :=
  match entry.state with
  | .pending => true
  | .completed _ => false

structure Consistent (entries : OrderedMap Id (FutureEntry Key Owner Result))
    (idempotency : OrderedMap Key Id) (order : List Id) (pendingCount : Int) : Prop where
  pending : pendingCount = entries.countP FutureEntry.isPending
  completed : ∀ id, id ∈ order ↔ ∃ entry, entries.lookup id = some entry ∧ ¬entry.isPending
  nodup : order.Nodup
  key : ∀ key id, idempotency.lookup key = some id ↔
    ∃ entry, entries.lookup id = some entry ∧ entry.idempotencyKey = some key

variable {entries : OrderedMap Id (FutureEntry Key Owner Result)} {idempotency : OrderedMap Key Id}
  {order : List Id} {pendingCount : Int} {id : Id} {entry : FutureEntry Key Owner Result}

/-! ## Entries that come and go -/

theorem lookup_deleteKey (idempotency : OrderedMap Key Id) (key : Option Key) (key' : Key) :
    (InMemoryFutureStorage.deleteKey idempotency key).lookup key' =
      if key = some key' then none else idempotency.lookup key' := by
  cases key with
  | none => rw [if_neg nofun]; rfl
  | some key =>
    change (idempotency.delete key).lookup key' = _
    rw [OrderedMap.lookup_delete]
    simp only [Option.some.injEq, eq_comm]

theorem consistent_forget (h : Consistent entries idempotency order pendingCount)
    (hentry : entries.lookup id = some entry) {order' : List Id} {pendingCount' : Int}
    (hpending : pendingCount' + entry.isPending.toNat = pendingCount)
    (horder : ∀ id', id' ∈ order' ↔ id' ∈ order ∧ id' ≠ id) (hnodup : order'.Nodup) :
    Consistent (entries.delete id) (InMemoryFutureStorage.deleteKey idempotency entry.idempotencyKey)
      order' pendingCount' := by
  refine ⟨?_, ?_, hnodup, ?_⟩
  · have hcount := h.pending
    rw [OrderedMap.countP_of_lookup _ hentry] at hcount
    push_cast at hcount
    omega
  · intro id'
    rw [horder, h.completed]
    simp only [OrderedMap.lookup_delete]
    constructor
    · rintro ⟨⟨e, he, hdone⟩, hne⟩
      exact ⟨e, by rw [if_neg hne, he], hdone⟩
    · rintro ⟨e, he, hdone⟩
      split at he
      · cases he
      · rename_i hne
        exact ⟨⟨e, he, hdone⟩, hne⟩
  · intro key id'
    rw [lookup_deleteKey, OrderedMap.lookup_delete]
    by_cases hkey : entry.idempotencyKey = some key
    · -- the key of the entry that leaves is the key of no other
      rw [if_pos hkey]
      refine ⟨nofun, ?_⟩
      rintro ⟨e, he, hekey⟩
      have hself := (h.key key id).mpr ⟨entry, hentry, hkey⟩
      split at he
      · cases he
      · rename_i hne
        have hother := (h.key key id').mpr ⟨e, he, hekey⟩
        exact absurd (Option.some.inj (hother.symm.trans hself)) hne
    · rw [if_neg hkey, h.key]
      by_cases hid : id' = id
      · subst hid
        rw [if_pos rfl, hentry]
        constructor
        · rintro ⟨e, he, hekey⟩
          obtain rfl := Option.some.inj he
          exact absurd hekey hkey
        · rintro ⟨e, he, -⟩
          cases he
      · rw [if_neg hid]

theorem consistent_schedule (h : Consistent entries idempotency order pendingCount)
    (hfresh : entries.lookup id = none) (owner : Owner) {key : Option Key}
    (hkey : ∀ k, key = some k → idempotency.lookup k = none) :
    Consistent (entries.set id ⟨owner, key, .pending⟩)
      (InMemoryFutureStorage.setKey idempotency key id) order (pendingCount + 1) := by
  refine ⟨?_, ?_, h.nodup, ?_⟩
  · have hcount := h.pending
    rw [entries.countP_eq _ id, hfresh] at hcount
    rw [OrderedMap.countP_set]
    have hlen : ((none : Option (FutureEntry Key Owner Result)).filter
        FutureEntry.isPending).toList.length = 0 := rfl
    change pendingCount + 1 = ((entries.delete id).countP FutureEntry.isPending + 1 : Nat)
    omega
  · intro id'
    rw [h.completed, OrderedMap.lookup_set]
    by_cases hid : id' = id
    · subst hid
      rw [if_pos rfl, hfresh]
      constructor
      · rintro ⟨e, he, -⟩
        cases he
      · rintro ⟨e, he, hdone⟩
        obtain rfl := Option.some.inj he
        exact absurd rfl hdone
    · rw [if_neg hid]
  · intro k id'
    rw [OrderedMap.lookup_set]
    cases key with
    | none =>
      change idempotency.lookup k = some id' ↔ _
      rw [h.key]
      by_cases hid : id' = id
      · subst hid
        rw [if_pos rfl, hfresh]
        constructor
        · rintro ⟨e, he, -⟩
          cases he
        · rintro ⟨e, he, hekey⟩
          obtain rfl := Option.some.inj he
          cases hekey
      · rw [if_neg hid]
    | some k₀ =>
      change (idempotency.set k₀ id).lookup k = some id' ↔ _
      rw [OrderedMap.lookup_set]
      have hnew := hkey k₀ rfl
      by_cases hk : k = k₀
      · subst hk
        rw [if_pos rfl]
        constructor
        · intro hsome
          obtain rfl := Option.some.inj hsome
          exact ⟨_, by rw [if_pos rfl], rfl⟩
        · rintro ⟨e, he, hekey⟩
          split at he
          · rename_i hid
            rw [hid]
          · have hold := (h.key k id').mpr ⟨e, he, hekey⟩
            rw [hnew] at hold
            cases hold
      · rw [if_neg hk, h.key]
        by_cases hid : id' = id
        · subst hid
          rw [if_pos rfl, hfresh]
          constructor
          · rintro ⟨e, he, -⟩
            cases he
          · rintro ⟨e, he, hekey⟩
            obtain rfl := Option.some.inj he
            exact absurd (Option.some.inj hekey).symm hk
        · rw [if_neg hid]

theorem consistent_complete (h : Consistent entries idempotency order pendingCount)
    (hentry : entries.lookup id = some entry) (hpending : entry.isPending) (result : Result) :
    Consistent (entries.set id { entry with state := .completed result }) idempotency (order ++ [id])
      (pendingCount - 1) := by
  have hnot : id ∉ order := by
    intro hmem
    obtain ⟨e, he, hdone⟩ := (h.completed id).mp hmem
    obtain rfl := Option.some.inj (hentry.symm.trans he)
    exact hdone hpending
  refine ⟨?_, ?_, ?_, ?_⟩
  · have hcount := h.pending
    rw [OrderedMap.countP_of_lookup _ hentry, hpending] at hcount
    rw [OrderedMap.countP_set]
    change pendingCount - 1 = ((entries.delete id).countP FutureEntry.isPending + 0 : Nat)
    change pendingCount = ((entries.delete id).countP FutureEntry.isPending + 1 : Nat) at hcount
    omega
  · intro id'
    rw [List.mem_append, List.mem_singleton, h.completed, OrderedMap.lookup_set]
    by_cases hid : id' = id
    · rw [if_pos hid]
      exact ⟨fun _ => ⟨_, rfl, nofun⟩, fun _ => .inr hid⟩
    · rw [if_neg hid]
      exact ⟨fun hold => hold.resolve_right hid, .inl⟩
  · rw [List.nodup_append]
    refine ⟨h.nodup, List.nodup_singleton id, fun a ha b hb => ?_⟩
    rw [List.mem_singleton.mp hb]
    rintro rfl
    exact hnot ha
  · intro key id'
    rw [h.key, OrderedMap.lookup_set]
    by_cases hid : id' = id
    · subst hid
      rw [if_pos rfl, hentry]
      constructor
      · rintro ⟨e, he, hkey⟩
        obtain rfl := Option.some.inj he
        exact ⟨_, rfl, hkey⟩
      · rintro ⟨e, he, hkey⟩
        obtain rfl := Option.some.inj he
        exact ⟨_, rfl, hkey⟩
    · rw [if_neg hid]

/-! ## The operations -/

namespace InMemoryFutureStorage

variable {storage : InMemoryFutureStorage Id Key Owner Result}

def IsConsistent (storage : InMemoryFutureStorage Id Key Owner Result) : Prop :=
  Consistent storage.entries storage.idempotency storage.completedOrder.live storage.pendingCount

theorem isConsistent_register (h : storage.IsConsistent) (registration : FutureRegistration Key Owner)
    (hfresh : storage.entries.lookup id = none) :
    (storage.register registration id).2.IsConsistent := by
  unfold register
  split
  · split <;> exact h
  · rename_i hkey
    split
    · exact h
    · have hnew : ∀ k, registration.idempotencyKey = some k → storage.idempotency.lookup k = none := by
        intro k hk
        rwa [hk] at hkey
      exact consistent_schedule h hfresh registration.owner hnew

theorem isConsistent_cancel (h : storage.IsConsistent) (id : Id) (owner : Owner) :
    (storage.cancel id owner).2.IsConsistent := by
  unfold cancel
  split
  · exact h
  · rename_i entry hentry
    split
    · exact h
    · split
      · exact h
      · rename_i hstate
        have hpending : entry.isPending = true := by rw [FutureEntry.isPending, hstate]
        refine consistent_forget h hentry ?_ ?_ h.nodup
        · rw [hpending]
          change storage.pendingCount - 1 + 1 = storage.pendingCount
          omega
        · intro id'
          refine ⟨fun hmem => ⟨hmem, ?_⟩, And.left⟩
          rintro rfl
          obtain ⟨e, he, hdone⟩ := (h.completed _).mp hmem
          obtain rfl := Option.some.inj (hentry.symm.trans he)
          exact hdone hpending

theorem isConsistent_evict (h : storage.IsConsistent) {evicted : Id} (queue : DropQueue Id)
    (hlive : storage.completedOrder.live = evicted :: queue.live) :
    InMemoryFutureStorage.IsConsistent
      { storage.forget evicted ((storage.entries.lookup evicted).bind FutureEntry.idempotencyKey) with
        completedOrder := queue } := by
  obtain ⟨entry, hentry, hdone⟩ := (h.completed evicted).mp (by rw [hlive]; exact List.mem_cons_self)
  have hnodup := h.nodup
  rw [hlive, List.nodup_cons] at hnodup
  rw [hentry, Option.bind_some]
  refine consistent_forget h hentry ?_ ?_ hnodup.2
  · rw [Bool.eq_false_iff.mpr hdone]
    change storage.pendingCount + 0 = _
    omega
  · intro id'
    rw [hlive, List.mem_cons]
    constructor
    · intro hmem
      refine ⟨.inr hmem, ?_⟩
      rintro rfl
      exact hnodup.1 hmem
    · rintro ⟨hmem, hne⟩
      exact hmem.resolve_left hne

theorem evictLoop_spec (fuel : Nat) (h : storage.IsConsistent)
    (hfuel : storage.completedOrder.live.length ≤ fuel) :
    (evictLoop fuel storage).IsConsistent ∧
      ¬storage.maxCompleted.exceededBy (evictLoop fuel storage).completedOrder.live.length ∧
      ∃ entries idempotency completedOrder,
        evictLoop fuel storage = { storage with entries, idempotency, completedOrder } ∧
          ∀ id ∈ entries, id ∈ storage.entries := by
  induction fuel generalizing storage with
  | zero =>
    refine ⟨h, ?_, _, _, _, rfl, fun _ hid => hid⟩
    have hzero : storage.completedOrder.live.length = 0 := Nat.le_zero.mp hfuel
    change ¬storage.maxCompleted.exceededBy storage.completedOrder.live.length
    rw [hzero]
    cases storage.maxCompleted <;> simp [Limit.exceededBy]
  | succ fuel ih =>
    unfold evictLoop
    rw [DropQueue.length_eq]
    split
    · cases hlive : storage.completedOrder.live with
      | nil =>
        rename_i hexceeded
        rw [hlive] at hexceeded
        exact absurd hexceeded (by cases storage.maxCompleted <;> simp [Limit.exceededBy])
      | cons evicted rest =>
        obtain ⟨queue, hshift, hrest⟩ := DropQueue.shift_of_live_eq_cons 1024 hlive
        rw [hshift]
        dsimp only
        have hnext := isConsistent_evict h queue (by rw [hlive, hrest])
        rw [hlive, List.length_cons] at hfuel
        obtain ⟨hkept, hlimit, e, i, o, hframe, hsub⟩ := ih hnext (by
          change queue.live.length ≤ fuel
          rw [hrest]
          omega)
        exact ⟨hkept, hlimit, e, i, o, hframe, fun id hid => (AList.mem_erase.mp (hsub id hid)).2⟩
    · rename_i hwithin
      exact ⟨h, hwithin, _, _, _, rfl, fun _ hid => hid⟩

theorem complete_of_lookup_none (h : storage.entries.lookup id = none) (result : Result)
    (discard : Bool) : storage.complete id result discard = ([], storage) := by
  rw [complete, h]

theorem complete_of_completed (h : storage.entries.lookup id = some entry) (hdone : ¬entry.isPending)
    (result : Result) (discard : Bool) : storage.complete id result discard = ([], storage) := by
  unfold FutureEntry.isPending at hdone
  rw [complete, h]
  dsimp only
  cases hstate : entry.state with
  | pending => rw [hstate] at hdone; exact absurd rfl hdone
  | completed r => rfl

theorem complete_of_pending (h : storage.entries.lookup id = some entry) (hpending : entry.isPending)
    (result : Result) (discard : Bool) :
    storage.complete id result discard =
      (storage.deliveredTo entry.owner id result,
        let delivered :=
          { storage.deliverAll entry.owner id result with pendingCount := storage.pendingCount - 1 }
        if discard then delivered.forget id entry.idempotencyKey
        else delivered.keep id entry result) := by
  unfold FutureEntry.isPending at hpending
  rw [complete, h]
  dsimp only
  cases hstate : entry.state with
  | pending => rfl
  | completed r => rw [hstate] at hpending; cases hpending

def remaining (storage : InMemoryFutureStorage Id Key Owner Result) (id : Id) (result : Result) :
    List (Subscriber Id Owner Result) :=
  match storage.entries.lookup id with
  | none => storage.subscribers
  | some entry =>
    if entry.isPending then (storage.deliverAll entry.owner id result).subscribers
    else storage.subscribers

theorem complete_spec (h : storage.IsConsistent) (id : Id) (result : Result) (discard : Bool) :
    (storage.complete id result discard).2.IsConsistent ∧
      (storage.complete id result discard).2.pendingCount ≤ storage.pendingCount ∧
      (¬storage.maxCompleted.exceededBy storage.completedOrder.live.length →
        ¬storage.maxCompleted.exceededBy
          (storage.complete id result discard).2.completedOrder.live.length) ∧
      ∃ entries idempotency completedOrder pendingCount,
        (storage.complete id result discard).2 =
          { storage with
            entries, idempotency, completedOrder, pendingCount
            subscribers := storage.remaining id result } ∧
        ∀ id ∈ entries, id ∈ storage.entries := by
  unfold remaining
  cases hentry : storage.entries.lookup id with
  | none =>
    rw [complete_of_lookup_none hentry]
    exact ⟨h, Int.le_refl _, fun hlimit => hlimit, _, _, _, _, rfl, fun _ hid => hid⟩
  | some entry =>
    dsimp only
    by_cases hpending : entry.isPending
    · rw [complete_of_pending hentry hpending, if_pos hpending]
      dsimp only
      cases discard with
      | true =>
        refine ⟨consistent_forget h hentry ?_ ?_ h.nodup, Int.sub_le_self _ Int.one_nonneg,
          fun hlimit => hlimit, _, _, _, _, rfl, fun id hid => (AList.mem_erase.mp hid).2⟩
        · rw [hpending]
          change storage.pendingCount - 1 + 1 = storage.pendingCount
          omega
        · intro id'
          refine ⟨fun hmem => ⟨hmem, ?_⟩, And.left⟩
          rintro rfl
          obtain ⟨e, he, hdone⟩ := (h.completed _).mp hmem
          obtain rfl := Option.some.inj (hentry.symm.trans he)
          exact hdone hpending
      | false =>
        let kept := { storage.deliverAll entry.owner id result with
          pendingCount := storage.pendingCount - 1
          entries := storage.entries.set id { entry with state := .completed result }
          completedOrder := storage.completedOrder.push id }
        have hkept : kept.IsConsistent := by
          have hnew := consistent_complete h hentry hpending result
          rw [← DropQueue.live_push] at hnew
          exact hnew
        obtain ⟨hconsistent, hlimit, e, i, o, hframe, hsub⟩ :=
          evictLoop_spec kept.completedOrder.length hkept (DropQueue.length_eq _).ge
        refine ⟨hconsistent, ?_, fun _ => hlimit, e, i, o, _, hframe, fun id' hid' => ?_⟩
        · change (evictLoop kept.completedOrder.length kept).pendingCount ≤ _
          rw [hframe]
          exact Int.sub_le_self _ Int.one_nonneg
        · obtain ⟨e', he'⟩ := OrderedMap.mem_iff.mp (hsub id' hid')
          change (storage.entries.set id _).lookup id' = some e' at he'
          rw [OrderedMap.lookup_set] at he'
          split at he'
          · rename_i hsame
            rw [hsame]
            exact OrderedMap.mem_iff.mpr ⟨entry, hentry⟩
          · exact OrderedMap.mem_iff.mpr ⟨e', he'⟩
    · rw [complete_of_completed hentry hpending, if_neg hpending]
      exact ⟨h, Int.le_refl _, fun hlimit => hlimit, _, _, _, _, rfl, fun _ hid => hid⟩

theorem deliveredTo_of_complete (storage : InMemoryFutureStorage Id Key Owner Result) (id : Id)
    (result : Result) (discard : Bool) :
    (∃ entry, (storage.complete id result discard).1 = storage.deliveredTo entry id result ∧
      storage.remaining id result = (storage.deliverAll entry id result).subscribers) ∨
    (storage.complete id result discard).1 = [] ∧ storage.remaining id result = storage.subscribers := by
  unfold remaining
  cases hentry : storage.entries.lookup id with
  | none =>
    rw [complete_of_lookup_none hentry]
    exact .inr ⟨rfl, rfl⟩
  | some entry =>
    dsimp only
    by_cases hpending : entry.isPending
    · rw [complete_of_pending hentry hpending, if_pos hpending]
      exact .inl ⟨entry.owner, rfl, rfl⟩
    · rw [complete_of_completed hentry hpending, if_neg hpending]
      exact .inr ⟨rfl, rfl⟩

end InMemoryFutureStorage

/-! ## Streams -/

/-- The open streams are told apart, and none waits for a result it has. -/
structure Streams (subscribers : List (Subscriber Id Owner Result)) (nextRef : Nat)
    (received : List (Nat × Id)) : Prop where
  ref_lt : ∀ subscriber ∈ subscribers, subscriber.ref < nextRef
  nodup : (subscribers.map Subscriber.ref).Nodup
  received_lt : ∀ r ∈ received, r.1 < nextRef
  waiting : ∀ subscriber ∈ subscribers, ∀ ids, subscriber.ids = some ids → ∀ id ∈ ids,
    (subscriber.ref, id) ∉ received

variable {subscribers : List (Subscriber Id Owner Result)} {nextRef : Nat} {received : List (Nat × Id)}

theorem Streams.sublist (h : Streams subscribers nextRef received)
    {subscribers' : List (Subscriber Id Owner Result)}
    (hrefs : (subscribers'.map Subscriber.ref).Sublist (subscribers.map Subscriber.ref))
    (hids : ∀ subscriber' ∈ subscribers', ∃ subscriber ∈ subscribers,
      subscriber.ref = subscriber'.ref ∧ subscriber.ids = subscriber'.ids) :
    Streams subscribers' nextRef received := by
  refine ⟨?_, hrefs.nodup h.nodup, h.received_lt, ?_⟩
  · intro subscriber' hmem
    obtain ⟨subscriber, hold, href, -⟩ := hids subscriber' hmem
    rw [← href]
    exact h.ref_lt subscriber hold
  · intro subscriber' hmem ids hsome id hid
    obtain ⟨subscriber, hold, href, hsame⟩ := hids subscriber' hmem
    rw [← href]
    exact h.waiting subscriber hold ids (hsame.trans hsome) id hid

theorem deliver_some {capacity : Nat} {owner : Owner} {id : Id} {result : Result}
    {subscriber subscriber' : Subscriber Id Owner Result}
    (h : (InMemoryFutureStorage.deliver capacity owner id result subscriber).1 = some subscriber') :
    subscriber'.ref = subscriber.ref ∧
      ((InMemoryFutureStorage.deliver capacity owner id result subscriber).2 = false ∧
          subscriber'.ids = subscriber.ids ∨
        subscriber'.ids = subscriber.ids.map (·.erase id)) := by
  unfold InMemoryFutureStorage.deliver at h ⊢
  split at h
  · rename_i hskip
    obtain rfl := Option.some.inj h
    rw [if_pos hskip]
    exact ⟨rfl, .inl ⟨rfl, rfl⟩⟩
  · rename_i hskip
    rw [if_neg hskip]
    split at h
    · cases h
    · rename_i hroom
      rw [if_neg hroom]
      dsimp only at h ⊢
      split at h
      · cases h
      · obtain rfl := Option.some.inj h
        exact ⟨rfl, .inr rfl⟩

theorem Streams.deliver (h : Streams subscribers nextRef received) (capacity : Nat) (owner : Owner)
    (id : Id) (result : Result) :
    Streams
      (subscribers.filterMap fun s => (InMemoryFutureStorage.deliver capacity owner id result s).1)
      nextRef
      (received ++ ((subscribers.filter fun s =>
        (InMemoryFutureStorage.deliver capacity owner id result s).2).map (·.ref)).map (·, id)) := by
  refine ⟨?_, ?_, ?_, ?_⟩
  · intro subscriber' hmem
    obtain ⟨subscriber, hold, hsome⟩ := List.mem_filterMap.mp hmem
    rw [(deliver_some hsome).1]
    exact h.ref_lt subscriber hold
  · rw [List.map_filterMap]
    have hsub : (subscribers.filterMap fun s =>
        (InMemoryFutureStorage.deliver capacity owner id result s).1.map Subscriber.ref).Sublist
        (subscribers.map Subscriber.ref) := by
      clear h
      induction subscribers with
      | nil => exact .slnil
      | cons s rest ih =>
        rw [List.filterMap_cons, List.map_cons]
        cases hone : (InMemoryFutureStorage.deliver capacity owner id result s).1 with
        | none => exact ih.cons _
        | some s' =>
          rw [Option.map_some, (deliver_some hone).1]
          exact ih.cons_cons _
    exact hsub.nodup h.nodup
  · intro r hmem
    rcases List.mem_append.mp hmem with hold | hnew
    · exact h.received_lt r hold
    · obtain ⟨ref, href, rfl⟩ := List.mem_map.mp hnew
      obtain ⟨subscriber, hsub, rfl⟩ := List.mem_map.mp href
      exact h.ref_lt subscriber (List.mem_of_mem_filter hsub)
  · intro subscriber' hmem ids hsome id' hid hreceived
    obtain ⟨subscriber, hold, hleft⟩ := List.mem_filterMap.mp hmem
    obtain ⟨href, hcase⟩ := deliver_some hleft
    rw [href] at hreceived
    -- the subscriber waited for the identifier before, so it received it just now
    obtain ⟨ids₀, hids₀, hid₀⟩ : ∃ ids₀, subscriber.ids = some ids₀ ∧ id' ∈ ids₀ := by
      rcases hcase with ⟨-, hsame⟩ | herase
      · exact ⟨ids, hsame.symm.trans hsome, hid⟩
      · rw [hsome] at herase
        obtain ⟨ids₀, hids₀, rfl⟩ := Option.map_eq_some_iff.mp herase.symm
        exact ⟨ids₀, hids₀, Finset.mem_of_mem_erase hid⟩
    have hnot := h.waiting subscriber hold ids₀ hids₀ id' hid₀
    obtain ⟨ref, href', hpair⟩ := List.mem_map.mp ((List.mem_append.mp hreceived).resolve_left hnot)
    obtain ⟨rfl, rfl⟩ := Prod.mk.inj hpair
    obtain ⟨other, hother, hsame⟩ := List.mem_map.mp href'
    obtain ⟨hmem', hdelivered⟩ := List.mem_filter.mp hother
    obtain rfl : other = subscriber := List.inj_on_of_nodup_map h.nodup hmem' hold hsame
    rcases hcase with ⟨hskipped, -⟩ | herase
    · rw [hskipped] at hdelivered
      cases hdelivered
    · rw [hsome, hids₀] at herase
      rw [Option.some.inj herase] at hid
      exact Finset.notMem_erase _ _ hid

theorem subscribeLoop_remaining (owner : Owner) (pairs : List (Id × FutureEntry Key Owner Result))
    (remainingIds : Option (Finset Id)) {left : Finset Id}
    (h : (InMemoryFutureStorage.subscribeLoop owner pairs remainingIds).2 = some left) :
    ∃ ids, remainingIds = some ids ∧ ∀ id ∈ left, id ∈ ids ∧
      id ∉ (InMemoryFutureStorage.subscribeLoop owner pairs remainingIds).1.map Prod.fst := by
  induction pairs generalizing remainingIds with
  | nil => exact ⟨left, h, fun id hid => ⟨hid, List.not_mem_nil⟩⟩
  | cons p rest ih =>
    obtain ⟨id₀, entry⟩ := p
    unfold InMemoryFutureStorage.subscribeLoop at h ⊢
    cases hstate : entry.state with
    | pending =>
      rw [hstate] at h
      exact ih remainingIds h
    | completed result =>
      rw [hstate] at h
      dsimp only at h ⊢
      by_cases htake : entry.owner = owner ∧ remainingIds.all (id₀ ∈ ·)
      · rw [if_pos htake] at h ⊢
        obtain ⟨ids', hids', hall⟩ := ih _ h
        obtain ⟨ids, hids, rfl⟩ := Option.map_eq_some_iff.mp hids'
        refine ⟨ids, hids, fun id hid => ?_⟩
        obtain ⟨hmem, hnot⟩ := hall id hid
        refine ⟨Finset.mem_of_mem_erase hmem, ?_⟩
        rw [List.map_cons, List.mem_cons, not_or]
        exact ⟨Finset.ne_of_mem_erase hmem, hnot⟩
      · rw [if_neg htake] at h ⊢
        exact ih remainingIds h

theorem Streams.open (h : Streams subscribers nextRef received) (owner : Owner)
    (ids : Option (Finset Id)) (immediate : List (Id × Result))
    (hnew : ∀ left, ids = some left → ∀ id ∈ left, id ∉ immediate.map Prod.fst) :
    Streams (subscribers ++ [⟨nextRef, owner, ids, .empty⟩]) (nextRef + 1)
      (received ++ immediate.map fun p => (nextRef, p.1)) := by
  refine ⟨?_, ?_, ?_, ?_⟩
  · intro subscriber hmem
    rcases List.mem_append.mp hmem with hold | hlast
    · exact Nat.lt_succ_of_lt (h.ref_lt subscriber hold)
    · rw [List.mem_singleton.mp hlast]
      exact Nat.lt_succ_self _
  · rw [List.map_append, List.map_cons, List.map_nil, List.nodup_append]
    refine ⟨h.nodup, List.nodup_singleton _, fun a ha b hb => ?_⟩
    obtain ⟨subscriber, hold, rfl⟩ := List.mem_map.mp ha
    rw [List.mem_singleton.mp hb]
    exact Nat.ne_of_lt (h.ref_lt subscriber hold)
  · intro r hmem
    rcases List.mem_append.mp hmem with hold | hlast
    · exact Nat.lt_succ_of_lt (h.received_lt r hold)
    · obtain ⟨p, -, rfl⟩ := List.mem_map.mp hlast
      exact Nat.lt_succ_self _
  · intro subscriber hmem left hleft id hid hreceived
    rcases List.mem_append.mp hmem with hold | hlast
    · rcases List.mem_append.mp hreceived with hbefore | hnow
      · exact h.waiting subscriber hold left hleft id hid hbefore
      · obtain ⟨p, -, hp⟩ := List.mem_map.mp hnow
        exact absurd (Prod.mk.inj hp).1 (Nat.ne_of_gt (h.ref_lt subscriber hold))
    · obtain rfl := List.mem_singleton.mp hlast
      rcases List.mem_append.mp hreceived with hbefore | hnow
      · exact absurd (h.received_lt _ hbefore) (Nat.lt_irrefl _)
      · obtain ⟨p, hp, hpair⟩ := List.mem_map.mp hnow
        exact hnew left hleft id hid ((Prod.mk.inj hpair).2 ▸ List.mem_map_of_mem hp)

theorem Streams.skip (h : Streams subscribers nextRef received) (immediate : List (Id × Result)) :
    Streams subscribers (nextRef + 1) (received ++ immediate.map fun p => (nextRef, p.1)) := by
  refine ⟨fun s hs => Nat.lt_succ_of_lt (h.ref_lt s hs), h.nodup, ?_, ?_⟩
  · intro r hmem
    rcases List.mem_append.mp hmem with hold | hlast
    · exact Nat.lt_succ_of_lt (h.received_lt r hold)
    · obtain ⟨p, -, rfl⟩ := List.mem_map.mp hlast
      exact Nat.lt_succ_self _
  · intro subscriber hmem left hleft id hid hreceived
    rcases List.mem_append.mp hreceived with hbefore | hnow
    · exact h.waiting subscriber hmem left hleft id hid hbefore
    · obtain ⟨p, -, hp⟩ := List.mem_map.mp hnow
      exact absurd (Prod.mk.inj hp).1 (Nat.ne_of_gt (h.ref_lt subscriber hmem))

/-! ## Every reachable state -/

/-- The representation invariant: the counter, the completion queue and the key index say what
the entries say, within the limits, and no open stream waits for a result it was handed. -/
structure FutureWorld.Invariant (maxPending maxCompleted : Limit)
    (world : FutureWorld Id Key Owner Result) : Prop where
  consistent : world.storage.IsConsistent
  pendingCount_le : ¬maxPending.exceededBy world.storage.pendingCount
  completed_le : ¬maxCompleted.exceededBy world.storage.completedOrder.live.length
  streams : Streams world.storage.subscribers world.storage.nextRef world.received
  maxPending : world.storage.maxPending = maxPending
  maxCompleted : world.storage.maxCompleted = maxCompleted
  issued : ∀ id ∈ world.storage.entries, id ∈ world.issued

theorem exceededBy_mono {limit : Limit} {a b : Int} (h : a ≤ b) (hb : ¬limit.exceededBy b) :
    ¬limit.exceededBy a := by
  cases limit with
  | infinity => nofun
  | finite n =>
    simp only [Limit.exceededBy, decide_eq_true_eq] at hb ⊢
    omega

theorem exceededBy_succ {limit : Limit} {a : Int} (h : ¬limit.reachedBy a) :
    ¬limit.exceededBy (a + 1) := by
  cases limit with
  | infinity => nofun
  | finite n =>
    simp only [Limit.reachedBy, Limit.exceededBy, decide_eq_true_eq] at h ⊢
    omega

variable {maxPending maxCompleted : Limit} {world world' : FutureWorld Id Key Owner Result}
  {event : FutureEvent Id Key Owner Result}

theorem invariant_init (maxPending maxCompleted : Limit) (capacity : Nat) :
    FutureWorld.Invariant maxPending maxCompleted
      (.init maxPending maxCompleted capacity : FutureWorld Id Key Owner Result) where
  consistent := ⟨rfl, fun id => ⟨nofun, fun ⟨_, he, _⟩ => nomatch he⟩, List.nodup_nil,
    fun key id => ⟨nofun, fun ⟨_, he, _⟩ => nomatch he⟩⟩
  pendingCount_le := by
    cases maxPending <;> simp [Limit.exceededBy, FutureWorld.init, InMemoryFutureStorage.new]
  completed_le := by
    cases maxCompleted <;> simp [Limit.exceededBy, FutureWorld.init, InMemoryFutureStorage.new]
  streams := ⟨nofun, List.nodup_nil, nofun, nofun⟩
  maxPending := rfl
  maxCompleted := rfl
  issued id h := absurd h (AList.notMem_empty id)

theorem invariant_registered (h : world.Invariant maxPending maxCompleted)
    (registration : FutureRegistration Key Owner) (hfresh : id ∉ world.issued) :
    (world.registered registration id).Invariant maxPending maxCompleted := by
  have hlookup : world.storage.entries.lookup id = none := by
    rw [AList.lookup_eq_none]
    exact fun hid => hfresh (h.issued id hid)
  have hconsistent := InMemoryFutureStorage.isConsistent_register h.consistent registration hlookup
  unfold FutureWorld.registered
  unfold InMemoryFutureStorage.register at hconsistent ⊢
  split at hconsistent
  · split at hconsistent <;> rename_i howner
    · rw [if_pos howner]
      exact ⟨hconsistent, h.pendingCount_le, h.completed_le, h.streams, h.maxPending, h.maxCompleted,
        h.issued⟩
    · rw [if_neg howner]
      exact ⟨hconsistent, h.pendingCount_le, h.completed_le, h.streams, h.maxPending, h.maxCompleted,
        h.issued⟩
  · split at hconsistent <;> rename_i hroom
    · rw [if_pos hroom]
      exact ⟨hconsistent, h.pendingCount_le, h.completed_le, h.streams, h.maxPending, h.maxCompleted,
        h.issued⟩
    · rw [if_neg hroom]
      rw [h.maxPending] at hroom
      refine ⟨hconsistent, exceededBy_succ hroom, h.completed_le, h.streams, h.maxPending,
        h.maxCompleted, fun id' hid' => ?_⟩
      obtain ⟨e, he⟩ := OrderedMap.mem_iff.mp hid'
      change (world.storage.entries.set id _).lookup id' = some e at he
      rw [OrderedMap.lookup_set] at he
      split at he
      · rename_i hsame
        rw [hsame]
        exact List.mem_cons_self
      · exact List.mem_cons_of_mem _ (h.issued id' (OrderedMap.mem_iff.mpr ⟨e, he⟩))

theorem invariant_completed (h : world.Invariant maxPending maxCompleted) (id : Id)
    (result : Result) (discard : Bool) :
    (world.completed id result discard).Invariant maxPending maxCompleted := by
  obtain ⟨hconsistent, hcount, hlimit, e, i, o, p, hframe, hsub⟩ :=
    InMemoryFutureStorage.complete_spec h.consistent id result discard
  have hstreams : Streams (world.storage.remaining id result) world.storage.nextRef
      (world.received ++ (world.storage.complete id result discard).1.map (·, id)) := by
    rcases world.storage.deliveredTo_of_complete id result discard with
      ⟨owner, hrefs, hleft⟩ | ⟨hrefs, hleft⟩
    · rw [hrefs, hleft]
      exact h.streams.deliver _ owner id result
    · rw [hrefs, hleft, List.map_nil, List.append_nil]
      exact h.streams
  rw [h.maxCompleted] at hlimit
  refine ⟨hconsistent, exceededBy_mono hcount h.pendingCount_le, hlimit h.completed_le, ?_, ?_, ?_, ?_⟩
  · change Streams (world.storage.complete id result discard).2.subscribers
      (world.storage.complete id result discard).2.nextRef _
    rw [hframe]
    exact hstreams
  · change (world.storage.complete id result discard).2.maxPending = _
    rw [hframe]
    exact h.maxPending
  · change (world.storage.complete id result discard).2.maxCompleted = _
    rw [hframe]
    exact h.maxCompleted
  · change ∀ id' ∈ (world.storage.complete id result discard).2.entries, id' ∈ world.issued
    rw [hframe]
    exact fun id' hid' => h.issued id' (hsub id' hid')

theorem invariant_cancel (h : world.Invariant maxPending maxCompleted) (id : Id) (owner : Owner) :
    FutureWorld.Invariant maxPending maxCompleted
      { world with storage := (world.storage.cancel id owner).2 } := by
  have hconsistent := InMemoryFutureStorage.isConsistent_cancel h.consistent id owner
  unfold InMemoryFutureStorage.cancel at hconsistent ⊢
  split at hconsistent
  · exact h
  · split at hconsistent <;> rename_i howner
    · rw [if_pos howner]
      exact h
    · rw [if_neg howner]
      split at hconsistent
      · exact h
      · exact ⟨hconsistent, exceededBy_mono (Int.sub_le_self _ Int.one_nonneg) h.pendingCount_le,
          h.completed_le, h.streams, h.maxPending, h.maxCompleted,
          fun id' hid' => h.issued id' (AList.mem_erase.mp hid').2⟩

theorem invariant_subscribed (h : world.Invariant maxPending maxCompleted)
    (ids : Option (List Id)) (owner : Owner) :
    (world.subscribed ids owner).Invariant maxPending maxCompleted := by
  unfold FutureWorld.subscribed InMemoryFutureStorage.subscribe
  dsimp only
  split
  · exact ⟨h.consistent, h.pendingCount_le, h.completed_le, h.streams.skip _, h.maxPending,
      h.maxCompleted, h.issued⟩
  · refine ⟨h.consistent, h.pendingCount_le, h.completed_le, h.streams.open owner _ _ ?_,
      h.maxPending, h.maxCompleted, h.issued⟩
    intro left hsome id hid
    obtain ⟨_, -, hall⟩ := subscribeLoop_remaining owner _ _ hsome
    exact (hall id hid).2

theorem invariant_unsubscribe (h : world.Invariant maxPending maxCompleted) (ref : Nat) :
    FutureWorld.Invariant maxPending maxCompleted
      { world with storage := world.storage.unsubscribe ref } := by
  refine ⟨h.consistent, h.pendingCount_le, h.completed_le, h.streams.sublist ?_ ?_, h.maxPending,
    h.maxCompleted, h.issued⟩
  · exact List.filter_sublist.map _
  · exact fun s hs => ⟨s, List.mem_of_mem_filter hs, rfl, rfl⟩

theorem invariant_pull (h : world.Invariant maxPending maxCompleted) (ref : Nat) :
    FutureWorld.Invariant maxPending maxCompleted
      { world with storage := world.storage.pull ref } := by
  have hsame (s : Subscriber Id Owner Result) :
      (if s.ref = ref then { s with controller := s.controller.read } else s).ref = s.ref ∧
      (if s.ref = ref then { s with controller := s.controller.read } else s).ids = s.ids := by
    split <;> exact ⟨rfl, rfl⟩
  refine ⟨h.consistent, h.pendingCount_le, h.completed_le, h.streams.sublist ?_ ?_, h.maxPending,
    h.maxCompleted, h.issued⟩
  · change ((world.storage.subscribers.map _).map Subscriber.ref).Sublist _
    rw [List.map_map]
    exact (List.map_congr_left fun s _ => (hsame s).1) ▸ List.Sublist.refl _
  · intro s hs
    obtain ⟨s₀, hs₀, rfl⟩ := List.mem_map.mp hs
    exact ⟨s₀, hs₀, (hsame s₀).1.symm, (hsame s₀).2.symm⟩

theorem invariant_step (h : world.Invariant maxPending maxCompleted)
    (hstep : FutureStep world event world') : world'.Invariant maxPending maxCompleted := by
  cases hstep with
  | register registration id hfresh => exact invariant_registered h registration hfresh
  | start _ _ =>
    exact ⟨h.consistent, h.pendingCount_le, h.completed_le, h.streams, h.maxPending, h.maxCompleted,
      h.issued⟩
  | complete id result _ => exact invariant_completed h id result _
  | cancel id owner => exact invariant_cancel h id owner
  | subscribe ids owner => exact invariant_subscribed h ids owner
  | unsubscribe ref => exact invariant_unsubscribe h ref
  | pull ref => exact invariant_pull h ref

/-- The representation invariant holds in every reachable state. -/
theorem futureStorage_invariant (maxPending maxCompleted : Limit) (capacity : Nat)
    (world : FutureWorld Id Key Owner Result)
    (h : Reaches FutureStep (.init maxPending maxCompleted capacity) world) :
    world.Invariant maxPending maxCompleted := by
  obtain ⟨events, hrun⟩ := h
  exact hrun.invariant (fun _ _ _ => invariant_step) (invariant_init maxPending maxCompleted capacity)

/-- A future with a key that ran and was kept. -/
theorem futureStorage_invariant_kept :
    ∃ world : FutureWorld Nat Nat Nat Nat, world.storage.completedOrder.live = [5] ∧
      world.Invariant (.finite 1) (.finite 1) := by
  let w₀ : FutureWorld Nat Nat Nat Nat := .init (.finite 1) (.finite 1) 4
  let w₁ := w₀.registered ⟨some 7, 0, false⟩ 5
  let w₂ := { w₁ with tasks := w₁.tasks.set 5 ⟨false, true⟩ }
  let w₃ := w₂.completed 5 9 false
  have hrun : Run FutureStep w₀ _ w₃ :=
    .cons (.register ⟨some 7, 0, false⟩ 5 (by decide)) (.cons (.start 5 rfl) (.single (.complete 5 9 rfl)))
  exact ⟨w₃, rfl, futureStorage_invariant (.finite 1) (.finite 1) 4 w₃ ⟨_, hrun⟩⟩

end Bebop.TypeScript.Rpc
