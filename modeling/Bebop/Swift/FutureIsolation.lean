import Bebop.Swift.FutureOwners

/-!
# Bebop — one owner's part of the Swift future store

`Seen` relates a world to what it is for one owner: the futures, keys, tasks and
subscribers of the others are gone, and sequence numbers compare as before. A step of the
owner is the same step there, and a step of another owner is none (`seen_step`). So the
owner's part of a run below the limits is a run of its own (`ownerRun`).
-/

set_option linter.unusedSectionVars false

namespace Bebop.Swift.Rpc

open Bebop.Rpc (RpcError streamNumber streamName_of_owner streamName_replicate streamNumber_lt_count
  streamNumber_injective streamNumber_append streamNumber_length count_append streamName_eq_some)
open Transition

variable {Id Key Owner Result : Type} [DecidableEq Id] [DecidableEq Key] [DecidableEq Owner]

/-! ## Counting -/

namespace FutureStore

variable {store store' : FutureStore Id Key Owner Result} {id : Id} {entry : FutureEntry Owner Result}
  {owner : Owner} {result : Result}

/-- The counts of a store in which nothing was evicted: the pending futures are
counted, and the next sequence number is the number of completions so far. -/
structure Counted (store : FutureStore Id Key Owner Result) : Prop where
  word : store.maxCompletedFutures < 2 ^ 64
  pending : store.pendingCount = store.futures.countP fun entry => entry.state.isPending
  next : store.nextCompletionSequence = store.completedOrder.live.length
  sequence : ∀ id sequence, store.sequenceOf id = some sequence → sequence < store.nextCompletionSequence

variable (store) in
def Pending (id : Id) : Prop :=
  ∃ entry, store.futures.lookup id = some entry ∧ entry.state = .pending

theorem Counted.pos (h : store.Counted) (hpending : store.Pending id) : store.pendingCount ≠ 0 := by
  obtain ⟨entry, hentry, hstate⟩ := hpending
  rw [h.pending, OrderedMap.countP_of_lookup _ hentry, hstate]
  exact Nat.succ_ne_zero _

variable (store) in
def Convertible : Prop :=
  ¬store.maxCompletedFutures < unlimited ∨ store.maxCompletedFutures < 2 ^ 63

variable (store) in
/-- What the completion of a pending future leaves when nothing is evicted. -/
def settled (id : Id) (owner : Owner) (result : Result)
    (completedOrder : DropQueue Id) : FutureStore Id Key Owner Result :=
  { { store with pendingCount := store.pendingCount - 1 }.markCompleted id owner result with
    completedOrder }

theorem evict_within (hlimit : store.Convertible)
    (hwithin : store.completedOrder.live.length ≤ store.maxCompletedFutures) :
    ∃ completedOrder, completedOrder.live = store.completedOrder.live ∧
      store.evict = some { store with completedOrder } := by
  unfold evict
  split
  · exact ⟨_, rfl, rfl⟩
  · rename_i hlimited
    rw [if_neg (Nat.not_le.mpr (hlimit.resolve_left hlimited))]
    have hloop : evictLoop store.maxCompletedFutures store.completedOrder.length 0 store =
        some (0, store) := by
      cases hfuel : store.completedOrder.length with
      | zero => rfl
      | succ fuel =>
        rw [evictLoop, Nat.sub_zero, if_neg]
        rw [DropQueue.length_eq]
        exact Nat.not_lt.mpr hwithin
    rw [hloop]
    refine ⟨_, ?_, rfl⟩
    rw [DropQueue.live_compact, DropQueue.live_skip, List.drop_zero]

theorem complete_pending (h : store.Counted) (hlimit : store.Convertible)
    (hbelow : store.completedOrder.live.length < store.maxCompletedFutures)
    (hentry : store.futures.lookup id = some entry) (hstate : entry.state = .pending) (result : Result) :
    ∃ completedOrder, completedOrder.live = store.completedOrder.live ++ [id] ∧
      store.complete id result =
        some (some entry.owner, store.settled id entry.owner result completedOrder) := by
  have hlive : (store.completedOrder.push id).live = store.completedOrder.live ++ [id] :=
    DropQueue.live_push _ _
  have hmarked : ({ store with pendingCount := store.pendingCount - 1 }.markCompleted id entry.owner
      result).Convertible := hlimit
  obtain ⟨order, horder, hevict⟩ := evict_within hmarked (by
    show (store.completedOrder.push id).live.length ≤ store.maxCompletedFutures
    rw [hlive, List.length_append]
    exact hbelow)
  refine ⟨order, horder.trans hlive, ?_⟩
  rw [complete, hentry]
  dsimp only
  rw [hstate, decrement, if_neg (h.pos ⟨entry, hentry, hstate⟩)]
  show Option.map _ (evict _) = _
  rw [hevict]
  rfl

theorem convertible_of_complete (hentry : store.futures.lookup id = some entry)
    (hstate : entry.state = .pending) {answer : Option Owner}
    (hcomplete : store.complete id result = some (answer, store')) : store.Convertible := by
  by_contra hnot
  rw [Convertible, not_or, not_not, Nat.not_lt] at hnot
  have htrap : ({ store with pendingCount := store.pendingCount - 1 }.markCompleted id entry.owner
      result).evict = none := by
    unfold evict
    exact (if_neg (not_not.mpr hnot.1)).trans (if_pos hnot.2)
  rw [complete, hentry] at hcomplete
  dsimp only at hcomplete
  rw [hstate] at hcomplete
  dsimp only at hcomplete
  by_cases hcount : store.pendingCount = 0
  · rw [decrement, if_pos hcount] at hcomplete
    cases hcomplete
  · rw [decrement, if_neg hcount, Option.bind_some, htrap] at hcomplete
    cases hcomplete

theorem complete_other (h : ¬store.Pending id) (result : Result) :
    store.complete id result = some (none, store) := by
  unfold complete
  cases hentry : store.futures.lookup id with
  | none => rfl
  | some entry =>
    dsimp only
    cases hstate : entry.state with
    | pending => exact absurd ⟨entry, hentry, hstate⟩ h
    | completed _ _ => rfl

theorem removePending_pending (h : store.Counted) (hpending : store.Pending id) :
    store.removePending id = some ({ store with pendingCount := store.pendingCount - 1 }.forget id) := by
  obtain ⟨entry, hentry, hstate⟩ := hpending
  rw [removePending, hentry]
  dsimp only
  rw [hstate, decrement, if_neg (h.pos ⟨entry, hentry, hstate⟩)]
  rfl

theorem removePending_other (h : ¬store.Pending id) : store.removePending id = some store := by
  unfold removePending
  cases hentry : store.futures.lookup id with
  | none => rfl
  | some entry =>
    dsimp only
    cases hstate : entry.state with
    | pending => exact absurd ⟨entry, hentry, hstate⟩ h
    | completed _ _ => rfl

/-! ### What keeps the counts -/

theorem counted_start (h : store.Counted) (registration : FutureRegistration Key Owner)
    (hfresh : store.futures.lookup id = none) : (store.start registration id).Counted := by
  obtain ⟨-, -, horder, hnext, -, hmax⟩ := start_frame store registration id
  have hfutures : (store.start registration id).futures =
      store.futures.set id ⟨.pending, registration.owner⟩ := by
    unfold start
    cases registration.idempotencyKey <;> rfl
  have hcount : (store.start registration id).pendingCount = store.pendingCount + 1 := by
    unfold start
    cases registration.idempotencyKey <;> rfl
  refine ⟨hmax ▸ h.word, ?_, ?_, fun id' sequence hsequence => ?_⟩
  · have hold := OrderedMap.countP_eq (fun entry => entry.state.isPending) store.futures id
    rw [hfresh] at hold
    rw [hcount, hfutures, OrderedMap.countP_set, h.pending, hold]
    rfl
  · rw [hnext, horder]
    exact h.next
  · rw [hnext]
    obtain ⟨entry, result, hentry, hstate⟩ := sequenceOf_eq_some.mp hsequence
    rw [lookup_start] at hentry
    split at hentry
    · rw [← Option.some.inj hentry] at hstate
      cases hstate
    · exact h.sequence id' sequence (sequenceOf_eq_some.mpr ⟨entry, result, hentry, hstate⟩)

theorem counted_forget (h : store.Counted) (hpending : store.Pending id) :
    ({ store with pendingCount := store.pendingCount - 1 }.forget id).Counted := by
  have hpos := h.pos hpending
  obtain ⟨r, i, hframe⟩ := forget_eq { store with pendingCount := store.pendingCount - 1 } id
  obtain ⟨entry, hentry, hstate⟩ := hpending
  have hcount := OrderedMap.countP_of_lookup (fun entry => entry.state.isPending) hentry
  rw [hstate] at hcount
  have hone : store.pendingCount = (store.futures.delete id).countP (fun e => e.state.isPending) + 1 :=
    h.pending.trans hcount
  refine ⟨by rw [hframe]; exact h.word, ?_, by rw [hframe]; exact h.next, fun id' q hq => ?_⟩
  · rw [hframe]
    show store.pendingCount - 1 = (store.futures.delete id).countP fun e => e.state.isPending
    omega
  · have hbefore : store.sequenceOf id' = some q := by
      refine sequenceOf_mono (fun e he => ?_) hq
      rw [lookup_forget] at he
      split at he
      · cases he
      · exact he
    rw [hframe]
    exact h.sequence id' q hbefore

theorem next_settled (h : store.Counted)
    (hbelow : store.completedOrder.live.length < store.maxCompletedFutures) (id : Id) (owner : Owner)
    (result : Result) (completedOrder : DropQueue Id) :
    (store.settled id owner result completedOrder).nextCompletionSequence =
      store.nextCompletionSequence + 1 := by
  have hword := h.word
  have hnext := h.next
  show (store.nextCompletionSequence + 1) % 2 ^ 64 = _
  exact Nat.mod_eq_of_lt (by omega)

variable (store) in
theorem sequenceOf_settled (id id' : Id) (owner : Owner)
    (result : Result) (completedOrder : DropQueue Id) :
    (store.settled id owner result completedOrder).sequenceOf id' =
      if id' = id then some store.nextCompletionSequence else store.sequenceOf id' := by
  have hlookup : (store.settled id owner result completedOrder).futures.lookup id' =
      if id' = id then some ⟨.completed result store.nextCompletionSequence, owner⟩
      else store.futures.lookup id' := OrderedMap.lookup_set ..
  unfold sequenceOf
  rw [hlookup]
  by_cases hsame : id' = id
  · rw [if_pos hsame, if_pos hsame]
  · rw [if_neg hsame, if_neg hsame]

theorem counted_settled (h : store.Counted)
    (hbelow : store.completedOrder.live.length < store.maxCompletedFutures)
    (hentry : store.futures.lookup id = some entry) (hstate : entry.state = .pending) (result : Result)
    {completedOrder : DropQueue Id} (horder : completedOrder.live = store.completedOrder.live ++ [id]) :
    (store.settled id entry.owner result completedOrder).Counted := by
  have hnext := next_settled h hbelow id entry.owner result completedOrder
  have hcount := OrderedMap.countP_of_lookup (fun entry => entry.state.isPending) hentry
  rw [hstate] at hcount
  have hone : store.pendingCount = (store.futures.delete id).countP (fun e => e.state.isPending) + 1 :=
    h.pending.trans hcount
  refine ⟨h.word, ?_, ?_, fun id' sequence hsequence => ?_⟩
  · show store.pendingCount - 1 = (store.futures.set id _).countP fun e => e.state.isPending
    rw [OrderedMap.countP_set]
    show _ = _ + 0
    omega
  · rw [hnext, h.next]
    show _ = completedOrder.live.length
    rw [horder, List.length_append, List.length_singleton]
  · rw [sequenceOf_settled] at hsequence
    rw [hnext]
    split at hsequence
    · obtain rfl := Option.some.inj hsequence
      exact Nat.lt_succ_self _
    · exact Nat.lt_succ_of_lt (h.sequence id' sequence hsequence)

theorem counted_subscribers (h : store.Counted) (subscribers : OrderedMap Nat (Subscriber Id Owner))
    (nextSubscriberId : Nat) : Counted { store with subscribers, nextSubscriberId } :=
  ⟨h.word, h.pending, h.next, h.sequence⟩

end FutureStore

open FutureStore

variable {w w' v : OwnedWorld Id Key Owner Result} {event : OwnerEvent Id Key Owner Result}
  {uses : Owner → Key → Prop} {id : Id} {owner owner' : Owner} {result : Result}

theorem counted_finished {world world' : FutureWorld Id Key Owner Result} (h : world.store.Counted)
    (hbelow : world.store.completedOrder.live.length < world.store.maxCompletedFutures) {discard : Bool}
    (hfinish : world.finished id owner discard result = some world') : world'.store.Counted := by
  unfold FutureWorld.finished at hfinish
  by_cases hpending : world.store.Pending id
  · cases discard with
    | true =>
      rw [if_pos rfl, removePending_pending h hpending] at hfinish
      obtain rfl := Option.some.inj hfinish
      exact counted_forget h hpending
    | false =>
      rw [if_neg Bool.false_ne_true, Option.map_eq_some_iff] at hfinish
      obtain ⟨⟨answer, store⟩, hcomplete, rfl⟩ := hfinish
      obtain ⟨entry, hentry, hstate⟩ := hpending
      have hlimit := convertible_of_complete hentry hstate hcomplete
      obtain ⟨order, horder, hsettled⟩ := complete_pending h hlimit hbelow hentry hstate result
      obtain ⟨rfl, rfl⟩ := Prod.mk.inj (Option.some.inj (hcomplete.symm.trans hsettled))
      exact counted_settled h hbelow hentry hstate result horder
  · cases discard with
    | true =>
      rw [if_pos rfl, removePending_other hpending] at hfinish
      obtain rfl := Option.some.inj hfinish
      exact h
    | false =>
      rw [if_neg Bool.false_ne_true, complete_other hpending] at hfinish
      obtain rfl := Option.some.inj hfinish
      exact h

theorem counted_step {world world' : FutureWorld Id Key Owner Result}
    {event : FutureEvent Id Key Owner Result} (hsound : world.Sound) (h : world.store.Counted)
    (hbelow : world.store.completedOrder.live.length < world.store.maxCompletedFutures)
    (hstep : FutureStep world event world') : world'.store.Counted := by
  cases hstep with
  | register registration id hfresh =>
    unfold FutureWorld.registered
    rcases world.store.register_cases registration id with (⟨_, hcall⟩ | ⟨_, hcall⟩) | ⟨-, -, hcall⟩
    · rw [hcall]
      exact h
    · rw [hcall]
      exact h
    · rw [hcall]
      refine counted_start h registration (Option.eq_none_iff_forall_not_mem.mpr fun entry hentry => ?_)
      exact hfresh (hsound.futureIssued id entry hentry)
  | finish id result htask hfinish => exact counted_finished h hbelow hfinish
  | snapshot id htask => exact h
  | yield id subscriber outcome htask => exact h
  | @settle result deliveries id htask =>
    obtain ⟨subscribers, hsettle⟩ := world.store.settle_eq id deliveries
    rw [hsettle]
    exact counted_subscribers h subscribers world.store.nextSubscriberId
  | cancel id owner hcancel =>
    rcases cancel_cases hcancel with ⟨-, entry, hentry, -, hstate, -, rfl⟩ | ⟨-, rfl⟩
    · exact counted_forget h ⟨entry, hentry, hstate⟩
    · exact h
  | subscribe ids owner =>
    obtain ⟨subscribers, next, hsubscribe⟩ := world.store.subscribe_eq ids owner
    unfold FutureWorld.subscribed
    dsimp only
    rw [hsubscribe]
    exact counted_subscribers h subscribers next
  | terminate subscriber => exact counted_subscribers h _ world.store.nextSubscriberId

/-! ## One owner's part of the store -/

def FutureEntry.bare (entry : FutureEntry Owner Result) : Owner × Option Result :=
  (entry.owner, match entry.state with
    | .pending => none
    | .completed result _ => some result)

theorem FutureEntry.bare_pending {entry : FutureEntry Owner Result} :
    entry.bare.2 = none ↔ entry.state = .pending := by
  unfold bare
  cases entry.state with
  | pending => exact ⟨fun _ => rfl, fun _ => rfl⟩
  | completed result sequence => exact ⟨nofun, nofun⟩

/-- The collections of futures, for the identifiers of one owner. -/
structure SeenStore (mine : Id → Bool) (s t : FutureStore Id Key Owner Result) : Prop where
  futures : t.futures.map FutureEntry.bare = (s.futures.map FutureEntry.bare).restrict mine
  keys : ∀ key, t.idempotencyIndex.lookup key = (s.idempotencyIndex.lookup key).filter mine
  order : t.completedOrder.live.length ≤ s.completedOrder.live.length

section

variable {mine mine' : Id → Bool} {s t s' t' : FutureStore Id Key Owner Result}
  {entry : FutureEntry Owner Result}

theorem SeenStore.lookup (h : SeenStore mine s t) (id : Id) :
    (t.futures.lookup id).map FutureEntry.bare =
      if mine id then (s.futures.lookup id).map FutureEntry.bare else none := by
  rw [← OrderedMap.lookup_map, h.futures, OrderedMap.lookup_restrict, OrderedMap.lookup_map]

theorem SeenStore.same (h : SeenStore mine s t) (hid : mine id)
    (hentry : s.futures.lookup id = some entry) :
    ∃ e, t.futures.lookup id = some e ∧ e.owner = entry.owner ∧
      (e.state = .pending ↔ entry.state = .pending) := by
  have hlookup := h.lookup id
  rw [if_pos hid, hentry, Option.map_some] at hlookup
  obtain ⟨e, he, hbare⟩ := Option.map_eq_some_iff.mp hlookup
  refine ⟨e, he, congrArg Prod.fst hbare, ?_⟩
  rw [← FutureEntry.bare_pending, ← FutureEntry.bare_pending, hbare]

theorem SeenStore.lookup_none (h : SeenStore mine s t) (id : Id) (hnone : ¬mine id ∨ s.futures.lookup id = none) :
    t.futures.lookup id = none := by
  have hlookup := h.lookup id
  rcases hnone with hid | hnone
  · rw [if_neg hid] at hlookup
    exact Option.map_eq_none_iff.mp hlookup
  · rw [hnone, Option.map_none, ite_self] at hlookup
    exact Option.map_eq_none_iff.mp hlookup

theorem SeenStore.pending (h : SeenStore mine s t) (hid : mine id) : t.Pending id ↔ s.Pending id := by
  cases hentry : s.futures.lookup id with
  | none =>
    have hnone := h.lookup_none id (.inr hentry)
    exact ⟨fun ⟨_, he, _⟩ => absurd (hnone.symm.trans he) nofun,
      fun ⟨_, he, _⟩ => absurd (hentry.symm.trans he) nofun⟩
  | some entry =>
    obtain ⟨e, he, -, hstate⟩ := h.same hid hentry
    constructor
    · rintro ⟨e', he', hpending⟩
      obtain rfl := Option.some.inj (he.symm.trans he')
      exact ⟨entry, hentry, hstate.mp hpending⟩
    · rintro ⟨e', he', hpending⟩
      obtain rfl := Option.some.inj (hentry.symm.trans he')
      exact ⟨e, he, hstate.mpr hpending⟩

theorem SeenStore.congr (h : SeenStore mine s t)
    (hkeys : ∀ key id, s.idempotencyIndex.lookup key = some id → mine' id = mine id)
    (hfutures : ∀ id ∈ s.futures, mine' id = mine id) : SeenStore mine' s t := by
  refine ⟨h.futures.trans (AList.ext (List.filter_congr fun e he => ?_)), fun key => ?_, h.order⟩
  · have hmem : e.1 ∈ s.futures.map FutureEntry.bare := AList.mem_keys.mpr (List.mem_keys_of_mem he)
    exact (hfutures e.1 (OrderedMap.mem_map.mp hmem)).symm
  · rw [h.keys]
    cases hkey : s.idempotencyIndex.lookup key with
    | none => rfl
    | some id => rw [Option.filter_some, Option.filter_some, hkeys key id hkey]

theorem lookup_index_forget (h : s.KeysInverse) (id : Id) (key : Key) :
    (s.forget id).idempotencyIndex.lookup key =
      (s.idempotencyIndex.lookup key).filter fun id' => id' ≠ id := by
  have hforget := keysInverse_forget h id key
  refine Option.ext fun id' => ?_
  rw [hforget, lookup_reverse_forget, Option.filter_eq_some_iff, decide_eq_true_eq, h]
  by_cases hsame : id' = id
  · rw [if_pos hsame]
    exact ⟨nofun, fun hboth => absurd hsame hboth.2⟩
  · rw [if_neg hsame]
    exact ⟨fun hkey => ⟨hkey, hsame⟩, And.left⟩

theorem seenStore_forget (h : SeenStore mine s t) (hs : s.KeysInverse) (ht : t.KeysInverse) (id : Id) :
    SeenStore mine (s.forget id) (if mine id then t.forget id else t) := by
  obtain ⟨_, _, hframe⟩ := s.forget_eq id
  obtain ⟨_, _, hframe'⟩ := t.forget_eq id
  have hfutures : (s.forget id).futures = s.futures.delete id := by rw [hframe]
  have hfutures' : (t.forget id).futures = t.futures.delete id := by rw [hframe']
  have horder : (s.forget id).completedOrder = s.completedOrder := by rw [hframe]
  have horder' : (t.forget id).completedOrder = t.completedOrder := by rw [hframe']
  by_cases hid : mine id
  · rw [if_pos hid]
    refine ⟨?_, fun key => ?_, by rw [horder', horder]; exact h.order⟩
    · rw [hfutures', hfutures, OrderedMap.map_delete, OrderedMap.map_delete, OrderedMap.restrict_delete,
        h.futures]
    · rw [lookup_index_forget hs, lookup_index_forget ht, h.keys, Option.filter_filter,
        Option.filter_filter]
      exact congrArg (Option.filter · _) (funext fun _ => Bool.and_comm _ _)
  · rw [if_neg hid]
    refine ⟨?_, fun key => ?_, by rw [horder]; exact h.order⟩
    · rw [hfutures, OrderedMap.map_delete, OrderedMap.restrict_delete_of_notMem _ hid, h.futures]
    · rw [lookup_index_forget hs, h.keys, Option.filter_filter]
      refine congrArg (Option.filter · _) (funext fun id' => ?_)
      by_cases hsame : id' = id
      · rw [hsame, Bool.eq_false_iff.mpr hid, Bool.and_false]
      · rw [decide_eq_true hsame, Bool.true_and]

theorem seenStore_start (h : SeenStore mine s t) (registration : FutureRegistration Key Owner) (id : Id)
    (hkey : registration.idempotencyKey.bind s.idempotencyIndex.lookup = none) :
    SeenStore mine (s.start registration id) (if mine id then t.start registration id else t) := by
  have hfutures (s : FutureStore Id Key Owner Result) : (s.start registration id).futures =
      s.futures.set id ⟨.pending, registration.owner⟩ := by
    unfold start
    cases registration.idempotencyKey <;> rfl
  have horder (s : FutureStore Id Key Owner Result) :
      (s.start registration id).completedOrder = s.completedOrder := (start_frame s registration id).2.2.1
  have hindex (s : FutureStore Id Key Owner Result) (key : Key) :
      (s.start registration id).idempotencyIndex.lookup key =
        if registration.idempotencyKey = some key then some id else s.idempotencyIndex.lookup key := by
    unfold start
    cases registration.idempotencyKey with
    | none => rfl
    | some key' =>
      refine (OrderedMap.lookup_set s.idempotencyIndex key' id key).trans ?_
      simp only [Option.some_inj, eq_comm]
  by_cases hid : mine id
  · rw [if_pos hid]
    refine ⟨?_, fun key => ?_, by rw [horder, horder]; exact h.order⟩
    · rw [hfutures, hfutures, OrderedMap.map_set, OrderedMap.map_set, OrderedMap.restrict_set_of_mem _ hid,
        h.futures]
    · rw [hindex, hindex]
      split
      · rw [Option.filter_some, if_pos hid]
      · exact h.keys key
  · rw [if_neg hid]
    refine ⟨?_, fun key => ?_, by rw [horder]; exact h.order⟩
    · rw [hfutures, OrderedMap.map_set, OrderedMap.restrict_set_of_notMem _ hid, h.futures]
    · rw [hindex]
      split
      · rename_i hsome
        rw [hsome, Option.bind_some] at hkey
        rw [h.keys, hkey, Option.filter_none, Option.filter_some, if_neg hid]
      · exact h.keys key

theorem seenStore_settled (h : SeenStore mine s t) (id : Id) (owner : Owner) (result : Result)
    {order order' : DropQueue Id} (horder : order.live = s.completedOrder.live ++ [id])
    (horder' : order'.live = t.completedOrder.live ++ [id]) :
    SeenStore mine (s.settled id owner result order)
      (if mine id then t.settled id owner result order' else t) := by
  by_cases hid : mine id
  · rw [if_pos hid]
    refine ⟨?_, h.keys, ?_⟩
    · show (t.futures.set id _).map _ = ((s.futures.set id _).map _).restrict mine
      rw [OrderedMap.map_set, OrderedMap.map_set, OrderedMap.restrict_set_of_mem _ hid, h.futures]
      rfl
    · show order'.live.length ≤ order.live.length
      rw [horder', horder, List.length_append, List.length_append]
      exact Nat.add_le_add_right h.order _
  · rw [if_neg hid]
    refine ⟨?_, h.keys, ?_⟩
    · show _ = ((s.futures.set id _).map _).restrict mine
      rw [OrderedMap.map_set, OrderedMap.restrict_set_of_notMem _ hid, h.futures]
    · show _ ≤ order.live.length
      rw [horder, List.length_append]
      exact Nat.le_add_right_of_le h.order

/-! ### Results at hand -/

theorem resultFor_eq (s : FutureStore Id Key Owner Result) (owner : Owner) (id : Id) :
    s.resultFor owner id = ((s.futures.lookup id).map FutureEntry.bare).bind fun bare =>
      if bare.1 = owner then bare.2 else none := by
  unfold resultFor
  cases s.futures.lookup id with
  | none => rfl
  | some entry =>
    rw [Option.map_some, Option.bind_some, FutureEntry.bare]
    dsimp only
    cases entry.state with
    | pending => exact (ite_self none).symm
    | completed result sequence => rfl

def OwnEntries (mine : Id → Bool) (owner : Owner) (s : FutureStore Id Key Owner Result) : Prop :=
  ∀ id entry, s.futures.lookup id = some entry → (mine id ↔ entry.owner = owner)

theorem resultFor_other (howner : OwnEntries mine owner s) (hid : ¬mine id) :
    s.resultFor owner id = none := by
  rw [resultFor_eq]
  cases hentry : s.futures.lookup id with
  | none => rfl
  | some entry => exact if_neg (mt (howner id entry hentry).mpr hid)

theorem SeenStore.resultFor (h : SeenStore mine s t) (howner : OwnEntries mine owner s) (id : Id) :
    t.resultFor owner id = s.resultFor owner id := by
  by_cases hid : mine id
  · rw [resultFor_eq, resultFor_eq, h.lookup id, if_pos hid]
  · rw [resultFor_other howner hid, resultFor_eq, h.lookup id, if_neg hid, Option.bind_none]

theorem SeenStore.immediateFor (h : SeenStore mine s t) (howner : OwnEntries mine owner s)
    (ids : List Id) (seen : Finset Id) : t.immediateFor owner ids seen = s.immediateFor owner ids seen := by
  induction ids generalizing seen with
  | nil => rfl
  | cons id ids ih =>
    unfold FutureStore.immediateFor
    rw [ih, ih, h.resultFor howner]

theorem immediateAll_eq (s : FutureStore Id Key Owner Result) (owner : Owner) :
    s.immediateAll owner = ((s.futures.map FutureEntry.bare).pairs.map Prod.fst).filterMap fun id =>
      (s.resultFor owner id).map (id, ·) := by
  rw [immediateAll, OrderedMap.pairs_map, List.map_map, List.filterMap_map]
  rfl

theorem SeenStore.immediateAll (h : SeenStore mine s t) (howner : OwnEntries mine owner s) :
    t.immediateAll owner = s.immediateAll owner := by
  rw [immediateAll_eq, immediateAll_eq, h.futures, OrderedMap.pairs_restrict]
  have hkeys (pairs : List (Id × Owner × Option Result)) :
      (pairs.filter fun e => mine e.1).map Prod.fst = (pairs.map Prod.fst).filter mine := by
    rw [List.filter_map]
    rfl
  rw [hkeys, List.filterMap_filter]
  refine List.filterMap_congr fun id _ => ?_
  split
  · rw [h.resultFor howner]
  · rw [resultFor_other howner ‹_›, Option.map_none]

theorem SeenStore.subscribe (h : SeenStore mine s t) (howner : OwnEntries mine owner s)
    (ids : Option (List Id)) :
    (t.subscribe ids owner).1 = (s.subscribe ids owner).1 ∧
      (((s.subscribe ids owner).2 = (none, s) ∧ (t.subscribe ids owner).2 = (none, t)) ∨
        ∃ futureIds, ∀ u ∈ [s, t], (u.subscribe ids owner).2 = (some u.nextSubscriberId,
          { u with
            nextSubscriberId := u.nextSubscriberId + 1
            subscribers := u.subscribers.set u.nextSubscriberId
              ⟨u.nextSubscriberId, owner, futureIds,
                if ids = none then some u.nextCompletionSequence else none⟩ })) := by
  unfold FutureStore.subscribe
  cases ids with
  | none =>
    refine ⟨h.immediateAll howner, .inr ⟨none, fun u _ => ?_⟩⟩
    rw [if_pos rfl]
  | some ids =>
    have himmediate := h.immediateFor howner ids ∅
    dsimp only
    rw [himmediate]
    by_cases hnothing : ids.toFinset \ ((s.immediateFor owner ids ∅).map Prod.fst).toFinset = ∅
    · rw [if_pos hnothing, if_pos hnothing]
      exact ⟨rfl, .inl ⟨rfl, rfl⟩⟩
    · rw [if_neg hnothing, if_neg hnothing]
      refine ⟨rfl, .inr ⟨some (ids.toFinset \ ((s.immediateFor owner ids ∅).map Prod.fst).toFinset),
        fun u hu => ?_⟩⟩
      have hu' : u.immediateFor owner ids ∅ = s.immediateFor owner ids ∅ := by
        rcases List.mem_cons.mp hu with rfl | hu
        · rfl
        · rw [List.mem_singleton.mp hu, himmediate]
      rw [hu', if_neg hnothing, if_neg nofun]

/-! ### Subscribers -/

/-- Two sequence numbers to start from that accept the same futures. -/
def SameStart (mine : Id → Bool) (s t : FutureStore Id Key Owner Result) :
    Option Nat → Option Nat → Prop
  | none, none => True
  | some minimum, some minimum' =>
    minimum ≤ s.nextCompletionSequence ∧ minimum' ≤ t.nextCompletionSequence ∧
      ∀ id, mine id → ∀ sequence sequence', s.sequenceOf id = some sequence →
        t.sequenceOf id = some sequence' → (minimum ≤ sequence ↔ minimum' ≤ sequence')
  | _, _ => False

/-- In both stores old sequence numbers stay or are lost, and new ones are larger. -/
structure GoesOn (mine mine' : Id → Bool) (s t s' t' : FutureStore Id Key Owner Result) : Prop where
  next : s.nextCompletionSequence ≤ s'.nextCompletionSequence
  next' : t.nextCompletionSequence ≤ t'.nextCompletionSequence
  sequences : ∀ id, mine' id → ∀ sequence sequence', s'.sequenceOf id = some sequence →
    t'.sequenceOf id = some sequence' →
      (mine id ∧ s.sequenceOf id = some sequence ∧ t.sequenceOf id = some sequence') ∨
        (s.nextCompletionSequence ≤ sequence ∧ t.nextCompletionSequence ≤ sequence')

theorem SameStart.goesOn {m m' : Option Nat} (h : SameStart mine s t m m')
    (hgoes : GoesOn mine mine' s t s' t') : SameStart mine' s' t' m m' := by
  cases m with
  | none =>
    cases m' with
    | none => exact trivial
    | some m' => exact h
  | some m =>
    cases m' with
    | none => exact h
    | some m' =>
      obtain ⟨hle, hle', hsame⟩ := h
      refine ⟨hle.trans hgoes.next, hle'.trans hgoes.next', fun id hid sequence sequence' hs ht => ?_⟩
      rcases hgoes.sequences id hid sequence sequence' hs ht with ⟨hold, hs', ht'⟩ | ⟨hnew, hnew'⟩
      · exact hsame id hold sequence sequence' hs' ht'
      · exact ⟨fun _ => hle'.trans hnew', fun _ => hle.trans hnew⟩

structure SeenSubscriber (owner : Owner) (streams : List Owner) (mine : Id → Bool)
    (s t : FutureStore Id Key Owner Result) (p p' : Nat × Subscriber Id Owner) : Prop where
  stream : streams[p.1]? = some owner
  number : p'.1 = streamNumber streams owner p.1
  owned : p.2.owner = owner
  owned' : p'.2.owner = owner
  futureIds : p'.2.futureIds = p.2.futureIds
  start : SameStart mine s t p.2.minimumSequence p'.2.minimumSequence

theorem isSome_sequenceOf (s : FutureStore Id Key Owner Result) (id : Id) :
    (s.sequenceOf id).isSome = (((s.futures.lookup id).map FutureEntry.bare).bind Prod.snd).isSome := by
  unfold sequenceOf
  cases s.futures.lookup id with
  | none => rfl
  | some entry =>
    rw [Option.map_some, Option.bind_some, FutureEntry.bare]
    dsimp only
    cases entry.state <;> rfl

theorem SeenSubscriber.accepts {streams : List Owner} {p p' : Nat × Subscriber Id Owner}
    (h : SeenSubscriber owner streams mine s t p p') (hstore : SeenStore mine s t) (hid : mine id) :
    p.2.accepts id owner (s.sequenceOf id) = p'.2.accepts id owner (t.sequenceOf id) := by
  have hsome : (t.sequenceOf id).isSome = (s.sequenceOf id).isSome := by
    rw [isSome_sequenceOf, isSome_sequenceOf, hstore.lookup id, if_pos hid]
  have hstart := h.start
  unfold Subscriber.accepts
  rw [if_pos h.owned, if_pos h.owned', h.futureIds]
  cases p.2.futureIds with
  | some ids => rfl
  | none =>
    dsimp only
    generalize p.2.minimumSequence = m at hstart ⊢
    generalize p'.2.minimumSequence = m' at hstart ⊢
    cases m with
    | none =>
      cases m' with
      | none => rfl
      | some m' => exact hstart.elim
    | some m =>
      cases m' with
      | none => exact hstart.elim
      | some m' =>
        cases hs : s.sequenceOf id with
        | none =>
          rw [hs, Option.isSome_none, Option.isSome_eq_false_iff, Option.isNone_iff_eq_none] at hsome
          rw [hsome]
        | some q =>
          rw [hs] at hsome
          obtain ⟨q', ht⟩ := Option.isSome_iff_exists.mp hsome
          rw [ht]
          exact decide_eq_decide.mpr (hstart.2.2 id hid q q' hs ht)

theorem GoesOn.lost (hnext : s'.nextCompletionSequence = s.nextCompletionSequence)
    (hnext' : t'.nextCompletionSequence = t.nextCompletionSequence)
    (hs : ∀ id, mine' id → ∀ sequence, s'.sequenceOf id = some sequence →
      mine id ∧ s.sequenceOf id = some sequence)
    (ht : ∀ id sequence, t'.sequenceOf id = some sequence → t.sequenceOf id = some sequence) :
    GoesOn mine mine' s t s' t' where
  next := hnext.ge
  next' := hnext'.ge
  sequences id hid sequence sequence' hsequence hsequence' :=
    .inl ⟨(hs id hid sequence hsequence).1, (hs id hid sequence hsequence).2, ht id sequence' hsequence'⟩

theorem sequenceOf_forget {q : Nat} {n : Nat} (id' : Id)
    (h : ({ s with pendingCount := n }.forget id).sequenceOf id' = some q) : s.sequenceOf id' = some q := by
  refine sequenceOf_mono (fun e he => ?_) h
  rw [lookup_forget] at he
  split at he
  · cases he
  · exact he

theorem SeenSubscriber.goesOn {streams streams' : List Owner} {p p' : Nat × Subscriber Id Owner}
    (h : SeenSubscriber owner streams mine s t p p') (hgoes : GoesOn mine mine' s t s' t')
    (hstreams : streams'[p.1]? = some owner)
    (hnumber : streamNumber streams' owner p.1 = streamNumber streams owner p.1) :
    SeenSubscriber owner streams' mine' s' t' p p' :=
  ⟨hstreams, h.number.trans hnumber.symm, h.owned, h.owned', h.futureIds, h.start.goesOn hgoes⟩

/-! ### Settling -/

def settlePair (id : Id) (delivery : Nat × YieldResult) (p : Nat × Subscriber Id Owner) :
    Option (Nat × Subscriber Id Owner) :=
  if p.1 ≠ delivery.1 then some p
  else
    match delivery.2 with
    | .enqueued =>
      let futureIds := p.2.futureIds.map (·.erase id)
      if futureIds = some ∅ then none else some (p.1, { p.2 with futureIds })
    | .dropped => none
    | .terminated => none

theorem pairs_settleOne (s : FutureStore Id Key Owner Result) (id : Id) (delivery : Nat × YieldResult) :
    (settleOne id s delivery).subscribers.pairs = s.subscribers.pairs.filterMap (settlePair id delivery) := by
  have hdelete (hgone : ∀ subscriber, s.subscribers.lookup delivery.1 = some subscriber →
      settlePair id delivery (delivery.1, subscriber) = none) :
      (s.subscribers.delete delivery.1).pairs = s.subscribers.pairs.filterMap (settlePair id delivery) := by
    rw [OrderedMap.pairs_delete, ← List.filterMap_eq_filter]
    refine List.filterMap_congr fun p hp => ?_
    by_cases hp1 : p.1 = delivery.1
    · have hlookup : s.subscribers.lookup p.1 = some p.2 := OrderedMap.mem_pairs.mp hp
      rw [hp1] at hlookup
      have hnone := hgone p.2 hlookup
      rw [← hp1] at hnone
      rw [show settlePair id delivery p = none from hnone, Option.guard,
        if_neg fun h => (decide_eq_true_iff.mp h) hp1]
    · rw [settlePair, if_pos hp1, Option.guard, if_pos (decide_eq_true hp1)]
  unfold settleOne
  cases hlookup : s.subscribers.lookup delivery.1 with
  | none =>
    have hsame : ∀ p ∈ s.subscribers.pairs, settlePair id delivery p = some p := fun p hp => by
      refine if_pos fun hp1 => ?_
      have hsome : s.subscribers.lookup p.1 = some p.2 := OrderedMap.mem_pairs.mp hp
      rw [hp1, hlookup] at hsome
      cases hsome
    rw [List.filterMap_congr hsame, List.filterMap_some]
  | some subscriber =>
    dsimp only
    have hself : settlePair id delivery (delivery.1, subscriber) = _ := if_neg (not_not.mpr rfl)
    cases houtcome : delivery.2 with
    | enqueued =>
      rw [houtcome] at hself
      dsimp only at hself ⊢
      by_cases hempty : subscriber.futureIds.map (·.erase id) = some ∅
      · rw [if_pos hempty] at hself ⊢
        refine hdelete fun subscriber' hsome => ?_
        obtain rfl := Option.some.inj (hlookup.symm.trans hsome)
        exact hself
      · rw [if_neg hempty] at hself ⊢
        dsimp only
        rw [OrderedMap.pairs_set_of_mem (OrderedMap.mem_iff.mpr ⟨subscriber, hlookup⟩),
          ← List.filterMap_eq_map]
        refine List.filterMap_congr fun p hp => ?_
        rw [Function.comp_apply]
        by_cases hp1 : p.1 = delivery.1
        · have hsome : s.subscribers.lookup p.1 = some p.2 := OrderedMap.mem_pairs.mp hp
          rw [hp1, hlookup] at hsome
          obtain ⟨number, subscriber'⟩ := p
          obtain rfl := Option.some.inj hsome
          obtain rfl : number = delivery.1 := hp1
          rw [if_pos rfl, hself]
        · rw [if_neg hp1, settlePair, if_pos hp1]
    | dropped =>
      rw [houtcome] at hself
      exact hdelete fun subscriber' hsome => by
        obtain rfl := Option.some.inj (hlookup.symm.trans hsome)
        exact hself
    | terminated =>
      rw [houtcome] at hself
      exact hdelete fun subscriber' hsome => by
        obtain rfl := Option.some.inj (hlookup.symm.trans hsome)
        exact hself

theorem pairs_settle (s : FutureStore Id Key Owner Result) (id : Id)
    (deliveries : List (Nat × YieldResult)) :
    (s.settle id deliveries).subscribers.pairs =
      deliveries.foldl (fun pairs delivery => pairs.filterMap (settlePair id delivery))
        s.subscribers.pairs := by
  unfold settle
  induction deliveries generalizing s with
  | nil => rfl
  | cons delivery rest ih => rw [List.foldl_cons, List.foldl_cons, ih, pairs_settleOne]

def ownPairs (owner : Owner) (pairs : List (Nat × Subscriber Id Owner)) : List (Nat × Subscriber Id Owner) :=
  pairs.filter fun p => p.2.owner = owner

theorem ownPairs_append (owner : Owner) (pairs : List (Nat × Subscriber Id Owner)) (number : Nat)
    (subscriber : Subscriber Id Owner) :
    ownPairs owner (pairs ++ [(number, subscriber)]) =
      ownPairs owner pairs ++ if subscriber.owner = owner then [(number, subscriber)] else [] := by
  unfold ownPairs
  rw [List.filter_append, List.filter_singleton, Bool.cond_decide]

theorem settlePair_owner {delivery : Nat × YieldResult} {p q : Nat × Subscriber Id Owner}
    (h : settlePair id delivery p = some q) : q.1 = p.1 ∧ q.2.owner = p.2.owner := by
  unfold settlePair at h
  split at h
  · rw [← Option.some.inj h]
    exact ⟨rfl, rfl⟩
  · split at h
    · dsimp only at h
      split at h
      · cases h
      · rw [← Option.some.inj h]
        exact ⟨rfl, rfl⟩
    · cases h
    · cases h

theorem ownPairs_settlePair (owner : Owner) (delivery : Nat × YieldResult)
    (pairs : List (Nat × Subscriber Id Owner)) :
    ownPairs owner (pairs.filterMap (settlePair id delivery)) =
      (ownPairs owner pairs).filterMap (settlePair id delivery) := by
  unfold ownPairs
  rw [List.filter_filterMap, List.filterMap_filter]
  refine List.filterMap_congr fun p _ => ?_
  cases hleft : settlePair id delivery p with
  | none => rw [Option.filter_none, ite_self]
  | some q =>
    rw [Option.filter_some, (settlePair_owner hleft).2]

theorem seenSubscribers_settlePair {streams : List Owner} {pairs pairs' : List (Nat × Subscriber Id Owner)}
    (h : List.Forall₂ (SeenSubscriber owner streams mine s t) (ownPairs owner pairs) pairs')
    {delivery : Nat × YieldResult} (hdelivery : streams[delivery.1]? = some owner) :
    List.Forall₂ (SeenSubscriber owner streams mine s t)
      (ownPairs owner (pairs.filterMap (settlePair id delivery)))
      (pairs'.filterMap (settlePair id (streamNumber streams owner delivery.1, delivery.2))) := by
  rw [ownPairs_settlePair]
  refine List.rel_filterMap (fun p p' hp => ?_) h
  have hsame : p'.1 = streamNumber streams owner delivery.1 ↔ p.1 = delivery.1 := by
    rw [hp.number]
    exact ⟨streamNumber_injective hp.stream hdelivery, fun heq => heq ▸ rfl⟩
  unfold settlePair
  by_cases hnumber : p.1 = delivery.1
  · rw [if_neg (not_not.mpr hnumber), if_neg (not_not.mpr (hsame.mpr hnumber))]
    dsimp only
    cases delivery.2 with
    | enqueued =>
      dsimp only
      rw [hp.futureIds]
      split
      · exact .none
      · exact .some ⟨hp.stream, hp.number, hp.owned, hp.owned', rfl, hp.start⟩
    | dropped => exact .none
    | terminated => exact .none
  · rw [if_pos hnumber, if_pos (mt hsame.mp hnumber)]
    exact .some hp

theorem seenSubscribers_settle {streams : List Owner} {pairs pairs' : List (Nat × Subscriber Id Owner)}
    (h : List.Forall₂ (SeenSubscriber owner streams mine s t) (ownPairs owner pairs) pairs')
    {deliveries : List (Nat × YieldResult)}
    (hdeliveries : ∀ delivery ∈ deliveries, streams[delivery.1]? = some owner) :
    List.Forall₂ (SeenSubscriber owner streams mine s t)
      (ownPairs owner (deliveries.foldl (fun pairs d => pairs.filterMap (settlePair id d)) pairs))
      ((deliveries.map fun d => (streamNumber streams owner d.1, d.2)).foldl
        (fun pairs d => pairs.filterMap (settlePair id d)) pairs') := by
  induction deliveries generalizing pairs pairs' with
  | nil => exact h
  | cons delivery rest ih =>
    rw [List.map_cons, List.foldl_cons, List.foldl_cons]
    exact ih (seenSubscribers_settlePair h (hdeliveries delivery (List.mem_cons_self ..)))
      fun d hd => hdeliveries d (List.mem_cons_of_mem _ hd)

theorem ownPairs_settle_other {streams : List Owner} {pairs : List (Nat × Subscriber Id Owner)}
    (hpairs : ∀ p ∈ pairs, streams[p.1]? = some p.2.owner) (hother : owner' ≠ owner)
    {deliveries : List (Nat × YieldResult)}
    (hdeliveries : ∀ delivery ∈ deliveries, streams[delivery.1]? = some owner') :
    ownPairs owner (deliveries.foldl (fun pairs d => pairs.filterMap (settlePair id d)) pairs) =
      ownPairs owner pairs := by
  induction deliveries generalizing pairs with
  | nil => rfl
  | cons delivery rest ih =>
    rw [List.foldl_cons, ih]
    · rw [ownPairs_settlePair]
      have hsame : ∀ p ∈ ownPairs owner pairs, settlePair id delivery p = some p := fun p hp => by
        obtain ⟨hmem, howner⟩ := List.mem_filter.mp hp
        refine if_pos fun heq => hother ?_
        have hstream := hpairs p hmem
        rw [heq, hdeliveries delivery (List.mem_cons_self ..), decide_eq_true_iff.mp howner] at hstream
        exact Option.some.inj hstream
      rw [List.filterMap_congr hsame, List.filterMap_some]
    · intro q hq
      obtain ⟨p, hp, hleft⟩ := List.mem_filterMap.mp hq
      obtain ⟨hnumber, howner⟩ := settlePair_owner hleft
      rw [hnumber, howner]
      exact hpairs p hp
    · exact fun d hd => hdeliveries d (List.mem_cons_of_mem _ hd)

theorem matching_eq {streams : List Owner} (hstore : SeenStore mine s t) (hid : mine id)
    (h : List.Forall₂ (SeenSubscriber owner streams mine s t) (ownPairs owner s.subscribers.pairs)
      t.subscribers.pairs) :
    t.matching id owner = (s.matching id owner).map (streamNumber streams owner) := by
  have hown : s.subscribers.pairs.filter (fun p => p.2.accepts id owner (s.sequenceOf id)) =
      (ownPairs owner s.subscribers.pairs).filter fun p => p.2.accepts id owner (s.sequenceOf id) := by
    rw [ownPairs, List.filter_filter]
    refine List.filter_congr fun p _ => ?_
    by_cases howner : p.2.owner = owner
    · rw [decide_eq_true howner, Bool.and_true]
    · rw [decide_eq_false howner, Bool.and_false]
      exact if_neg howner
  have hfilter := List.rel_filter
    (p := fun p => p.2.accepts id owner (s.sequenceOf id))
    (q := fun p => p.2.accepts id owner (t.sequenceOf id))
    (fun p p' hp => iff_of_eq (congrArg (· = true) (hp.accepts hstore hid))) h
  unfold matching
  rw [hown, List.map_map]
  generalize (ownPairs owner s.subscribers.pairs).filter _ = left at hfilter
  generalize t.subscribers.pairs.filter _ = right at hfilter
  induction hfilter with
  | nil => rfl
  | cons hp _ ih => rw [List.map_cons, List.map_cons, ih, hp.number, Function.comp_apply]

end

/-! ## One owner's part of a run -/

/-- A task, with the owner's numbers for the streams. -/
def TaskState.renumber (number : Nat → Nat) : TaskState Owner Result → TaskState Owner Result
  | executing owner discardResult => executing owner discardResult
  | notifying owner result => notifying owner result
  | yielding result waiting deliveries =>
    yielding result (waiting.map number) (deliveries.map fun d => (number d.1, d.2))

namespace OwnedWorld

def mine (w : OwnedWorld Id Key Owner Result) (owner : Owner) (id : Id) : Bool :=
  w.owners.lookup id = some owner

def number (w : OwnedWorld Id Key Owner Result) (owner : Owner) (ref : Nat) : Nat :=
  streamNumber w.streams owner ref

theorem mine_iff : w.mine owner id ↔ w.owners.lookup id = some owner := decide_eq_true_iff

end OwnedWorld

/-- `v` is what `w` is for the owner. -/
structure Seen (owner : Owner) (w v : OwnedWorld Id Key Owner Result) : Prop where
  sound : v.world.Sound
  counted : v.world.store.Counted
  maxPending : v.world.store.maxPendingFutures = w.world.store.maxPendingFutures
  maxCompleted : v.world.store.maxCompletedFutures = w.world.store.maxCompletedFutures
  store : SeenStore (w.mine owner) w.world.store v.world.store
  subscribers : List.Forall₂ (SeenSubscriber owner w.streams (w.mine owner) w.world.store v.world.store)
    (ownPairs owner w.world.store.subscribers.pairs) v.world.store.subscribers.pairs
  nextSubscriberId : v.world.store.nextSubscriberId = w.streams.count owner
  streams : v.streams = List.replicate (w.streams.count owner) owner
  tasks : v.world.tasks = (w.world.tasks.restrict (w.mine owner)).map (.renumber (w.number owner))
  issued : ∀ id ∈ v.world.issued, id ∈ w.world.issued
  owners : ∀ id, v.owners.lookup id = (w.owners.lookup id).filter (· = owner)

structure OwnedWorld.Steady (uses : Owner → Key → Prop) (w : OwnedWorld Id Key Owner Result) : Prop
    extends w.Sound uses where
  counted : w.world.store.Counted

theorem counted_init {maxPendingFutures maxCompletedFutures : Nat} (hword : maxCompletedFutures < 2 ^ 64) :
    (new maxPendingFutures maxCompletedFutures : FutureStore Id Key Owner Result).Counted :=
  ⟨hword, rfl, rfl, nofun⟩

theorem seen_init (owner : Owner) {maxPendingFutures maxCompletedFutures : Nat}
    (hword : maxCompletedFutures < 2 ^ 64) :
    Seen owner (.init maxPendingFutures maxCompletedFutures : OwnedWorld Id Key Owner Result)
      (.init maxPendingFutures maxCompletedFutures) where
  sound := sound_init maxPendingFutures maxCompletedFutures
  counted := counted_init hword
  maxPending := rfl
  maxCompleted := rfl
  store := ⟨rfl, fun _ => rfl, Nat.le_refl _⟩
  subscribers := .nil
  nextSubscriberId := rfl
  streams := rfl
  tasks := rfl
  issued _ h := h
  owners _ := rfl

theorem Seen.streamName (h : Seen owner w v) {ref : Nat} (href : w.streams[ref]? = some owner) :
    w.streamName ref = some (owner, w.number owner ref) ∧
      v.streamName (w.number owner ref) = some (owner, w.number owner ref) := by
  refine ⟨streamName_of_owner href, ?_⟩
  rw [OwnedWorld.streamName, h.streams]
  exact streamName_replicate (streamNumber_lt_count href) owner

theorem OwnedWorld.Sound.ownEntries (h : w.Sound uses) (owner : Owner) :
    OwnEntries (w.mine owner) owner w.world.store := by
  intro id entry hentry
  rw [OwnedWorld.mine_iff, h.futureOwner id entry hentry, Option.some_inj]

theorem Seen.below (h : Seen owner w v) (hw : w.Steady uses) (hbelow : w.BelowLimits) :
    v.BelowLimits := by
  refine ⟨?_, ?_⟩
  · rw [h.maxPending]
    refine Nat.lt_of_le_of_lt ?_ hbelow.1
    rw [h.counted.pending, hw.counted.pending]
    have hcount (s : FutureStore Id Key Owner Result) :
        s.futures.countP (fun entry => entry.state.isPending) =
          (s.futures.map FutureEntry.bare).countP fun bare => bare.2.isNone := by
      rw [OrderedMap.countP_map]
      refine congrArg (fun p => OrderedMap.countP p s.futures) (funext fun entry => ?_)
      unfold FutureEntry.bare
      rw [Function.comp_apply]
      dsimp only
      cases entry.state <;> rfl
    rw [hcount, hcount, h.store.futures]
    exact OrderedMap.countP_restrict_le _ _ _
  · rw [h.maxCompleted]
    refine Nat.lt_of_le_of_lt ?_ hbelow.2
    exact h.store.order

theorem Seen.task (h : Seen owner w v) (hid : w.mine owner id) {task : TaskState Owner Result}
    (htask : w.world.tasks.lookup id = some task) :
    v.world.tasks.lookup id = some (task.renumber (w.number owner)) := by
  rw [h.tasks, OrderedMap.lookup_map, OrderedMap.lookup_restrict, if_pos hid, htask, Option.map_some]

theorem Seen.lookup_owner (h : Seen owner w v) (howner : w.owners.lookup id = some owner) :
    v.owners.lookup id = some owner := by
  rw [h.owners, howner, Option.filter_some, if_pos (decide_eq_true rfl)]

theorem Seen.tasks_set (h : Seen owner w v) (hid : w.mine owner id) (task : TaskState Owner Result) :
    v.world.tasks.set id (task.renumber (w.number owner)) =
      ((w.world.tasks.set id task).restrict (w.mine owner)).map (.renumber (w.number owner)) := by
  rw [OrderedMap.restrict_set_of_mem _ hid, OrderedMap.map_set, h.tasks]

theorem Seen.tasks_set_other (h : Seen owner w v) (hid : ¬w.mine owner id) (task : TaskState Owner Result) :
    v.world.tasks =
      ((w.world.tasks.set id task).restrict (w.mine owner)).map (.renumber (w.number owner)) := by
  rw [OrderedMap.restrict_set_of_notMem _ hid, h.tasks]

theorem Seen.tasks_delete (h : Seen owner w v) (id : Id) : v.world.tasks.delete id =
      ((w.world.tasks.delete id).restrict (w.mine owner)).map (.renumber (w.number owner)) := by
  rw [OrderedMap.restrict_delete, OrderedMap.map_delete, h.tasks]

theorem Seen.tasks_delete_other (h : Seen owner w v) (hid : ¬w.mine owner id) : v.world.tasks =
      ((w.world.tasks.delete id).restrict (w.mine owner)).map (.renumber (w.number owner)) := by
  rw [OrderedMap.restrict_delete_of_notMem _ hid, h.tasks]

theorem not_mine (howner : w.owners.lookup id = some owner') (hne : owner' ≠ owner) :
    ¬w.mine owner id := by
  rw [OwnedWorld.mine_iff, howner, Option.some_inj]
  exact hne

/-! ### Registrations -/

def OwnedWorld.started (w : OwnedWorld Id Key Owner Result) (registration : FutureRegistration Key Owner)
    (id : Id) : OwnedWorld Id Key Owner Result :=
  { w with
    world :=
      { w.world with
        store := w.world.store.start registration id
        tasks := w.world.tasks.set id (.executing registration.owner registration.discardResult)
        issued := id :: w.world.issued }
    owners := w.owners.set id registration.owner }

theorem OwnedWorld.started_eq {registration : FutureRegistration Key Owner}
    (hcall : w.world.store.register registration id =
      (.ok (.started id), w.world.store.start registration id)) :
    { w with
      world := w.world.registered registration id
      owners := w.ownersAfter registration.owner (w.world.store.register registration id).1 } =
      w.started registration id := by
  unfold FutureWorld.registered OwnedWorld.started
  rw [hcall]
  rfl

theorem OwnedWorld.registered_of_unchanged {registration : FutureRegistration Key Owner}
    {answer : Except RpcError (Registered Id)}
    (hcall : w.world.store.register registration id = (answer, w.world.store))
    (hnone : ∀ id', answer ≠ .ok (.started id')) :
    { w with
      world := w.world.registered registration id
      owners := w.ownersAfter registration.owner (w.world.store.register registration id).1 } = w := by
  unfold FutureWorld.registered
  rw [hcall]
  cases answer with
  | error error => rfl
  | ok registered =>
    cases registered with
    | existing known => rfl
    | started known => exact absurd rfl (hnone known)

theorem OwnedWorld.mine_started (w : OwnedWorld Id Key Owner Result) (id : Id)
    (registration : FutureRegistration Key Owner) (owner : Owner) :
    ((w.started registration id).mine owner id ↔ registration.owner = owner) ∧
      ∀ id', id' ≠ id → (w.started registration id).mine owner id' = w.mine owner id' := by
  have hlookup (id' : Id) : (w.started registration id).owners.lookup id' =
      if id' = id then some registration.owner else w.owners.lookup id' := OrderedMap.lookup_set ..
  refine ⟨?_, fun id' hne => ?_⟩
  · rw [OwnedWorld.mine_iff, hlookup, if_pos rfl, Option.some_inj]
  · rw [OwnedWorld.mine, hlookup, if_neg hne, OwnedWorld.mine]

theorem Seen.register (h : Seen owner w v) (hw : w.Steady uses) (hbelow : w.BelowLimits)
    (hkeys : ∀ o o' key, uses o key → uses o' key → o = o')
    {registration : FutureRegistration Key Owner} (howner : registration.owner = owner)
    (huses : ∀ key, registration.idempotencyKey = some key → uses registration.owner key) (id : Id) :
    (∃ answer, (∀ id', answer ≠ .ok (.started id')) ∧
      w.world.store.register registration id = (answer, w.world.store) ∧
      v.world.store.register registration id = (answer, v.world.store)) ∨
    (registration.idempotencyKey.bind w.world.store.idempotencyIndex.lookup = none ∧
      w.world.store.register registration id =
        (.ok (.started id), w.world.store.start registration id) ∧
      v.world.store.register registration id =
        (.ok (.started id), v.world.store.start registration id)) := by
  cases hbind : registration.idempotencyKey.bind w.world.store.idempotencyIndex.lookup with
  | none =>
    have hbind' : registration.idempotencyKey.bind v.world.store.idempotencyIndex.lookup = none := by
      cases hkey : registration.idempotencyKey with
      | none => rfl
      | some key =>
        rw [hkey, Option.bind_some] at hbind
        rw [Option.bind_some, h.store.keys, hbind, Option.filter_none]
    refine .inr ⟨rfl, ?_, ?_⟩
    · rw [FutureStore.register, hbind]
      exact if_neg fun hfull => Nat.not_le.mpr hbelow.1 hfull.2
    · rw [FutureStore.register, hbind']
      exact if_neg fun hfull => Nat.not_le.mpr (h.below hw hbelow).1 hfull.2
  | some known =>
    obtain ⟨key, hkey, hlookup⟩ := Option.bind_eq_some_iff.mp hbind
    obtain ⟨entry, hentry, hused⟩ := hw.keyOwner known key ((hw.sound.keys key known).mp hlookup)
    -- Whoever has the key used it, so it is the owner.
    have hsame : entry.owner = owner := (hkeys _ _ key hused (huses key hkey)).trans howner
    have hmine : w.mine owner known := (hw.ownEntries owner known entry hentry).mpr hsame
    obtain ⟨entry', hentry', howner', -⟩ := h.store.same hmine hentry
    have hbind' : registration.idempotencyKey.bind v.world.store.idempotencyIndex.lookup = some known := by
      rw [hkey, Option.bind_some, h.store.keys, hlookup, Option.filter_some, if_pos hmine]
    refine .inl ⟨.ok (.existing known), fun _ heq => (by cases heq), ?_, ?_⟩
    · rw [FutureStore.register, hbind]
      refine if_pos ?_
      rw [hentry, Option.map_some, hsame, howner]
    · rw [FutureStore.register, hbind']
      refine if_pos ?_
      rw [hentry', Option.map_some, howner', hsame, howner]

theorem Seen.fresh (h : Seen owner w v) (hw : w.Steady uses) (hfresh : id ∉ w.world.issued)
    (registration : FutureRegistration Key Owner) :
    SeenStore ((w.started registration id).mine owner) w.world.store v.world.store ∧
      v.world.tasks = (w.world.tasks.restrict ((w.started registration id).mine owner)).map
        (.renumber (w.number owner)) ∧
      ∀ id', ((w.started registration id).mine owner) id' → ∀ sequence,
        (w.world.store.start registration id).sequenceOf id' = some sequence →
          w.mine owner id' ∧ w.world.store.sequenceOf id' = some sequence := by
  have hsame (id' : Id) (hid' : id' ∈ w.world.issued) :
      (w.started registration id).mine owner id' = w.mine owner id' :=
    (w.mine_started id registration owner).2 id' fun heq => hfresh (heq ▸ hid')
  refine ⟨h.store.congr (fun key id' hkey => ?_) fun id' hid' => ?_, ?_,
    fun id' hid' sequence hsequence => ?_⟩
  · exact hsame id' (hw.sound.keyIssued id' key ((hw.sound.keys key id').mp hkey))
  · obtain ⟨entry, hentry⟩ := OrderedMap.mem_iff.mp hid'
    exact hsame id' (hw.sound.futureIssued id' entry hentry)
  · refine h.tasks.trans (congrArg _ (AList.ext (List.filter_congr fun e he => ?_)))
    have hmem : e.1 ∈ w.world.tasks := AList.mem_keys.mpr (List.mem_keys_of_mem he)
    obtain ⟨task, htask⟩ := OrderedMap.mem_iff.mp hmem
    exact (hsame e.1 (hw.sound.taskIssued _ task htask)).symm
  · obtain ⟨entry, result, hentry, hstate⟩ := sequenceOf_eq_some.mp hsequence
    rw [lookup_start] at hentry
    split at hentry
    · rw [← Option.some.inj hentry] at hstate
      cases hstate
    · refine ⟨?_, sequenceOf_eq_some.mpr ⟨entry, result, hentry, hstate⟩⟩
      rwa [← hsame id' (hw.sound.futureIssued id' entry hentry)]

theorem Seen.started_own (h : Seen owner w v) (hw : w.Steady uses) (hfresh : id ∉ w.world.issued)
    {registration : FutureRegistration Key Owner} (howner : registration.owner = owner)
    (hkey : registration.idempotencyKey.bind w.world.store.idempotencyIndex.lookup = none)
    (hsound : (v.started registration id).world.Sound) :
    Seen owner (w.started registration id) (v.started registration id) := by
  have hmine := (w.mine_started id registration owner).1.mpr howner
  obtain ⟨hstore, htasks, hsequence⟩ := h.fresh hw hfresh registration
  have hstart := seenStore_start hstore registration id hkey
  rw [if_pos hmine] at hstart
  obtain ⟨hnext, hsubs, -, hseq, hpend, hcomp⟩ := start_frame w.world.store registration id
  obtain ⟨hnext', hsubs', -, hseq', hpend', hcomp'⟩ := start_frame v.world.store registration id
  have hfresh' : v.world.store.futures.lookup id = none :=
    Option.eq_none_iff_forall_not_mem.mpr fun entry hentry =>
      hfresh (h.issued id (h.sound.futureIssued id entry hentry))
  have hlost (id' : Id) (q : Nat) (hq : (v.world.store.start registration id).sequenceOf id' = some q) :
      v.world.store.sequenceOf id' = some q := by
    obtain ⟨entry, result, hentry, hstate⟩ := sequenceOf_eq_some.mp hq
    rw [lookup_start] at hentry
    split at hentry
    · rw [← Option.some.inj hentry] at hstate
      cases hstate
    · exact sequenceOf_eq_some.mpr ⟨entry, result, hentry, hstate⟩
  refine ⟨hsound, counted_start h.counted registration hfresh', hpend'.trans (h.maxPending.trans hpend.symm),
    hcomp'.trans (h.maxCompleted.trans hcomp.symm), hstart, ?_, hnext'.trans h.nextSubscriberId,
    h.streams, ?_, fun id' hid' => ?_, fun id' => ?_⟩
  · show List.Forall₂ _ (ownPairs owner (w.world.store.start registration id).subscribers.pairs)
      (v.world.store.start registration id).subscribers.pairs
    rw [hsubs, hsubs']
    exact h.subscribers.imp fun p p' hp => hp.goesOn (.lost hseq hseq' hsequence hlost) hp.stream rfl
  · show v.world.tasks.set id _ = ((w.world.tasks.set id _).restrict _).map _
    rw [OrderedMap.restrict_set_of_mem _ hmine, OrderedMap.map_set, htasks]
    rfl
  · rcases List.mem_cons.mp hid' with rfl | hold
    · exact List.mem_cons_self ..
    · exact List.mem_cons_of_mem _ (h.issued id' hold)
  · show (v.owners.set id registration.owner).lookup id' =
      ((w.owners.set id registration.owner).lookup id').filter (· = owner)
    rw [OrderedMap.lookup_set, OrderedMap.lookup_set]
    split
    · rw [Option.filter_some, if_pos (decide_eq_true howner)]
    · exact h.owners id'

theorem Seen.started_other (h : Seen owner w v) (hw : w.Steady uses) (hfresh : id ∉ w.world.issued)
    {registration : FutureRegistration Key Owner} (howner : registration.owner ≠ owner)
    (hkey : registration.idempotencyKey.bind w.world.store.idempotencyIndex.lookup = none) :
    Seen owner (w.started registration id) v := by
  have hmine := mt (w.mine_started id registration owner).1.mp howner
  obtain ⟨hstore, htasks, hsequence⟩ := h.fresh hw hfresh registration
  have hstart := seenStore_start hstore registration id hkey
  rw [if_neg hmine] at hstart
  obtain ⟨hnext, hsubs, -, hseq, hpend, hcomp⟩ := start_frame w.world.store registration id
  refine ⟨h.sound, h.counted, h.maxPending.trans hpend.symm, h.maxCompleted.trans hcomp.symm, hstart, ?_,
    h.nextSubscriberId, h.streams, ?_, fun id' hid' => ?_, fun id' => ?_⟩
  · show List.Forall₂ _ (ownPairs owner (w.world.store.start registration id).subscribers.pairs) _
    rw [hsubs]
    exact h.subscribers.imp fun p p' hp =>
      hp.goesOn (.lost hseq rfl hsequence fun _ _ hq => hq) hp.stream rfl
  · show v.world.tasks = ((w.world.tasks.set id _).restrict _).map _
    rw [OrderedMap.restrict_set_of_notMem _ hmine, htasks]
    rfl
  · exact List.mem_cons_of_mem _ (h.issued id' hid')
  · show v.owners.lookup id' =
      ((w.owners.set id registration.owner).lookup id').filter (· = owner)
    rw [OrderedMap.lookup_set]
    split
    · rename_i hsame
      rw [Option.filter_some, if_neg (decide_eq_true_iff.not.mpr howner), h.owners, hsame]
      cases hlookup : w.owners.lookup id with
      | none => rfl
      | some o => exact absurd (hw.issued id o hlookup) hfresh
    · exact h.owners id'

theorem seen_register (h : Seen owner w v) (hw : w.Steady uses) (hbelow : w.BelowLimits)
    (hkeys : ∀ o o' key, uses o key → uses o' key → o = o')
    (registration : FutureRegistration Key Owner) (hfresh : id ∉ w.world.issued)
    (huses : ∀ key, registration.idempotencyKey = some key → uses registration.owner key) :
    let w' : OwnedWorld Id Key Owner Result := { w with
      world := w.world.registered registration id
      owners := w.ownersAfter registration.owner (w.world.store.register registration id).1 }
    if registration.owner = owner then
      ∃ v', OwnedStep v (.register registration (w.world.store.register registration id).1) v' ∧
        Seen owner w' v'
    else Seen owner w' v := by
  intro w'
  split
  · rename_i howner
    have hfresh' : id ∉ v.world.issued := fun hid => hfresh (h.issued id hid)
    have hone := OwnedStep.register (w := v) (.register registration id hfresh')
    rcases h.register hw hbelow hkeys howner huses id with
      ⟨answer, hnone, hcall, hcall'⟩ | ⟨hkey, hcall, hcall'⟩
    · have hw' : w' = w := OwnedWorld.registered_of_unchanged hcall hnone
      rw [OwnedWorld.registered_of_unchanged hcall' hnone, hcall'] at hone
      exact ⟨v, hcall ▸ hone, hw' ▸ h⟩
    · have hw' : w' = w.started registration id := OwnedWorld.started_eq hcall
      have hsound := sound_registered h.sound registration hfresh'
      have hv' := OwnedWorld.started_eq hcall'
      rw [hv', hcall'] at hone
      have hworld := congrArg OwnedWorld.world hv'
      exact ⟨v.started registration id, hcall ▸ hone,
        hw' ▸ h.started_own hw hfresh howner hkey (hworld ▸ hsound)⟩
  · rename_i howner
    rcases w.world.store.register_cases registration id with
      (⟨error, hcall⟩ | ⟨known, hcall⟩) | ⟨hkey, -, hcall⟩
    · have hw' : w' = w := OwnedWorld.registered_of_unchanged hcall nofun
      exact hw' ▸ h
    · have hw' : w' = w := OwnedWorld.registered_of_unchanged hcall nofun
      exact hw' ▸ h
    · have hw' : w' = w.started registration id := OwnedWorld.started_eq hcall
      exact hw' ▸ h.started_other hw hfresh howner hkey

/-! ### Tasks -/

theorem Seen.advance (h : Seen owner w v) {s' t' : FutureStore Id Key Owner Result}
    {tasks tasks' : OrderedMap Id (TaskState Owner Result)} (calls calls' : List (SubscribeCall Id))
    (hsound : FutureWorld.Sound { v.world with store := t', tasks := tasks', calls := calls' })
    (hcounted : t'.Counted) (hstore : SeenStore (w.mine owner) s' t')
    (hgoes : GoesOn (w.mine owner) (w.mine owner) w.world.store v.world.store s' t')
    (hs : s'.subscribers = w.world.store.subscribers ∧
      s'.maxPendingFutures = w.world.store.maxPendingFutures ∧
      s'.maxCompletedFutures = w.world.store.maxCompletedFutures)
    (ht : t'.subscribers = v.world.store.subscribers ∧
      t'.maxPendingFutures = v.world.store.maxPendingFutures ∧
      t'.maxCompletedFutures = v.world.store.maxCompletedFutures ∧
      t'.nextSubscriberId = v.world.store.nextSubscriberId)
    (htasks : tasks' = (tasks.restrict (w.mine owner)).map (.renumber (w.number owner))) :
    Seen owner { w with world := { w.world with store := s', tasks, calls } }
      { v with world := { v.world with store := t', tasks := tasks', calls := calls' } } where
  sound := hsound
  counted := hcounted
  maxPending := ht.2.1.trans (h.maxPending.trans hs.2.1.symm)
  maxCompleted := ht.2.2.1.trans (h.maxCompleted.trans hs.2.2.symm)
  store := hstore
  subscribers := by
    show List.Forall₂ _ (ownPairs owner s'.subscribers.pairs) t'.subscribers.pairs
    rw [hs.1, ht.1]
    exact h.subscribers.imp fun p p' hp => hp.goesOn hgoes hp.stream rfl
  nextSubscriberId := ht.2.2.2.trans h.nextSubscriberId
  streams := h.streams
  tasks := htasks
  issued := h.issued
  owners := h.owners

theorem Seen.advance_tasks (h : Seen owner w v) {tasks tasks' : OrderedMap Id (TaskState Owner Result)}
    (calls calls' : List (SubscribeCall Id))
    (hsound : FutureWorld.Sound { v.world with tasks := tasks', calls := calls' })
    (htasks : tasks' = (tasks.restrict (w.mine owner)).map (.renumber (w.number owner))) :
    Seen owner { w with world := { w.world with tasks, calls } }
      { v with world := { v.world with tasks := tasks', calls := calls' } } :=
  h.advance calls calls' hsound h.counted h.store
    (.lost rfl rfl (fun _ hid _ hq => ⟨hid, hq⟩) fun _ _ hq => hq) ⟨rfl, rfl, rfl⟩ ⟨rfl, rfl, rfl, rfl⟩
    htasks

theorem forget_same (s : FutureStore Id Key Owner Result) (id : Id) :
    (s.forget id).subscribers = s.subscribers ∧
      (s.forget id).maxPendingFutures = s.maxPendingFutures ∧
      (s.forget id).maxCompletedFutures = s.maxCompletedFutures ∧
      (s.forget id).nextSubscriberId = s.nextSubscriberId ∧
      (s.forget id).nextCompletionSequence = s.nextCompletionSequence := by
  obtain ⟨_, _, hframe⟩ := s.forget_eq id
  rw [hframe]
  exact ⟨rfl, rfl, rfl, rfl, rfl⟩

theorem Seen.forgotten_own (h : Seen owner w v) (hw : w.Steady uses) (hid : w.mine owner id)
    (hpending : w.world.store.Pending id) {tasks tasks' : OrderedMap Id (TaskState Owner Result)}
    (hsound : FutureWorld.Sound { v.world with
      store := { v.world.store with pendingCount := v.world.store.pendingCount - 1 }.forget id,
      tasks := tasks' })
    (htasks : tasks' = (tasks.restrict (w.mine owner)).map (.renumber (w.number owner))) :
    Seen owner
      { w with world := { w.world with
          store := { w.world.store with pendingCount := w.world.store.pendingCount - 1 }.forget id
          tasks } }
      { v with world := { v.world with
          store := { v.world.store with pendingCount := v.world.store.pendingCount - 1 }.forget id
          tasks := tasks' } } := by
  have hcounted : SeenStore (w.mine owner)
      { w.world.store with pendingCount := w.world.store.pendingCount - 1 }
      { v.world.store with pendingCount := v.world.store.pendingCount - 1 } :=
    ⟨h.store.futures, h.store.keys, h.store.order⟩
  have hstore := seenStore_forget hcounted hw.sound.keys h.sound.keys id
  rw [if_pos hid] at hstore
  obtain ⟨hs, hs', hs'', -, hseq⟩ :=
    forget_same { w.world.store with pendingCount := w.world.store.pendingCount - 1 } id
  obtain ⟨ht, ht', ht'', hnext, hseq'⟩ :=
    forget_same { v.world.store with pendingCount := v.world.store.pendingCount - 1 } id
  refine h.advance w.world.calls v.world.calls hsound
    (counted_forget h.counted ((h.store.pending hid).mpr hpending)) hstore
    (.lost hseq hseq' (fun id' hid' q hq => ⟨hid', ?_⟩) fun id' q hq => ?_) ⟨hs, hs', hs''⟩
    ⟨ht, ht', ht'', hnext⟩ htasks
  · exact sequenceOf_forget id' hq
  · exact sequenceOf_forget id' hq

theorem Seen.forgotten_other (h : Seen owner w v) (hw : w.Steady uses) (hid : ¬w.mine owner id)
    {tasks : OrderedMap Id (TaskState Owner Result)}
    (htasks : v.world.tasks = (tasks.restrict (w.mine owner)).map (.renumber (w.number owner))) :
    Seen owner
      { w with world := { w.world with
          store := { w.world.store with pendingCount := w.world.store.pendingCount - 1 }.forget id
          tasks } } v := by
  have hcounted : SeenStore (w.mine owner)
      { w.world.store with pendingCount := w.world.store.pendingCount - 1 } v.world.store :=
    ⟨h.store.futures, h.store.keys, h.store.order⟩
  have hstore := seenStore_forget hcounted hw.sound.keys h.sound.keys id
  rw [if_neg hid] at hstore
  obtain ⟨hs, hs', hs'', -, hseq⟩ :=
    forget_same { w.world.store with pendingCount := w.world.store.pendingCount - 1 } id
  refine h.advance w.world.calls v.world.calls h.sound h.counted hstore
    (.lost hseq rfl (fun id' hid' q hq => ⟨hid', ?_⟩) fun id' q hq => hq) ⟨hs, hs', hs''⟩
    ⟨rfl, rfl, rfl, rfl⟩ htasks
  exact sequenceOf_forget id' hq

theorem Seen.settled_own (h : Seen owner w v) (hw : w.Steady uses) (hbelow : w.BelowLimits)
    (hid : w.mine owner id) {entry entry' : FutureEntry Owner Result}
    (hentry : v.world.store.futures.lookup id = some entry') (hstate : entry'.state = .pending)
    (howner : entry'.owner = entry.owner) {order order' : DropQueue Id}
    (horder : order.live = w.world.store.completedOrder.live ++ [id])
    (horder' : order'.live = v.world.store.completedOrder.live ++ [id])
    {tasks tasks' : OrderedMap Id (TaskState Owner Result)}
    (hsound : FutureWorld.Sound { v.world with
      store := v.world.store.settled id entry.owner result order', tasks := tasks' })
    (htasks : tasks' = (tasks.restrict (w.mine owner)).map (.renumber (w.number owner))) :
    Seen owner
      { w with world := { w.world with store := w.world.store.settled id entry.owner result order, tasks } }
      { v with world := { v.world with
          store := v.world.store.settled id entry.owner result order', tasks := tasks' } } := by
  have hbelow' := (h.below hw hbelow).2
  have hstore := seenStore_settled h.store id entry.owner result horder horder'
  rw [if_pos hid] at hstore
  have hcounted := counted_settled h.counted hbelow' hentry hstate result horder'
  rw [howner] at hcounted
  have hnext := next_settled hw.counted hbelow.2 id entry.owner result order
  have hnext' := next_settled h.counted hbelow' id entry.owner result order'
  refine h.advance w.world.calls v.world.calls hsound hcounted hstore
    ⟨hnext ▸ Nat.le_succ _, hnext' ▸ Nat.le_succ _, fun id' hid' q q' hq hq' => ?_⟩ ⟨rfl, rfl, rfl⟩
    ⟨rfl, rfl, rfl, rfl⟩ htasks
  rw [sequenceOf_settled] at hq hq'
  split at hq
  · rename_i hsame
    rw [if_pos hsame] at hq'
    exact .inr ⟨(Option.some.inj hq).le, (Option.some.inj hq').le⟩
  · rename_i hother
    rw [if_neg hother] at hq'
    exact .inl ⟨hid', hq, hq'⟩

theorem Seen.settled_other (h : Seen owner w v) (hw : w.Steady uses) (hbelow : w.BelowLimits)
    (hid : ¬w.mine owner id) (owner' : Owner) {order : DropQueue Id}
    (horder : order.live = w.world.store.completedOrder.live ++ [id])
    {tasks : OrderedMap Id (TaskState Owner Result)}
    (htasks : v.world.tasks = (tasks.restrict (w.mine owner)).map (.renumber (w.number owner))) :
    Seen owner
      { w with world := { w.world with store := w.world.store.settled id owner' result order, tasks } }
      v := by
  have hstore := seenStore_settled h.store id owner' result horder
    (DropQueue.live_push v.world.store.completedOrder id)
  rw [if_neg hid] at hstore
  have hnext := next_settled hw.counted hbelow.2 id owner' result order
  refine h.advance w.world.calls v.world.calls h.sound h.counted hstore
    ⟨hnext ▸ Nat.le_succ _, Nat.le_refl _, fun id' hid' q q' hq hq' => ?_⟩ ⟨rfl, rfl, rfl⟩
    ⟨rfl, rfl, rfl, rfl⟩ htasks
  rw [sequenceOf_settled] at hq
  split at hq
  · rename_i hsame
    exact absurd (hsame ▸ hid') hid
  · exact .inl ⟨hid', hq, hq'⟩

theorem seen_finish (h : Seen owner w v) (hw : w.Steady uses) (hbelow : w.BelowLimits) {discard : Bool}
    (htask : w.world.tasks.lookup id = some (.executing owner' discard))
    (howner : w.owners.lookup id = some owner') {world : FutureWorld Id Key Owner Result}
    (hfinish : w.world.finished id owner' discard result = some world) :
    if owner' = owner then
      ∃ v', OwnedStep v (.finish owner' id result) v' ∧ Seen owner { w with world } v'
    else Seen owner { w with world } v := by
  split
  · rename_i heq
    subst heq
    have hid : w.mine owner' id := OwnedWorld.mine_iff.mpr howner
    have htask' := h.task hid htask
    have hnotify := h.tasks_set hid (.notifying owner' result)
    have hstep (world' : FutureWorld Id Key Owner Result)
        (hfinish' : v.world.finished id owner' discard result = some world')
        (hseen : world'.Sound → Seen owner' { w with world } { v with world := world' }) :
        ∃ v', OwnedStep v (.finish owner' id result) v' ∧ Seen owner' { w with world } v' := by
      have hone : FutureStep v.world (.finish id result) world' := .finish id result htask' hfinish'
      exact ⟨_, .finish hone (h.lookup_owner howner), hseen (sound_step h.sound hone)⟩
    unfold FutureWorld.finished at hfinish hstep
    by_cases hpending : w.world.store.Pending id
    · have hpending' := (h.store.pending hid).mpr hpending
      cases discard with
      | true =>
        rw [if_pos rfl, removePending_pending hw.counted hpending] at hfinish
        obtain rfl := Option.some.inj hfinish
        refine hstep _ ?_ fun hsound => h.forgotten_own hw hid hpending hsound hnotify
        rw [if_pos rfl, removePending_pending h.counted hpending']
        rfl
      | false =>
        rw [if_neg Bool.false_ne_true, Option.map_eq_some_iff] at hfinish
        obtain ⟨⟨answer, store⟩, hcomplete, rfl⟩ := hfinish
        obtain ⟨entry, hentry, hstate⟩ := hpending
        obtain ⟨entry', hentry', howner', hstate'⟩ := h.store.same hid hentry
        have hself : entry.owner = owner' := (hw.ownEntries owner' id entry hentry).mp hid
        subst hself
        have hlimit := convertible_of_complete hentry hstate hcomplete
        have hlimit' : v.world.store.Convertible := by
          rw [Convertible, h.maxCompleted]
          exact hlimit
        obtain ⟨order, horder, hsettled⟩ := complete_pending hw.counted hlimit hbelow.2 hentry hstate result
        obtain ⟨order', horder', hsettled'⟩ := complete_pending h.counted hlimit' (h.below hw hbelow).2
          hentry' (hstate'.mpr hstate) result
        obtain ⟨rfl, rfl⟩ := Prod.mk.inj (Option.some.inj (hcomplete.symm.trans hsettled))
        dsimp only
        rw [howner'] at hsettled'
        refine hstep _ ?_ fun hsound => h.settled_own hw hbelow hid hentry' (hstate'.mpr hstate) howner'
          horder horder' hsound hnotify
        rw [if_neg Bool.false_ne_true, hsettled']
        rfl
    · have hpending' := mt (h.store.pending hid).mp hpending
      cases discard with
      | true =>
        rw [if_pos rfl, removePending_other hpending] at hfinish
        obtain rfl := Option.some.inj hfinish
        refine hstep _ ?_ fun hsound => h.advance_tasks w.world.calls v.world.calls hsound hnotify
        rw [if_pos rfl, removePending_other hpending']
        rfl
      | false =>
        rw [if_neg Bool.false_ne_true, complete_other hpending] at hfinish
        obtain rfl := Option.some.inj hfinish
        refine hstep _ ?_ fun hsound =>
          h.advance_tasks w.world.calls v.world.calls hsound (h.tasks_delete id)
        rw [if_neg Bool.false_ne_true, complete_other hpending']
        rfl
  · rename_i hne
    have hid := not_mine howner hne
    have hnotify := h.tasks_set_other hid (.notifying owner' result)
    unfold FutureWorld.finished at hfinish
    by_cases hpending : w.world.store.Pending id
    · cases discard with
      | true =>
        rw [if_pos rfl, removePending_pending hw.counted hpending] at hfinish
        obtain rfl := Option.some.inj hfinish
        exact h.forgotten_other hw hid hnotify
      | false =>
        rw [if_neg Bool.false_ne_true, Option.map_eq_some_iff] at hfinish
        obtain ⟨⟨answer, store⟩, hcomplete, rfl⟩ := hfinish
        obtain ⟨entry, hentry, hstate⟩ := hpending
        have hself : entry.owner = owner' :=
          Option.some.inj ((hw.futureOwner id entry hentry).symm.trans howner)
        have hlimit := convertible_of_complete hentry hstate hcomplete
        obtain ⟨order, horder, hsettled⟩ := complete_pending hw.counted hlimit hbelow.2 hentry hstate result
        obtain ⟨rfl, rfl⟩ := Prod.mk.inj (Option.some.inj (hcomplete.symm.trans hsettled))
        dsimp only
        exact h.settled_other hw hbelow hid entry.owner horder (hself ▸ hnotify)
    · cases discard with
      | true =>
        rw [if_pos rfl, removePending_other hpending] at hfinish
        obtain rfl := Option.some.inj hfinish
        exact h.advance_tasks w.world.calls v.world.calls h.sound hnotify
      | false =>
        rw [if_neg Bool.false_ne_true, complete_other hpending] at hfinish
        obtain rfl := Option.some.inj hfinish
        exact h.advance_tasks w.world.calls v.world.calls h.sound (h.tasks_delete_other hid)

theorem seen_snapshot (h : Seen owner w v)
    (htask : w.world.tasks.lookup id = some (.notifying owner' result))
    (howner : w.owners.lookup id = some owner') :
    let w' : OwnedWorld Id Key Owner Result := { w with world := { w.world with
      tasks := w.world.tasks.set id (.yielding result (w.world.store.matching id owner') []) } }
    if owner' = owner then ∃ v', OwnedStep v (.snapshot owner' id) v' ∧ Seen owner w' v'
    else Seen owner w' v := by
  intro w'
  split
  · rename_i heq
    subst heq
    have hid : w.mine owner' id := OwnedWorld.mine_iff.mpr howner
    have hone : FutureStep v.world (.snapshot id) _ := .snapshot id (h.task hid htask)
    have hmatching := matching_eq h.store hid h.subscribers
    refine ⟨_, .snapshot hone (h.lookup_owner howner),
      h.advance_tasks w.world.calls v.world.calls (sound_step h.sound hone) ?_⟩
    rw [← h.tasks_set hid, hmatching]
    rfl
  · rename_i hne
    exact h.advance_tasks w.world.calls v.world.calls h.sound (h.tasks_set_other (not_mine howner hne) _)

theorem seen_yield (h : Seen owner w v) (hw : w.Steady uses) {subscriber : Nat} {waiting : List Nat}
    {deliveries : List (Nat × YieldResult)} {stream : Owner × Nat} (outcome : YieldResult)
    (htask : w.world.tasks.lookup id = some (.yielding result (subscriber :: waiting) deliveries))
    (howner : w.owners.lookup id = some owner') (hname : w.streamName subscriber = some stream) :
    let task := .yielding result waiting (deliveries ++ [(subscriber, outcome)])
    let w' : OwnedWorld Id Key Owner Result :=
      { w with world := w.world.yielded id subscriber outcome task }
    if owner' = owner then ∃ v', OwnedStep v (.yield owner' id stream outcome) v' ∧ Seen owner w' v'
    else Seen owner w' v := by
  intro task w'
  split
  · rename_i heq
    subst heq
    have hid : w.mine owner' id := OwnedWorld.mine_iff.mpr howner
    have hstream := (hw.task htask howner).1 subscriber (List.mem_cons_self ..)
    obtain ⟨hname', hname''⟩ := h.streamName hstream
    obtain rfl := Option.some.inj (hname.symm.trans hname')
    have hone : FutureStep v.world (.yield id (w.number owner' subscriber) outcome) _ :=
      .yield id (w.number owner' subscriber) outcome (h.task hid htask)
    refine ⟨_, .yield hone (h.lookup_owner howner) hname'',
      h.advance_tasks _ _ (sound_step h.sound hone) ?_⟩
    rw [← h.tasks_set hid, TaskState.renumber, List.map_append]
    rfl
  · rename_i hne
    exact h.advance_tasks _ v.world.calls h.sound (h.tasks_set_other (not_mine howner hne) _)

theorem Seen.resubscribe (h : Seen owner w v) {subscribers subscribers' : OrderedMap Nat (Subscriber Id Owner)}
    {tasks tasks' : OrderedMap Id (TaskState Owner Result)}
    (hsound : FutureWorld.Sound { v.world with
      store := { v.world.store with subscribers := subscribers' }, tasks := tasks' })
    (hsubscribers :
      List.Forall₂ (SeenSubscriber owner w.streams (w.mine owner) w.world.store v.world.store)
        (ownPairs owner subscribers.pairs) subscribers'.pairs)
    (htasks : tasks' = (tasks.restrict (w.mine owner)).map (.renumber (w.number owner))) :
    Seen owner
      { w with world := { w.world with store := { w.world.store with subscribers }, tasks } }
      { v with world := { v.world with
          store := { v.world.store with subscribers := subscribers' }, tasks := tasks' } } where
  sound := hsound
  counted := counted_subscribers h.counted subscribers' v.world.store.nextSubscriberId
  maxPending := h.maxPending
  maxCompleted := h.maxCompleted
  store := ⟨h.store.futures, h.store.keys, h.store.order⟩
  subscribers := hsubscribers.imp fun _ _ hp =>
    hp.goesOn (.lost rfl rfl (fun _ hid _ hq => ⟨hid, hq⟩) fun _ _ hq => hq) hp.stream rfl
  nextSubscriberId := h.nextSubscriberId
  streams := h.streams
  tasks := htasks
  issued := h.issued
  owners := h.owners

theorem seen_settle (h : Seen owner w v) (hw : w.Steady uses) {deliveries : List (Nat × YieldResult)}
    (htask : w.world.tasks.lookup id = some (.yielding result [] deliveries))
    (howner : w.owners.lookup id = some owner') :
    let w' : OwnedWorld Id Key Owner Result := { w with world := { w.world with
      store := w.world.store.settle id deliveries, tasks := w.world.tasks.delete id } }
    if owner' = owner then ∃ v', OwnedStep v (.settle owner' id) v' ∧ Seen owner w' v'
    else Seen owner w' v := by
  intro w'
  have hdeliveries := (hw.task htask howner).2
  obtain ⟨subscribers, hsettle⟩ := w.world.store.settle_eq id deliveries
  have hpairs := pairs_settle w.world.store id deliveries
  rw [hsettle] at hpairs
  have hw' : w' = { w with world := { w.world with
      store := { w.world.store with subscribers }, tasks := w.world.tasks.delete id } } := by
    show OwnedWorld.mk { w.world with
      store := w.world.store.settle id deliveries, tasks := w.world.tasks.delete id } _ _ = _
    rw [hsettle]
  rw [hw']
  split
  · rename_i heq
    subst heq
    have hid : w.mine owner' id := OwnedWorld.mine_iff.mpr howner
    have hone : FutureStep v.world (.settle id) _ := .settle id (h.task hid htask)
    refine ⟨_, .settle hone (h.lookup_owner howner), ?_⟩
    have hsound := sound_step h.sound hone
    have hpairs' := pairs_settle v.world.store id (deliveries.map fun d => (w.number owner' d.1, d.2))
    obtain ⟨subscribers', hsettle'⟩ :=
      v.world.store.settle_eq id (deliveries.map fun d => (w.number owner' d.1, d.2))
    rw [hsettle'] at hsound hpairs' ⊢
    refine h.resubscribe hsound ?_ (h.tasks_delete id)
    change subscribers.pairs = _ at hpairs
    change subscribers'.pairs = _ at hpairs'
    rw [hpairs, hpairs']
    exact seenSubscribers_settle h.subscribers hdeliveries
  · rename_i hne
    refine h.resubscribe h.sound ?_ (h.tasks_delete_other (not_mine howner hne))
    change subscribers.pairs = _ at hpairs
    rw [hpairs, ownPairs_settle_other (fun p hp => ?_) hne hdeliveries]
    · exact h.subscribers
    · exact hw.subscriberOwner p.1 p.2 (OrderedMap.mem_pairs.mp hp)

theorem seen_cancel (h : Seen owner w v) (hw : w.Steady uses) {answer : Bool}
    {store : FutureStore Id Key Owner Result}
    (hcancel : w.world.store.cancel id owner' = some (answer, store)) :
    let w' : OwnedWorld Id Key Owner Result := { w with world := { w.world with store } }
    if owner' = owner then ∃ v', OwnedStep v (.cancel owner' id answer) v' ∧ Seen owner w' v'
    else Seen owner w' v := by
  intro w'
  split
  · rename_i heq
    subst heq
    have hstep (store' : FutureStore Id Key Owner Result)
        (hcancel' : v.world.store.cancel id owner' = some (answer, store'))
        (hseen : FutureWorld.Sound { v.world with store := store' } →
          Seen owner' w' { v with world := { v.world with store := store' } }) :
        ∃ v', OwnedStep v (.cancel owner' id answer) v' ∧ Seen owner' w' v' := by
      have hone : FutureStep v.world (.cancel id owner' answer) _ := .cancel id owner' hcancel'
      exact ⟨_, .cancel hone, hseen (sound_step h.sound hone)⟩
    rcases cancel_cases hcancel with ⟨rfl, entry, hentry, howner, hstate, -, rfl⟩ | ⟨rfl, rfl⟩
    · have hid : w.mine owner' id := (hw.ownEntries owner' id entry hentry).mpr howner
      have hpending : w.world.store.Pending id := ⟨entry, hentry, hstate⟩
      have hpending' := (h.store.pending hid).mpr hpending
      obtain ⟨entry', hentry', howner', hstate'⟩ := h.store.same hid hentry
      refine hstep _ ?_ fun hsound => h.forgotten_own hw hid hpending hsound h.tasks
      rw [cancel, hentry']
      dsimp only
      rw [if_pos (howner'.trans howner), hstate'.mpr hstate, decrement, if_neg (h.counted.pos hpending')]
      rfl
    · refine hstep v.world.store ?_ fun _ => h
      -- Nothing that the owner could cancel: nothing there, somebody else's, or done.
      unfold cancel
      cases hentry' : v.world.store.futures.lookup id with
      | none => rfl
      | some entry' =>
        dsimp only
        by_cases howner' : entry'.owner = owner'
        · rw [if_pos howner']
          cases hstate' : entry'.state with
          | completed _ _ => rfl
          | pending =>
            exfalso
            have hid : w.mine owner' id := by
              by_contra hid
              exact absurd (hentry'.symm.trans (h.store.lookup_none id (.inl hid))) nofun
            obtain ⟨entry, hentry, hstate⟩ := (h.store.pending hid).mp ⟨entry', hentry', hstate'⟩
            have howner := (hw.ownEntries owner' id entry hentry).mp hid
            rw [cancel, hentry] at hcancel
            dsimp only at hcancel
            rw [if_pos howner, hstate, decrement, if_neg (hw.counted.pos ⟨entry, hentry, hstate⟩)] at hcancel
            cases hcancel
        · rw [if_neg howner']
  · rename_i hne
    rcases cancel_cases hcancel with ⟨rfl, entry, hentry, howner, hstate, -, rfl⟩ | ⟨rfl, rfl⟩
    · have hid : ¬w.mine owner id := by
        rw [hw.ownEntries owner id entry hentry, howner]
        exact hne
      exact h.forgotten_other hw hid h.tasks
    · exact h

theorem seen_terminate (h : Seen owner w v) (hw : w.Steady uses) {ref stream : Nat}
    (hname : w.streamName ref = some (owner', stream)) :
    let w' : OwnedWorld Id Key Owner Result :=
      { w with world := { w.world with store := w.world.store.terminate ref } }
    if owner' = owner then ∃ v', OwnedStep v (.terminate owner' stream) v' ∧ Seen owner w' v'
    else Seen owner w' v := by
  obtain ⟨href, rfl⟩ := streamName_eq_some hname
  have hpairs : ownPairs owner (w.world.store.subscribers.delete ref).pairs =
      (ownPairs owner w.world.store.subscribers.pairs).filter fun p => p.1 ≠ ref := by
    rw [OrderedMap.pairs_delete, ownPairs, ownPairs, List.filter_filter, List.filter_filter]
    exact List.filter_congr fun _ _ => Bool.and_comm _ _
  intro w'
  split
  · rename_i heq
    subst heq
    have hone : FutureStep v.world (.terminate (w.number owner' ref)) _ := .terminate (w.number owner' ref)
    refine ⟨_, .terminate hone (h.streamName href).2, h.resubscribe (sound_step h.sound hone) ?_ h.tasks⟩
    rw [hpairs, OrderedMap.pairs_delete]
    refine List.rel_filter (fun p p' hp => ?_) h.subscribers
    refine decide_eq_true_iff.trans (Iff.trans (not_congr ?_) decide_eq_true_iff.symm)
    rw [hp.number]
    exact ⟨fun heq => heq ▸ rfl, streamNumber_injective hp.stream href⟩
  · rename_i hne
    refine h.resubscribe h.sound ?_ h.tasks
    have hsame : (ownPairs owner w.world.store.subscribers.pairs).filter (fun p => p.1 ≠ ref) =
        ownPairs owner w.world.store.subscribers.pairs := by
      refine List.filter_eq_self.mpr fun p hp => decide_eq_true ?_
      obtain ⟨hmem, howner⟩ := List.mem_filter.mp hp
      have hstream := hw.subscriberOwner p.1 p.2 (OrderedMap.mem_pairs.mp hmem)
      intro heq
      rw [heq, href, decide_eq_true_iff.mp howner] at hstream
      exact hne (Option.some.inj hstream)
    rw [hpairs, hsame]
    exact h.subscribers

theorem OwnedWorld.Sound.next_notMem (h : w.Sound uses) :
    w.world.store.nextSubscriberId ∉ w.world.store.subscribers := by
  intro hmem
  obtain ⟨subscriber, hlookup⟩ := OrderedMap.mem_iff.mp hmem
  have hlt := (List.getElem?_eq_some_iff.mp (h.subscriberOwner _ subscriber hlookup)).1
  exact absurd hlt (h.streams ▸ Nat.lt_irrefl _)

theorem Seen.next_notMem (h : Seen owner w v) :
    v.world.store.nextSubscriberId ∉ v.world.store.subscribers := by
  intro hmem
  obtain ⟨subscriber, hlookup⟩ := OrderedMap.mem_iff.mp hmem
  have hall : ∀ p' ∈ v.world.store.subscribers.pairs, p'.1 < w.streams.count owner := by
    have hseen := h.subscribers
    generalize ownPairs owner w.world.store.subscribers.pairs = pairs at hseen
    generalize v.world.store.subscribers.pairs = pairs' at hseen
    induction hseen with
    | nil => nofun
    | cons hp _ ih =>
      intro p' hp'
      rcases List.mem_cons.mp hp' with rfl | hrest
      · rw [hp.number]
        exact streamNumber_lt_count hp.stream
      · exact ih p' hrest
  have hlt := hall (_, subscriber) (OrderedMap.mem_pairs.mpr hlookup)
  exact absurd hlt (h.nextSubscriberId ▸ Nat.lt_irrefl _)

/-- The world after a subscription that has something to wait for. -/
def OwnedWorld.waiting (w : OwnedWorld Id Key Owner Result) (owner : Owner)
    (subscriber : Subscriber Id Owner) (calls : List (SubscribeCall Id)) : OwnedWorld Id Key Owner Result :=
  { w with
    world :=
      { w.world with
        store :=
          { w.world.store with
            nextSubscriberId := w.world.store.nextSubscriberId + 1
            subscribers := w.world.store.subscribers.set w.world.store.nextSubscriberId subscriber }
        calls }
    streams := w.streams ++ [owner] }

theorem Seen.tasks_append (h : Seen owner w v) (hw : w.Steady uses) (owner' : Owner) :
    v.world.tasks = (w.world.tasks.restrict (w.mine owner)).map
      (.renumber (streamNumber (w.streams ++ [owner']) owner)) := by
  have hsame {ref : Nat} (href : w.streams[ref]? = some owner) :
      w.number owner ref = streamNumber (w.streams ++ [owner']) owner ref :=
    (streamNumber_append (List.getElem?_eq_some_iff.mp href).1.le owner owner').symm
  refine h.tasks.trans (OrderedMap.map_congr fun id task htask => ?_)
  rw [OrderedMap.lookup_restrict] at htask
  split at htask
  · rename_i hid
    have howned := hw.task htask (OwnedWorld.mine_iff.mp hid)
    cases task with
    | executing _ _ => rfl
    | notifying _ _ => rfl
    | yielding result waiting deliveries =>
      have hwaiting : waiting.map (w.number owner) =
          waiting.map (streamNumber (w.streams ++ [owner']) owner) :=
        List.map_congr_left fun n hn => hsame (howned.1 n hn)
      have hdeliveries : deliveries.map (fun d => (w.number owner d.1, d.2)) =
          deliveries.map fun d => (streamNumber (w.streams ++ [owner']) owner d.1, d.2) :=
        List.map_congr_left fun d hd => by rw [hsame (howned.2 d hd)]
      rw [TaskState.renumber, TaskState.renumber, hwaiting, hdeliveries]
  · cases htask

theorem Seen.subscribers_append (h : Seen owner w v) (owner' : Owner) :
    List.Forall₂ (SeenSubscriber owner (w.streams ++ [owner']) (w.mine owner) w.world.store v.world.store)
      (ownPairs owner w.world.store.subscribers.pairs) v.world.store.subscribers.pairs := by
  refine h.subscribers.imp fun p p' hp => ?_
  have hlt := (List.getElem?_eq_some_iff.mp hp.stream).1
  refine hp.goesOn (.lost rfl rfl (fun _ hid _ hq => ⟨hid, hq⟩) fun _ _ hq => hq) ?_
    (streamNumber_append hlt.le owner owner')
  rw [List.getElem?_append_left hlt]
  exact hp.stream

theorem Seen.waiting_own (h : Seen owner w v) (hw : w.Steady uses) {futureIds : Option (Finset Id)}
    {calls calls' : List (SubscribeCall Id)} {ids : Option (List Id)}
    (hsound : (v.waiting owner ⟨v.world.store.nextSubscriberId, owner, futureIds,
      if ids = none then some v.world.store.nextCompletionSequence else none⟩ calls').world.Sound) :
    Seen owner
      (w.waiting owner ⟨w.world.store.nextSubscriberId, owner, futureIds,
        if ids = none then some w.world.store.nextCompletionSequence else none⟩ calls)
      (v.waiting owner ⟨v.world.store.nextSubscriberId, owner, futureIds,
        if ids = none then some v.world.store.nextCompletionSequence else none⟩ calls') where
  sound := hsound
  counted := counted_subscribers h.counted _ _
  maxPending := h.maxPending
  maxCompleted := h.maxCompleted
  store := ⟨h.store.futures, h.store.keys, h.store.order⟩
  subscribers := by
    show List.Forall₂ _ (ownPairs owner (w.world.store.subscribers.set _ _).pairs)
      (v.world.store.subscribers.set _ _).pairs
    rw [OrderedMap.pairs_set_of_notMem hw.next_notMem, OrderedMap.pairs_set_of_notMem h.next_notMem,
      ownPairs_append, if_pos rfl]
    refine List.rel_append ((h.subscribers_append owner).imp fun _ _ hp =>
      hp.goesOn (.lost rfl rfl (fun _ hid _ hq => ⟨hid, hq⟩) fun _ _ hq => hq) hp.stream rfl)
      (.cons ⟨?_, ?_, rfl, rfl, rfl, ?_⟩ .nil)
    · show (w.streams ++ [owner])[w.world.store.nextSubscriberId]? = some owner
      rw [← hw.streams, List.getElem?_append_right (Nat.le_refl _), Nat.sub_self, List.getElem?_cons_zero]
    · show v.world.store.nextSubscriberId =
        streamNumber (w.streams ++ [owner]) owner w.world.store.nextSubscriberId
      rw [← hw.streams, streamNumber_append (Nat.le_refl _), streamNumber_length, h.nextSubscriberId]
    · dsimp only
      split
      · refine ⟨Nat.le_refl _, Nat.le_refl _, fun id _ q q' hq hq' => ?_⟩
        have hlt := hw.counted.sequence id q hq
        have hlt' := h.counted.sequence id q' hq'
        exact ⟨fun hle => absurd hlt (Nat.not_lt.mpr hle), fun hle => absurd hlt' (Nat.not_lt.mpr hle)⟩
      · exact trivial
  nextSubscriberId := by
    show v.world.store.nextSubscriberId + 1 = (w.streams ++ [owner]).count owner
    rw [count_append, if_pos rfl, h.nextSubscriberId]
  streams := by
    show v.streams ++ [owner] = List.replicate ((w.streams ++ [owner]).count owner) owner
    rw [count_append, if_pos rfl, List.replicate_succ', h.streams]
  tasks := h.tasks_append hw owner
  issued := h.issued
  owners := h.owners

theorem Seen.waiting_other (h : Seen owner w v) (hw : w.Steady uses) (hne : owner' ≠ owner)
    {subscriber : Subscriber Id Owner} (howner : subscriber.owner = owner')
    (calls : List (SubscribeCall Id)) : Seen owner (w.waiting owner' subscriber calls) v where
  sound := h.sound
  counted := h.counted
  maxPending := h.maxPending
  maxCompleted := h.maxCompleted
  store := ⟨h.store.futures, h.store.keys, h.store.order⟩
  subscribers := by
    show List.Forall₂ _ (ownPairs owner (w.world.store.subscribers.set _ _).pairs) _
    rw [OrderedMap.pairs_set_of_notMem hw.next_notMem, ownPairs_append, if_neg (howner ▸ hne),
      List.append_nil]
    exact (h.subscribers_append owner').imp fun _ _ hp =>
      hp.goesOn (.lost rfl rfl (fun _ hid _ hq => ⟨hid, hq⟩) fun _ _ hq => hq) hp.stream rfl
  nextSubscriberId := by
    show _ = (w.streams ++ [owner']).count owner
    rw [count_append, if_neg hne, Nat.add_zero, h.nextSubscriberId]
  streams := by
    show _ = List.replicate ((w.streams ++ [owner']).count owner) owner
    rw [count_append, if_neg hne, Nat.add_zero, h.streams]
  tasks := h.tasks_append hw owner'
  issued := h.issued
  owners := h.owners

theorem OwnedWorld.subscribed_none {ids : Option (List Id)}
    (hcall : (w.world.store.subscribe ids owner).2 = (none, w.world.store)) :
    { w with
      world := w.world.subscribed ids owner
      streams := w.streamsAfter owner (w.world.store.subscribe ids owner).2.1 } =
      { w with world := { w.world with
        calls := w.world.calls ++ [⟨none, (w.world.store.subscribe ids owner).1.map Prod.fst⟩] } } := by
  unfold FutureWorld.subscribed
  generalize w.world.store.subscribe ids owner = answer at hcall ⊢
  obtain ⟨immediate, rest⟩ := answer
  obtain rfl := hcall
  rfl

theorem OwnedWorld.subscribed_some {ids : Option (List Id)} {subscriber : Subscriber Id Owner}
    (hcall : (w.world.store.subscribe ids owner).2 = (some w.world.store.nextSubscriberId,
      { w.world.store with
        nextSubscriberId := w.world.store.nextSubscriberId + 1
        subscribers := w.world.store.subscribers.set w.world.store.nextSubscriberId subscriber })) :
    { w with
      world := w.world.subscribed ids owner
      streams := w.streamsAfter owner (w.world.store.subscribe ids owner).2.1 } =
      w.waiting owner subscriber (w.world.calls ++
        [⟨some w.world.store.nextSubscriberId, (w.world.store.subscribe ids owner).1.map Prod.fst⟩]) := by
  unfold FutureWorld.subscribed
  generalize w.world.store.subscribe ids owner = answer at hcall ⊢
  obtain ⟨immediate, rest⟩ := answer
  obtain rfl := hcall
  rfl

theorem seen_subscribe (h : Seen owner w v) (hw : w.Steady uses) (ids : Option (List Id))
    (owner' : Owner) :
    let w' : OwnedWorld Id Key Owner Result :=
      { w with
        world := w.world.subscribed ids owner'
        streams := w.streamsAfter owner' (w.world.store.subscribe ids owner').2.1 }
    if owner' = owner then
      ∃ v', OwnedStep v (.subscribe owner' ids (w.world.store.subscribe ids owner').1) v' ∧ Seen owner w' v'
    else Seen owner w' v := by
  intro w'
  split
  · rename_i heq
    subst heq
    obtain ⟨himmediate, hcases⟩ := h.store.subscribe (hw.ownEntries owner') ids
    have hone : FutureStep v.world (.subscribe ids owner' _) _ := .subscribe ids owner'
    have hsound := sound_step h.sound hone
    have hsubscribe := OwnedStep.subscribe hone
    rw [himmediate] at hsubscribe
    refine ⟨_, hsubscribe, ?_⟩
    rcases hcases with ⟨hcall, hcall'⟩ | ⟨futureIds, hcall⟩
    · have hw' : w' = _ := OwnedWorld.subscribed_none hcall
      have hv' := OwnedWorld.subscribed_none hcall'
      have hworld : v.world.subscribed ids owner' = _ := congrArg OwnedWorld.world hv'
      rw [hworld] at hsound
      rw [hw', hv']
      exact h.advance_tasks _ _ hsound h.tasks
    · have hw' : w' = _ := OwnedWorld.subscribed_some (hcall _ (List.mem_cons_self ..))
      have hv' := OwnedWorld.subscribed_some (hcall _ (List.mem_cons_of_mem _ (List.mem_singleton_self _)))
      have hworld : v.world.subscribed ids owner' = _ := congrArg OwnedWorld.world hv'
      rw [hworld] at hsound
      rw [hw', hv']
      exact h.waiting_own hw hsound
  · rename_i hne
    rcases subscribe_shape w.world.store ids owner' with hcall | ⟨subscriber, howner, hcall⟩
    · have hw' : w' = _ := OwnedWorld.subscribed_none hcall
      rw [hw']
      exact h.advance_tasks _ v.world.calls h.sound h.tasks
    · have hw' : w' = _ := OwnedWorld.subscribed_some hcall
      rw [hw']
      exact h.waiting_other hw hne howner _

/-! ## Runs -/

theorem seen_step (h : Seen owner w v) (hw : w.Steady uses) (hbelow : w.BelowLimits)
    (hkeys : ∀ o o' key, uses o key → uses o' key → o = o') (huses : event.Uses uses)
    (hstep : OwnedStep w event w') :
    if event.owner = owner then ∃ v', OwnedStep v event v' ∧ Seen owner w' v' else Seen owner w' v := by
  cases hstep with
  | @register world registration answer hstep =>
    cases hstep with
    | register _ id hfresh => exact seen_register h hw hbelow hkeys registration hfresh huses
  | finish hstep howner =>
    cases hstep with
    | finish id result htask hfinish =>
      obtain rfl := hw.task htask howner
      exact seen_finish h hw hbelow htask howner hfinish
  | snapshot hstep howner =>
    cases hstep with
    | snapshot id htask =>
      obtain rfl := hw.task htask howner
      exact seen_snapshot h htask howner
  | @yield world id subscriber outcome owner' stream hstep howner hname =>
    cases hstep with
    | yield _ _ _ htask => exact seen_yield h hw outcome htask howner hname
  | settle hstep howner =>
    cases hstep with
    | settle id htask => exact seen_settle h hw htask howner
  | cancel hstep =>
    cases hstep with
    | cancel id owner' hcancel => exact seen_cancel h hw hcancel
  | @subscribe world ids owner' immediate hstep =>
    cases hstep with
    | subscribe _ _ => exact seen_subscribe h hw ids owner'
  | terminate hstep hname =>
    cases hstep with
    | terminate ref => exact seen_terminate h hw hname

theorem OwnedStep.step (h : OwnedStep w event w') : ∃ event, FutureStep w.world event w'.world := by
  cases h with
  | register hstep => exact ⟨_, hstep⟩
  | finish hstep _ => exact ⟨_, hstep⟩
  | snapshot hstep _ => exact ⟨_, hstep⟩
  | yield hstep _ _ => exact ⟨_, hstep⟩
  | settle hstep _ => exact ⟨_, hstep⟩
  | cancel hstep => exact ⟨_, hstep⟩
  | subscribe hstep => exact ⟨_, hstep⟩
  | terminate hstep _ => exact ⟨_, hstep⟩

theorem ownerRun {maxPendingFutures maxCompletedFutures : Nat} (hword : maxCompletedFutures < 2 ^ 64)
    {events : List (OwnerEvent Id Key Owner Result)} (owner : Owner)
    (hrun : Run (Restrict OwnedStep fun w _ => w.BelowLimits)
      (.init maxPendingFutures maxCompletedFutures) events w)
    (hkeys : KeysApart events) :
    ∃ v, Run OwnedStep (.init maxPendingFutures maxCompletedFutures)
        (events.filter fun event => event.owner = owner) v ∧ Seen owner w v := by
  let Related (w v : OwnedWorld Id Key Owner Result) : Prop :=
    w.Steady (UsesKey events) ∧ Seen owner w v
  have hlabels := hrun.restrict (P := fun event => event.Uses (UsesKey events)) fun _ => uses_of_mem
  have hstep (w : OwnedWorld Id Key Owner Result) (event : OwnerEvent Id Key Owner Result)
      (w' v : OwnedWorld Id Key Owner Result) (h : Related w v)
      (hstep : Restrict (Restrict OwnedStep fun w _ => w.BelowLimits)
        (fun _ event => event.Uses (UsesKey events)) w event w') :
      if event.owner = owner then ∃ v', OwnedStep v event v' ∧ Related w' v' else Related w' v := by
    obtain ⟨⟨hone, hbelow⟩, huses⟩ := hstep
    obtain ⟨event', hstep'⟩ := hone.step
    have hsteady : w'.Steady (UsesKey events) :=
      ⟨ownedSound_step h.1.toSound hone huses, counted_step h.1.sound h.1.counted hbelow.2 hstep'⟩
    have hseen := seen_step h.2 h.1 hbelow hkeys huses hone
    by_cases howner : event.owner = owner
    · rw [if_pos howner] at hseen ⊢
      obtain ⟨v', hone', hseen'⟩ := hseen
      exact ⟨v', hone', hsteady, hseen'⟩
    · rw [if_neg howner] at hseen ⊢
      exact ⟨hsteady, hseen⟩
  have hinit : Related (.init maxPendingFutures maxCompletedFutures)
      (.init maxPendingFutures maxCompletedFutures) :=
    ⟨⟨ownedSound_init maxPendingFutures maxCompletedFutures, counted_init hword⟩, seen_init owner hword⟩
  obtain ⟨v, hrun', -, hseen⟩ := hlabels.part hstep hinit
  exact ⟨v, hrun', hseen⟩

end Bebop.Swift.Rpc
