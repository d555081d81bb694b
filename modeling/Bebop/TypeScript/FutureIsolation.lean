import Bebop.TypeScript.FutureOwners

/-!
# Bebop — one owner's part of the TypeScript future storage

`Seen` relates a world to what it is for one owner: what belongs to the others is gone. A
step of the owner is the same step there, and a step of another owner is none
(`seen_step`). So the owner's part of a run is a run of its own (`ownerRun`).
-/

set_option linter.unusedSectionVars false

namespace Bebop.TypeScript.Rpc

open Bebop.Rpc (RpcError streamNumber streamName_of_owner streamName_replicate streamNumber_lt_count
  streamNumber_injective streamNumber_append streamNumber_length count_append streamName_eq_some)
open Transition

variable {Id Key Owner Result : Type} [DecidableEq Id] [DecidableEq Key] [DecidableEq Owner]

open InMemoryFutureStorage

variable {w w' v : OwnedWorld Id Key Owner Result} {event : OwnerEvent Id Key Owner Result}
  {maxPending maxCompleted : Limit} {uses : Owner → Key → Prop} {id : Id}

/-! ## One owner's part of the storage -/

/-- The collections of entries, for the identifiers of one owner. -/
structure SeenEntries (mine : Id → Bool) (s t : InMemoryFutureStorage Id Key Owner Result) : Prop where
  entries : t.entries = s.entries.restrict mine
  keys : ∀ key, t.idempotency.lookup key = (s.idempotency.lookup key).filter mine
  order : t.completedOrder.live = s.completedOrder.live.filter mine

section

variable {mine : Id → Bool} {s t : InMemoryFutureStorage Id Key Owner Result}
  {entry : FutureEntry Key Owner Result}

theorem SeenEntries.lookup (h : SeenEntries mine s t) (hid : mine id) :
    t.entries.lookup id = s.entries.lookup id := by
  rw [h.entries, OrderedMap.lookup_restrict, if_pos hid]

theorem SeenEntries.congr {mine' : Id → Bool} (h : SeenEntries mine s t) (hs : s.IsConsistent)
    (hsame : ∀ id ∈ s.entries, mine' id = mine id) : SeenEntries mine' s t := by
  refine ⟨h.entries.trans (AList.ext (List.filter_congr fun e he => ?_)), fun key => ?_, ?_⟩
  · exact (hsame e.1 (AList.mem_keys.mpr (List.mem_keys_of_mem he))).symm
  · rw [h.keys]
    cases hkey : s.idempotency.lookup key with
    | none => rfl
    | some id =>
      obtain ⟨entry, hentry, -⟩ := (hs.key key id).mp hkey
      rw [Option.filter_some, Option.filter_some, hsame id (OrderedMap.mem_iff.mpr ⟨entry, hentry⟩)]
  · refine h.order.trans (List.filter_congr fun id hid => ?_)
    obtain ⟨entry, hentry, -⟩ := (hs.completed id).mp hid
    exact (hsame id (OrderedMap.mem_iff.mpr ⟨entry, hentry⟩)).symm

theorem SeenEntries.unknown (h : SeenEntries mine s t) {key : Option Key}
    (hkey : key.bind s.idempotency.lookup = none) : key.bind t.idempotency.lookup = none := by
  cases key with
  | none => rfl
  | some key =>
    rw [Option.bind_some] at hkey ⊢
    rw [h.keys, hkey, Option.filter_none]

theorem seenEntries_schedule (h : SeenEntries mine s t) (id : Id) (registration : FutureRegistration Key Owner)
    (hkey : registration.idempotencyKey.bind s.idempotency.lookup = none) :
    SeenEntries mine (s.schedule registration id) (if mine id then t.schedule registration id else t) := by
  by_cases hid : mine id
  · rw [if_pos hid]
    refine ⟨?_, fun key => ?_, h.order⟩
    · change t.entries.set id _ = (s.entries.set id _).restrict mine
      rw [OrderedMap.restrict_set_of_mem _ hid, h.entries]
    · rw [lookup_schedule, lookup_schedule]
      split
      · rw [Option.filter_some, if_pos hid]
      · exact h.keys key
  · rw [if_neg hid]
    refine ⟨?_, fun key => ?_, h.order⟩
    · change t.entries = (s.entries.set id _).restrict mine
      rw [OrderedMap.restrict_set_of_notMem _ hid, h.entries]
    · rw [lookup_schedule]
      split
      · rename_i hsome
        rw [hsome, Option.bind_some] at hkey
        rw [h.keys, hkey, Option.filter_none, Option.filter_some, if_neg hid]
      · exact h.keys key

theorem seenEntries_forget (h : SeenEntries mine s t) (hs : s.IsConsistent)
    (hentry : s.entries.lookup id = some entry) :
    SeenEntries mine (s.forget id entry.idempotencyKey)
      (if mine id then t.forget id entry.idempotencyKey else t) := by
  by_cases hid : mine id
  · rw [if_pos hid]
    refine ⟨?_, fun key => ?_, h.order⟩
    · change t.entries.delete id = (s.entries.delete id).restrict mine
      rw [OrderedMap.restrict_delete, h.entries]
    · change (deleteKey t.idempotency _).lookup key = ((deleteKey s.idempotency _).lookup key).filter mine
      rw [lookup_deleteKey, lookup_deleteKey]
      split
      · rfl
      · exact h.keys key
  · rw [if_neg hid]
    refine ⟨?_, fun key => ?_, h.order⟩
    · change t.entries = (s.entries.delete id).restrict mine
      rw [OrderedMap.restrict_delete_of_notMem _ hid, h.entries]
    · change t.idempotency.lookup key = ((deleteKey s.idempotency _).lookup key).filter mine
      rw [lookup_deleteKey]
      split
      · rename_i hkey
        -- The key names the entry that leaves, which the owner does not see.
        rw [h.keys, (hs.key key id).mpr ⟨entry, hentry, hkey⟩, Option.filter_some, if_neg hid]
        rfl
      · exact h.keys key

theorem seenEntries_completed (h : SeenEntries mine s t) (id : Id) (completed : FutureEntry Key Owner Result) :
    SeenEntries mine
      { s with entries := s.entries.set id completed, completedOrder := s.completedOrder.push id }
      (if mine id then
        { t with entries := t.entries.set id completed, completedOrder := t.completedOrder.push id }
      else t) := by
  by_cases hid : mine id
  · rw [if_pos hid]
    refine ⟨?_, h.keys, ?_⟩
    · change t.entries.set id _ = (s.entries.set id _).restrict mine
      rw [OrderedMap.restrict_set_of_mem _ hid, h.entries]
    · change (t.completedOrder.push id).live = (s.completedOrder.push id).live.filter mine
      rw [DropQueue.live_push, DropQueue.live_push, List.filter_append, h.order,
        List.filter_cons_of_pos hid, List.filter_nil]
  · rw [if_neg hid]
    refine ⟨?_, h.keys, ?_⟩
    · change t.entries = (s.entries.set id _).restrict mine
      rw [OrderedMap.restrict_set_of_notMem _ hid, h.entries]
    · change t.completedOrder.live = (s.completedOrder.push id).live.filter mine
      rw [DropQueue.live_push, List.filter_append, h.order, List.filter_cons_of_neg hid,
        List.filter_nil, List.append_nil]

theorem seenEntries_settled (h : SeenEntries mine s t) (hs : s.IsConsistent)
    (hentry : s.entries.lookup id = some entry) (result : Result) (discard : Bool) :
    SeenEntries mine (s.settled id entry result discard)
      (if mine id then t.settled id entry result discard else t) := by
  have hforget := seenEntries_forget h hs hentry
  have hkept := seenEntries_completed h id { entry with state := .completed result }
  unfold settled
  cases discard with
  | true =>
    rw [if_pos rfl, if_pos rfl]
    split
    · rename_i hid
      rw [if_pos hid] at hforget
      exact ⟨hforget.entries, hforget.keys, h.order⟩
    · rename_i hid
      rw [if_neg hid] at hforget
      exact ⟨hforget.entries, hforget.keys, h.order⟩
  | false =>
    rw [if_neg Bool.false_ne_true, if_neg Bool.false_ne_true]
    split
    · rename_i hid
      rw [if_pos hid] at hkept
      exact ⟨hkept.entries, h.keys, hkept.order⟩
    · rename_i hid
      rw [if_neg hid] at hkept
      exact ⟨hkept.entries, h.keys, hkept.order⟩

theorem SeenEntries.pendingCount_le (h : SeenEntries mine s t) (hs : s.IsConsistent)
    (ht : t.IsConsistent) : t.pendingCount ≤ s.pendingCount := by
  rw [hs.pending, ht.pending, h.entries]
  exact Int.ofNat_le.mpr (OrderedMap.countP_restrict_le FutureEntry.isPending mine s.entries)

theorem SeenEntries.completed_le (h : SeenEntries mine s t) :
    t.completedOrder.live.length ≤ s.completedOrder.live.length := by
  rw [h.order]
  exact List.length_filter_le _ _

theorem SeenEntries.subscribeLoop {owner : Owner} (h : SeenEntries mine s t)
    (howner : ∀ id entry, s.entries.lookup id = some entry → (mine id ↔ entry.owner = owner))
    (ids : Option (Finset Id)) :
    InMemoryFutureStorage.subscribeLoop owner t.entries.pairs ids =
      InMemoryFutureStorage.subscribeLoop owner s.entries.pairs ids := by
  have hpairs (p : Id × FutureEntry Key Owner Result) (hp : p ∈ s.entries.pairs) :
      mine p.1 ↔ p.2.owner = owner := howner p.1 p.2 (OrderedMap.mem_pairs.mp hp)
  rw [h.entries, OrderedMap.pairs_restrict]
  generalize s.entries.pairs = pairs at hpairs
  induction pairs generalizing ids with
  | nil => rfl
  | cons p rest ih =>
    have hrest := fun ids => ih ids fun q hq => hpairs q (List.mem_cons_of_mem _ hq)
    obtain ⟨id, entry⟩ := p
    by_cases hid : mine id
    · rw [List.filter_cons_of_pos (p := fun e : Id × _ => mine e.1) hid]
      unfold InMemoryFutureStorage.subscribeLoop
      rw [hrest ids, hrest (ids.map (·.erase id))]
    · rw [List.filter_cons_of_neg (p := fun e : Id × _ => mine e.1) hid, hrest ids]
      have hother : entry.owner ≠ owner := fun heq =>
        hid ((hpairs (id, entry) (List.mem_cons_self ..)).mpr heq)
      rw [InMemoryFutureStorage.subscribeLoop]
      split
      · rfl
      · rw [if_neg fun htake => hother htake.1]

end

/-! ## One owner's streams -/

def Subscriber.renumber (number : Nat → Nat) (subscriber : Subscriber Id Owner Result) :
    Subscriber Id Owner Result :=
  { subscriber with ref := number subscriber.ref }

/-- The subscriber by its number, if it is the owner's. -/
def Subscriber.ownedBy (owner : Owner) (number : Nat → Nat) (subscriber : Subscriber Id Owner Result) :
    Option (Subscriber Id Owner Result) :=
  if subscriber.owner = owner then some (subscriber.renumber number) else none

/-- The subscribers of one owner, by their own numbers. -/
def ownSubscribers (owner : Owner) (number : Nat → Nat)
    (subscribers : List (Subscriber Id Owner Result)) : List (Subscriber Id Owner Result) :=
  subscribers.filterMap (Subscriber.ownedBy owner number)

section

variable {owner owner' : Owner} {number number' : Nat → Nat} {result : Result} {capacity : Nat}
  {subscriber : Subscriber Id Owner Result} {subscribers : List (Subscriber Id Owner Result)}

theorem deliver_renumber (number : Nat → Nat) (subscriber : Subscriber Id Owner Result) :
    deliver capacity owner id result (subscriber.renumber number) =
      ((deliver capacity owner id result subscriber).1.map (Subscriber.renumber number),
        (deliver capacity owner id result subscriber).2) := by
  unfold deliver Subscriber.renumber
  dsimp only
  split
  · rfl
  · split
    · rfl
    · split <;> rfl

theorem deliver_other (h : subscriber.owner ≠ owner) :
    deliver capacity owner id result subscriber = (some subscriber, false) := by
  rw [deliver, if_pos (.inl h)]

theorem owner_of_deliver {left : Subscriber Id Owner Result}
    (h : (deliver capacity owner id result subscriber).1 = some left) :
    left.owner = subscriber.owner := by
  unfold deliver at h
  split at h
  · rw [← Option.some.inj h]
  · split at h
    · cases h
    · dsimp only at h
      split at h
      · cases h
      · rw [← Option.some.inj h]

theorem ownedBy_deliver (subscriber : Subscriber Id Owner Result) :
    (deliver capacity owner' id result subscriber).1.bind (Subscriber.ownedBy owner number) =
      if owner' = owner then
        (subscriber.ownedBy owner number).bind fun s => (deliver capacity owner' id result s).1
      else subscriber.ownedBy owner number := by
  by_cases howner : subscriber.owner = owner'
  · split
    · rename_i heq
      have hself : subscriber.owner = owner := howner.trans heq
      rw [Subscriber.ownedBy, if_pos hself, Option.bind_some, deliver_renumber]
      cases hleft : (deliver capacity owner' id result subscriber).1 with
      | none => rfl
      | some left =>
        rw [Option.bind_some, Option.map_some, Subscriber.ownedBy,
          if_pos ((owner_of_deliver hleft).trans hself)]
    · rename_i hne
      have hother : subscriber.owner ≠ owner := howner ▸ hne
      rw [Subscriber.ownedBy, if_neg hother]
      cases hleft : (deliver capacity owner' id result subscriber).1 with
      | none => rfl
      | some left =>
        rw [Option.bind_some, Subscriber.ownedBy, if_neg ((owner_of_deliver hleft).symm ▸ hother)]
  · rw [deliver_other howner, Option.bind_some]
    split
    · rename_i heq
      rw [Subscriber.ownedBy, if_neg (heq ▸ howner)]
      rfl
    · rfl

theorem ownSubscribers_deliver (subscribers : List (Subscriber Id Owner Result)) :
    ownSubscribers owner number
        (subscribers.filterMap fun s => (deliver capacity owner' id result s).1) =
      if owner' = owner then
        (ownSubscribers owner number subscribers).filterMap fun s =>
          (deliver capacity owner' id result s).1
      else ownSubscribers owner number subscribers := by
  unfold ownSubscribers
  rw [List.filterMap_filterMap, List.filterMap_filterMap]
  split
  · rename_i heq
    exact List.filterMap_congr fun s _ => (ownedBy_deliver s).trans (if_pos heq)
  · rename_i hne
    exact List.filterMap_congr fun s _ => (ownedBy_deliver s).trans (if_neg hne)

theorem delivered_ownSubscribers (subscribers : List (Subscriber Id Owner Result)) :
    ((ownSubscribers owner number subscribers).filter fun s =>
        (deliver capacity owner id result s).2).map (·.ref) =
      ((subscribers.filter fun s => (deliver capacity owner id result s).2).map (·.ref)).map number := by
  induction subscribers with
  | nil => rfl
  | cons s rest ih =>
    unfold ownSubscribers at ih ⊢
    by_cases howner : s.owner = owner
    · have hself : s.ownedBy owner number = some (s.renumber number) := if_pos howner
      rw [List.filterMap_cons_some hself, List.filter_cons, List.filter_cons, deliver_renumber]
      split
      · rw [List.map_cons, List.map_cons, List.map_cons, ih]
        rfl
      · exact ih
    · have hnone : s.ownedBy owner number = none := if_neg howner
      rw [List.filterMap_cons_none hnone, List.filter_cons, deliver_other howner, if_neg nofun, ih]

theorem ownSubscribers_append (subscribers subscribers' : List (Subscriber Id Owner Result)) :
    ownSubscribers owner number (subscribers ++ subscribers') =
      ownSubscribers owner number subscribers ++ ownSubscribers owner number subscribers' :=
  List.filterMap_append

theorem ownSubscribers_singleton (subscriber : Subscriber Id Owner Result) :
    ownSubscribers owner number [subscriber] =
      if subscriber.owner = owner then [subscriber.renumber number] else [] := by
  rw [ownSubscribers, List.filterMap_cons, Subscriber.ownedBy]
  split
  · rename_i heq
    split at heq
    · cases heq
    · rw [if_neg ‹_›, List.filterMap_nil]
  · rename_i heq
    split at heq
    · rw [if_pos ‹_›, ← Option.some.inj heq, List.filterMap_nil]
    · cases heq

theorem ownSubscribers_congr (h : ∀ s ∈ subscribers, s.owner = owner → number' s.ref = number s.ref) :
    ownSubscribers owner number' subscribers = ownSubscribers owner number subscribers := by
  refine List.filterMap_congr fun s hs => ?_
  unfold Subscriber.ownedBy
  split
  · rename_i howner
    rw [Subscriber.renumber, h s hs howner, Subscriber.renumber]
  · rfl

/-- A stream `ref` of `owner'` among those of `owner`. -/
structure Numbered (owner owner' : Owner) (number : Nat → Nat) (ref : Nat)
    (subscribers : List (Subscriber Id Owner Result)) : Prop where
  own : owner' = owner → ∀ s ∈ subscribers, s.owner = owner → (number s.ref = number ref ↔ s.ref = ref)
  other : owner' ≠ owner → ∀ s ∈ subscribers, s.owner = owner → s.ref ≠ ref

theorem ownSubscribers_unsubscribe {ref : Nat} (h : Numbered owner owner' number ref subscribers) :
    ownSubscribers owner number (subscribers.filter (·.ref ≠ ref)) =
      if owner' = owner then (ownSubscribers owner number subscribers).filter (·.ref ≠ number ref)
      else ownSubscribers owner number subscribers := by
  unfold ownSubscribers
  rw [List.filterMap_filter, List.filter_filterMap]
  split
  · rename_i heq
    refine List.filterMap_congr fun s hs => ?_
    unfold Subscriber.ownedBy
    by_cases howner : s.owner = owner
    · rw [if_pos howner, Option.filter_some]
      simp only [Subscriber.renumber, decide_eq_true_eq, ne_eq, h.own heq s hs howner]
    · simp only [if_neg howner, ite_self, Option.filter_none]
  · rename_i hne
    refine List.filterMap_congr fun s hs => ?_
    unfold Subscriber.ownedBy
    by_cases howner : s.owner = owner
    · rw [if_pos (decide_eq_true (h.other hne s hs howner))]
    · simp only [if_neg howner, ite_self]

theorem ownSubscribers_pull {ref : Nat} (h : Numbered owner owner' number ref subscribers) :
    ownSubscribers owner number
        (subscribers.map fun s => if s.ref = ref then { s with controller := s.controller.read } else s) =
      if owner' = owner then
        (ownSubscribers owner number subscribers).map fun s =>
          if s.ref = number ref then { s with controller := s.controller.read } else s
      else ownSubscribers owner number subscribers := by
  unfold ownSubscribers
  rw [List.filterMap_map, List.map_filterMap]
  split
  · rename_i heq
    refine List.filterMap_congr fun s hs => ?_
    unfold Subscriber.ownedBy
    by_cases howner : s.owner = owner
    · have hnumber := h.own heq s hs howner
      by_cases href : s.ref = ref
      · simp only [Function.comp_apply, if_pos href, howner, if_true, Option.map_some,
          Subscriber.renumber, if_pos (hnumber.mpr href)]
      · simp only [Function.comp_apply, if_neg href, howner, if_true, Option.map_some,
          Subscriber.renumber, if_neg (mt hnumber.mp href)]
    · by_cases href : s.ref = ref
      · simp only [Function.comp_apply, if_pos href, if_neg howner, Option.map_none]
      · simp only [Function.comp_apply, if_neg href, if_neg howner, Option.map_none]
  · rename_i hne
    refine List.filterMap_congr fun s hs => ?_
    unfold Subscriber.ownedBy
    by_cases howner : s.owner = owner
    · simp only [Function.comp_apply, if_neg (h.other hne s hs howner)]
    · by_cases href : s.ref = ref
      · simp only [Function.comp_apply, if_pos href, if_neg howner]
      · simp only [Function.comp_apply, if_neg href, if_neg howner]

end

/-! ## One owner's part of a run -/

namespace OwnedWorld

def mine (w : OwnedWorld Id Key Owner Result) (owner : Owner) (id : Id) : Bool :=
  w.owners.lookup id = some owner

def number (w : OwnedWorld Id Key Owner Result) (owner : Owner) (ref : Nat) : Nat :=
  streamNumber w.streams owner ref

end OwnedWorld

/-- `v` is what `w` is for the owner. -/
structure Seen (owner : Owner) (maxPending maxCompleted : Limit) (w v : OwnedWorld Id Key Owner Result) :
    Prop where
  invariant : v.world.Invariant maxPending maxCompleted
  capacity : v.world.storage.subscriberBufferCapacity = w.world.storage.subscriberBufferCapacity
  entries : SeenEntries (w.mine owner) w.world.storage v.world.storage
  subscribers : v.world.storage.subscribers =
    ownSubscribers owner (w.number owner) w.world.storage.subscribers
  nextRef : v.world.storage.nextRef = w.streams.count owner
  streams : v.streams = List.replicate (w.streams.count owner) owner
  tasks : v.world.tasks = w.world.tasks.restrict (w.mine owner)
  issued : ∀ id ∈ v.world.issued, id ∈ w.world.issued
  owners : ∀ id, v.owners.lookup id = (w.owners.lookup id).filter (· = owner)

variable {owner : Owner}

theorem seen_init (owner : Owner) (maxPending maxCompleted : Limit) (capacity : Nat) :
    Seen owner maxPending maxCompleted
      (.init maxPending maxCompleted capacity : OwnedWorld Id Key Owner Result)
      (.init maxPending maxCompleted capacity) where
  invariant := invariant_init maxPending maxCompleted capacity
  capacity := rfl
  entries := ⟨rfl, fun _ => rfl, rfl⟩
  subscribers := rfl
  nextRef := rfl
  streams := rfl
  tasks := rfl
  issued _ h := h
  owners _ := rfl

theorem Seen.streamName (h : Seen owner maxPending maxCompleted w v) {ref : Nat}
    (href : w.streams[ref]? = some owner) :
    w.streamName ref = some (owner, w.number owner ref) ∧
      v.streamName (w.number owner ref) = some (owner, w.number owner ref) := by
  refine ⟨streamName_of_owner href, ?_⟩
  rw [OwnedWorld.streamName, h.streams]
  exact streamName_replicate (streamNumber_lt_count href) owner

theorem OwnedWorld.Sound.numbered (h : w.Sound maxPending maxCompleted uses) (owner : Owner) {ref : Nat}
    {owner' : Owner} (href : w.streams[ref]? = some owner') :
    Numbered owner owner' (w.number owner) ref w.world.storage.subscribers := by
  refine ⟨fun heq s hs howner => ⟨fun hnumber => ?_, fun hsame => hsame ▸ rfl⟩,
    fun hne s hs howner hsame => ?_⟩
  · exact streamNumber_injective (howner ▸ h.streamOwner s hs) (heq ▸ href) hnumber
  · rw [← hsame, h.streamOwner s hs, howner] at href
    exact hne (Option.some.inj href).symm

theorem OwnedWorld.mine_iff : w.mine owner id ↔ w.owners.lookup id = some owner := decide_eq_true_iff

theorem OwnedWorld.Sound.mine_iff (h : w.Sound maxPending maxCompleted uses)
    {entry : FutureEntry Key Owner Result} (hentry : w.world.storage.entries.lookup id = some entry) :
    w.mine owner id ↔ entry.owner = owner := by
  rw [OwnedWorld.mine_iff, h.entryOwner id entry hentry, Option.some_inj]

theorem reachedBy_mono {limit : Limit} {a b : Int} (h : a ≤ b) (hb : ¬limit.reachedBy b) :
    ¬limit.reachedBy a := by
  cases limit with
  | infinity => nofun
  | finite n =>
    simp only [Limit.reachedBy, decide_eq_true_eq] at hb ⊢
    omega

theorem Seen.below (h : Seen owner maxPending maxCompleted w v)
    (hsound : w.Sound maxPending maxCompleted uses) (hbelow : w.BelowLimits) : v.BelowLimits := by
  refine ⟨?_, ?_⟩
  · rw [h.invariant.maxPending, ← hsound.invariant.maxPending]
    exact reachedBy_mono (h.entries.pendingCount_le hsound.invariant.consistent h.invariant.consistent)
      hbelow.1
  · rw [h.invariant.maxCompleted, ← hsound.invariant.maxCompleted]
    exact reachedBy_mono (Int.ofNat_le.mpr h.entries.completed_le) hbelow.2

theorem Seen.register (h : Seen owner maxPending maxCompleted w v)
    (hsound : w.Sound maxPending maxCompleted uses) (hbelow : w.BelowLimits)
    (hkeys : ∀ o o' key, uses o key → uses o' key → o = o')
    {registration : FutureRegistration Key Owner} (howner : registration.owner = owner)
    (huses : ∀ key, registration.idempotencyKey = some key → uses registration.owner key) (id : Id) :
    (∃ answer, (∀ id', answer ≠ .ok (.scheduled id')) ∧
      w.world.storage.register registration id = (answer, w.world.storage) ∧
      v.world.storage.register registration id = (answer, v.world.storage)) ∨
    (registration.idempotencyKey.bind w.world.storage.idempotency.lookup = none ∧
      w.world.storage.register registration id =
        (.ok (.scheduled id), w.world.storage.schedule registration id) ∧
      v.world.storage.register registration id =
        (.ok (.scheduled id), v.world.storage.schedule registration id)) := by
  cases hbind : registration.idempotencyKey.bind w.world.storage.idempotency.lookup with
  | none =>
    refine .inr ⟨rfl, ?_, ?_⟩
    · rw [InMemoryFutureStorage.register, hbind]
      exact if_neg hbelow.1
    · rw [InMemoryFutureStorage.register, h.entries.unknown hbind]
      exact if_neg (h.below hsound hbelow).1
  | some known =>
    obtain ⟨key, hkey, hlookup⟩ := Option.bind_eq_some_iff.mp hbind
    obtain ⟨entry, hentry, hentryKey⟩ := (hsound.invariant.consistent.key key known).mp hlookup
    -- Whoever has the key used it, so it is the owner.
    have hsame : entry.owner = owner :=
      (hkeys _ _ key (hsound.entryKey known entry key hentry hentryKey) (huses key hkey)).trans howner
    have hmine : w.mine owner known := (hsound.mine_iff hentry).mpr hsame
    have hbind' : registration.idempotencyKey.bind v.world.storage.idempotency.lookup = some known := by
      rw [hkey, Option.bind_some, h.entries.keys, hlookup, Option.filter_some, if_pos hmine]
    have hnot (e : Option (FutureEntry Key Owner Result)) (he : e = some entry) :
        ¬e.map FutureEntry.owner ≠ some registration.owner := by
      rw [he, Option.map_some, hsame, howner]
      exact fun hne => hne rfl
    refine .inl ⟨.ok (.existing known), fun _ heq => (by cases heq), ?_, ?_⟩
    · rw [InMemoryFutureStorage.register, hbind]
      exact if_neg (hnot _ hentry)
    · rw [InMemoryFutureStorage.register, hbind']
      exact if_neg (hnot _ ((h.entries.lookup hmine).trans hentry))

theorem FutureWorld.registered_of_unchanged {world : FutureWorld Id Key Owner Result}
    {registration : FutureRegistration Key Owner} {answer : Except RpcError (Registered Id)}
    (hcall : world.storage.register registration id = (answer, world.storage))
    (hnone : ∀ id', answer ≠ .ok (.scheduled id')) : world.registered registration id = world := by
  unfold FutureWorld.registered
  rw [hcall]
  cases answer with
  | error error => rfl
  | ok registered =>
    cases registered with
    | existing known => rfl
    | scheduled known => exact absurd rfl (hnone known)

theorem OwnedWorld.ownersAfter_of_unchanged {answer : Except RpcError (Registered Id)}
    (hnone : ∀ id', answer ≠ .ok (.scheduled id')) : w.ownersAfter owner answer = w.owners := by
  cases answer with
  | error error => rfl
  | ok registered =>
    cases registered with
    | existing known => rfl
    | scheduled known => exact absurd rfl (hnone known)

theorem OwnedWorld.registered_of_unchanged {registration : FutureRegistration Key Owner}
    {answer : Except RpcError (Registered Id)}
    (hcall : w.world.storage.register registration id = (answer, w.world.storage))
    (hnone : ∀ id', answer ≠ .ok (.scheduled id')) :
    { w with
      world := w.world.registered registration id
      owners := w.ownersAfter registration.owner (w.world.storage.register registration id).1 } = w := by
  rw [FutureWorld.registered_of_unchanged hcall hnone, hcall, OwnedWorld.ownersAfter_of_unchanged hnone]

def OwnedWorld.scheduled (w : OwnedWorld Id Key Owner Result)
    (registration : FutureRegistration Key Owner) (id : Id) : OwnedWorld Id Key Owner Result :=
  { w with
    world :=
      { w.world with
        storage := w.world.storage.schedule registration id
        tasks := w.world.tasks.set id ⟨registration.discardResult, false⟩
        issued := id :: w.world.issued }
    owners := w.owners.set id registration.owner }

theorem OwnedWorld.scheduled_eq {registration : FutureRegistration Key Owner}
    (hcall : w.world.storage.register registration id =
      (.ok (.scheduled id), w.world.storage.schedule registration id)) :
    { w with
      world := w.world.registered registration id
      owners := w.ownersAfter registration.owner (w.world.storage.register registration id).1 } =
      w.scheduled registration id := by
  unfold FutureWorld.registered OwnedWorld.scheduled
  rw [hcall]
  rfl

theorem OwnedWorld.mine_scheduled (w : OwnedWorld Id Key Owner Result) (id : Id)
    (registration : FutureRegistration Key Owner) (owner : Owner) :
    ((w.scheduled registration id).mine owner id ↔ registration.owner = owner) ∧
      ∀ id', id' ≠ id → (w.scheduled registration id).mine owner id' = w.mine owner id' := by
  have hlookup (id' : Id) : (w.scheduled registration id).owners.lookup id' =
      if id' = id then some registration.owner else w.owners.lookup id' := OrderedMap.lookup_set ..
  refine ⟨?_, fun id' hne => ?_⟩
  · rw [OwnedWorld.mine_iff, hlookup, if_pos rfl, Option.some_inj]
  · rw [OwnedWorld.mine, hlookup, if_neg hne, OwnedWorld.mine]

theorem Seen.entries_scheduled (h : Seen owner maxPending maxCompleted w v)
    (hsound : w.Sound maxPending maxCompleted uses) (hfresh : id ∉ w.world.issued)
    (registration : FutureRegistration Key Owner) :
    SeenEntries ((w.scheduled registration id).mine owner) w.world.storage v.world.storage ∧
      v.world.tasks = w.world.tasks.restrict ((w.scheduled registration id).mine owner) := by
  obtain ⟨-, hsame⟩ := w.mine_scheduled id registration owner
  refine ⟨h.entries.congr hsound.invariant.consistent fun id' hid' => hsame id' ?_, ?_⟩
  · rintro rfl
    exact hfresh (hsound.invariant.issued _ hid')
  · refine h.tasks.trans (AList.ext (List.filter_congr fun e he => ?_))
    refine (hsame e.1 ?_).symm
    rintro heq
    have hmem : e.1 ∈ w.world.tasks := AList.mem_keys.mpr (List.mem_keys_of_mem he)
    obtain ⟨task, htask⟩ := OrderedMap.mem_iff.mp hmem
    obtain ⟨o, ho⟩ := hsound.taskOwner _ task htask
    exact hfresh (heq ▸ hsound.issued _ o ho)

theorem Seen.scheduled_own (h : Seen owner maxPending maxCompleted w v)
    (hsound : w.Sound maxPending maxCompleted uses) (hfresh : id ∉ w.world.issued)
    {registration : FutureRegistration Key Owner} (howner : registration.owner = owner)
    (hkey : registration.idempotencyKey.bind w.world.storage.idempotency.lookup = none)
    (hinvariant : (v.scheduled registration id).world.Invariant maxPending maxCompleted) :
    Seen owner maxPending maxCompleted (w.scheduled registration id) (v.scheduled registration id) := by
  have hmine := (w.mine_scheduled id registration owner).1.mpr howner
  obtain ⟨hentries, htasks⟩ := h.entries_scheduled hsound hfresh registration
  have hschedule := seenEntries_schedule hentries id registration hkey
  rw [if_pos hmine] at hschedule
  refine ⟨hinvariant, h.capacity, hschedule, h.subscribers, h.nextRef, h.streams, ?_, ?_, fun id' => ?_⟩
  · show v.world.tasks.set id _ = (w.world.tasks.set id _).restrict _
    rw [OrderedMap.restrict_set_of_mem _ hmine, htasks]
  · intro id' hid'
    rcases List.mem_cons.mp hid' with rfl | hold
    · exact List.mem_cons_self ..
    · exact List.mem_cons_of_mem _ (h.issued id' hold)
  · show (v.owners.set id registration.owner).lookup id' =
      ((w.owners.set id registration.owner).lookup id').filter (· = owner)
    rw [OrderedMap.lookup_set, OrderedMap.lookup_set]
    split
    · rw [Option.filter_some, if_pos (decide_eq_true howner)]
    · exact h.owners id'

theorem Seen.scheduled_other (h : Seen owner maxPending maxCompleted w v)
    (hsound : w.Sound maxPending maxCompleted uses) (hfresh : id ∉ w.world.issued)
    {registration : FutureRegistration Key Owner} (howner : registration.owner ≠ owner)
    (hkey : registration.idempotencyKey.bind w.world.storage.idempotency.lookup = none) :
    Seen owner maxPending maxCompleted (w.scheduled registration id) v := by
  have hmine := mt (w.mine_scheduled id registration owner).1.mp howner
  obtain ⟨hentries, htasks⟩ := h.entries_scheduled hsound hfresh registration
  have hschedule := seenEntries_schedule hentries id registration hkey
  rw [if_neg hmine] at hschedule
  refine ⟨h.invariant, h.capacity, hschedule, h.subscribers, h.nextRef, h.streams, ?_, ?_,
    fun id' => ?_⟩
  · show v.world.tasks = (w.world.tasks.set id _).restrict _
    rw [OrderedMap.restrict_set_of_notMem _ hmine, htasks]
  · intro id' hid'
    exact List.mem_cons_of_mem _ (h.issued id' hid')
  · show v.owners.lookup id' =
      ((w.owners.set id registration.owner).lookup id').filter (· = owner)
    rw [OrderedMap.lookup_set]
    split
    · rename_i hsame
      rw [Option.filter_some, if_neg (decide_eq_true_iff.not.mpr howner), h.owners, hsame]
      cases hlookup : w.owners.lookup id with
      | none => rfl
      | some o => exact absurd (hsound.issued id o hlookup) hfresh
    · exact h.owners id'

theorem seen_register (h : Seen owner maxPending maxCompleted w v)
    (hsound : w.Sound maxPending maxCompleted uses) (hbelow : w.BelowLimits)
    (hkeys : ∀ o o' key, uses o key → uses o' key → o = o')
    (registration : FutureRegistration Key Owner) (hfresh : id ∉ w.world.issued)
    (huses : ∀ key, registration.idempotencyKey = some key → uses registration.owner key) :
    let w' : OwnedWorld Id Key Owner Result := { w with
      world := w.world.registered registration id
      owners := w.ownersAfter registration.owner (w.world.storage.register registration id).1 }
    if registration.owner = owner then
      ∃ v', OwnedStep v (.register registration (w.world.storage.register registration id).1) v' ∧
        Seen owner maxPending maxCompleted w' v'
    else Seen owner maxPending maxCompleted w' v := by
  intro w'
  split
  · rename_i howner
    have hfresh' : id ∉ v.world.issued := fun hid => hfresh (h.issued id hid)
    have hone := OwnedStep.register (w := v) (.register registration id hfresh')
    rcases h.register hsound hbelow hkeys howner huses id with
      ⟨answer, hnone, hcall, hcall'⟩ | ⟨hkey, hcall, hcall'⟩
    · have hw' : w' = w := OwnedWorld.registered_of_unchanged hcall hnone
      rw [OwnedWorld.registered_of_unchanged hcall' hnone, hcall'] at hone
      exact ⟨v, hcall ▸ hone, hw' ▸ h⟩
    · have hw' : w' = w.scheduled registration id := OwnedWorld.scheduled_eq hcall
      have hinvariant := invariant_registered h.invariant registration hfresh'
      have hv' := OwnedWorld.scheduled_eq hcall'
      rw [hv', hcall'] at hone
      have hworld := congrArg OwnedWorld.world hv'
      refine ⟨v.scheduled registration id, hcall ▸ hone, hw' ▸ ?_⟩
      exact h.scheduled_own hsound hfresh howner hkey (hworld ▸ hinvariant)
  · rename_i howner
    rcases w.world.storage.register_cases registration id with ⟨answer, hcall, hnone⟩ | ⟨hkey, hcall⟩
    · have hw' : w' = w := OwnedWorld.registered_of_unchanged hcall hnone
      exact hw' ▸ h
    · have hw' : w' = w.scheduled registration id := OwnedWorld.scheduled_eq hcall
      exact hw' ▸ h.scheduled_other hsound hfresh howner hkey

theorem seen_start (h : Seen owner maxPending maxCompleted w v) {owner' : Owner} {discard : Bool}
    (htask : w.world.tasks.lookup id = some ⟨discard, false⟩) (howner : w.owners.lookup id = some owner') :
    let w' : OwnedWorld Id Key Owner Result :=
      { w with world := { w.world with tasks := w.world.tasks.set id ⟨discard, true⟩ } }
    if owner' = owner then
      ∃ v', OwnedStep v (.start owner' id) v' ∧ Seen owner maxPending maxCompleted w' v'
    else Seen owner maxPending maxCompleted w' v := by
  intro w'
  split
  · rename_i heq
    have hmine : w.mine owner id := OwnedWorld.mine_iff.mpr (heq ▸ howner)
    have htask' : v.world.tasks.lookup id = some ⟨discard, false⟩ := by
      rw [h.tasks, OrderedMap.lookup_restrict, if_pos hmine, htask]
    have howner' : v.owners.lookup id = some owner' := by
      rw [h.owners, howner, Option.filter_some, if_pos (decide_eq_true heq)]
    have hone : FutureStep v.world (.start id) _ := .start id htask'
    refine ⟨_, .start hone howner', invariant_step h.invariant hone, h.capacity, h.entries,
      h.subscribers, h.nextRef, h.streams, ?_, h.issued, h.owners⟩
    show v.world.tasks.set id _ = (w.world.tasks.set id _).restrict (w.mine owner)
    rw [OrderedMap.restrict_set_of_mem _ hmine, h.tasks]
  · rename_i hne
    have hmine : ¬w.mine owner id := by
      rw [OwnedWorld.mine_iff, howner, Option.some_inj]
      exact hne
    refine ⟨h.invariant, h.capacity, h.entries, h.subscribers, h.nextRef, h.streams, ?_, h.issued,
      h.owners⟩
    show v.world.tasks = (w.world.tasks.set id _).restrict (w.mine owner)
    rw [OrderedMap.restrict_set_of_notMem _ hmine, h.tasks]

theorem Seen.complete (h : Seen owner maxPending maxCompleted w v)
    (hsound : w.Sound maxPending maxCompleted uses) (hbelow : w.BelowLimits)
    (hmine : w.mine owner id) (result : Result) (discard : Bool) :
    (w.world.storage.complete id result discard = ([], w.world.storage) ∧
      v.world.storage.complete id result discard = ([], v.world.storage)) ∨
    ∃ entry, w.world.storage.entries.lookup id = some entry ∧
      w.world.storage.complete id result discard =
        (w.world.storage.deliveredTo owner id result,
          w.world.storage.settled id entry result discard) ∧
      v.world.storage.complete id result discard =
        ((w.world.storage.deliveredTo owner id result).map (w.number owner),
          v.world.storage.settled id entry result discard) := by
  have hlookup := h.entries.lookup hmine
  cases hentry : w.world.storage.entries.lookup id with
  | none =>
    rw [hentry] at hlookup
    exact .inl ⟨complete_of_lookup_none hentry result discard,
      complete_of_lookup_none hlookup result discard⟩
  | some entry =>
    rw [hentry] at hlookup
    by_cases hpending : entry.isPending
    · have howner : entry.owner = owner := (hsound.mine_iff hentry).mp hmine
      refine .inr ⟨entry, rfl, ?_, ?_⟩
      · rw [complete_below hbelow.2 hentry hpending, howner]
      · rw [complete_below (h.below hsound hbelow).2 hlookup hpending, howner]
        refine Prod.ext ?_ rfl
        show (v.world.storage.subscribers.filter _).map _ = _
        rw [h.capacity, h.subscribers]
        exact delivered_ownSubscribers w.world.storage.subscribers
    · exact .inl ⟨complete_of_completed hentry hpending result discard,
        complete_of_completed hlookup hpending result discard⟩

theorem Seen.streamNames (h : Seen owner maxPending maxCompleted w v) {refs : List Nat}
    (hrefs : ∀ ref ∈ refs, w.streams[ref]? = some owner) :
    (refs.map (w.number owner)).filterMap v.streamName = refs.filterMap w.streamName := by
  rw [List.filterMap_map]
  refine List.filterMap_congr fun ref hmem => ?_
  obtain ⟨hw, hv⟩ := h.streamName (hrefs ref hmem)
  rw [Function.comp_apply, hv, hw]

theorem FutureWorld.completed_eq {world : FutureWorld Id Key Owner Result} {result : Result}
    {discard : Bool} {refs : List Nat} {storage : InMemoryFutureStorage Id Key Owner Result}
    (hcall : world.storage.complete id result discard = (refs, storage)) :
    world.completed id result discard =
      { world with
        storage
        tasks := world.tasks.delete id
        received := world.received ++ refs.map (·, id) } := by
  rw [completed, hcall]

theorem FutureWorld.subscribed_eq (world : FutureWorld Id Key Owner Result) (ids : Option (List Id))
    (owner : Owner) :
    world.subscribed ids owner =
      { world with
        storage :=
          { world.storage with
            nextRef := world.storage.nextRef + 1
            subscribers := world.storage.subscribers ++ world.storage.waiting ids owner }
        received := world.received ++
          (subscribeLoop owner world.storage.entries.pairs (requestedIds ids)).1.map
            fun p => (world.storage.nextRef, p.1) } := by
  rw [subscribed, subscribe_eq]

theorem seen_complete (h : Seen owner maxPending maxCompleted w v)
    (hsound : w.Sound maxPending maxCompleted uses) (hbelow : w.BelowLimits) {owner' : Owner}
    {result : Result} {discard : Bool} (htask : w.world.tasks.lookup id = some ⟨discard, true⟩)
    (howner : w.owners.lookup id = some owner') :
    let w' : OwnedWorld Id Key Owner Result :=
      { w with world := w.world.completed id result discard }
    let refs := (w.world.storage.complete id result discard).1
    if owner' = owner then
      ∃ v', OwnedStep v (.complete owner' id result (refs.filterMap w.streamName)) v' ∧
        Seen owner maxPending maxCompleted w' v'
    else Seen owner maxPending maxCompleted w' v := by
  intro w' refs
  split
  · rename_i heq
    have hmine : w.mine owner id := OwnedWorld.mine_iff.mpr (heq ▸ howner)
    have htask' : v.world.tasks.lookup id = some ⟨discard, true⟩ := by
      rw [h.tasks, OrderedMap.lookup_restrict, if_pos hmine, htask]
    have howner' : v.owners.lookup id = some owner' := by
      rw [h.owners, howner, Option.filter_some, if_pos (decide_eq_true heq)]
    have htasks : v.world.tasks.delete id = (w.world.tasks.delete id).restrict (w.mine owner) := by
      rw [OrderedMap.restrict_delete, h.tasks]
    have hone : FutureStep v.world (.complete id result) _ := .complete id result htask'
    have hinvariant := invariant_step h.invariant hone
    have hnames := OwnedStep.complete (v.world.storage.complete id result discard).1 hone howner' rfl
    rcases h.complete hsound hbelow hmine result discard with
      ⟨hcall, hcall'⟩ | ⟨entry, hentry, hcall, hcall'⟩
    · have hw := FutureWorld.completed_eq hcall
      have hv := FutureWorld.completed_eq hcall'
      rw [hcall'] at hnames
      refine ⟨{ v with world := v.world.completed id result discard }, ?_, ?_⟩
      · show OwnedStep v (.complete owner' id result (refs.filterMap w.streamName)) _
        rw [show refs = [] from congrArg Prod.fst hcall]
        exact hnames
      · rw [hv] at hinvariant ⊢
        show Seen owner maxPending maxCompleted { w with world := w.world.completed id result discard } _
        rw [hw]
        exact ⟨hinvariant, h.capacity, h.entries, h.subscribers, h.nextRef, h.streams, htasks, h.issued,
          h.owners⟩
    · have hw := FutureWorld.completed_eq hcall
      have hv := FutureWorld.completed_eq hcall'
      have hsettled := seenEntries_settled h.entries hsound.invariant.consistent hentry result discard
      rw [if_pos hmine] at hsettled
      have howned : entry.owner = owner := (hsound.mine_iff hentry).mp hmine
      rw [hcall', h.streamNames fun ref href => ?_] at hnames
      refine ⟨{ v with world := v.world.completed id result discard }, ?_, ?_⟩
      · show OwnedStep v (.complete owner' id result (refs.filterMap w.streamName)) _
        rw [show refs = w.world.storage.deliveredTo owner id result from congrArg Prod.fst hcall]
        exact hnames
      · rw [hv] at hinvariant ⊢
        show Seen owner maxPending maxCompleted { w with world := w.world.completed id result discard } _
        rw [hw]
        refine ⟨hinvariant, ?_, hsettled, ?_, ?_, h.streams, htasks, h.issued, h.owners⟩
        · rw [capacity_settled, capacity_settled, h.capacity]
        · rw [subscribers_settled, subscribers_settled, h.capacity, h.subscribers]
          exact ((ownSubscribers_deliver _).trans (if_pos howned)).symm
        · rw [nextRef_settled, h.nextRef]
      · obtain ⟨subscriber, hmem, rfl, hsubscriber⟩ := mem_deliveredTo href
        exact hsubscriber ▸ hsound.streamOwner subscriber hmem
  · rename_i hne
    have hmine : ¬w.mine owner id := by
      rw [OwnedWorld.mine_iff, howner, Option.some_inj]
      exact hne
    have htasks : v.world.tasks = (w.world.tasks.delete id).restrict (w.mine owner) := by
      rw [OrderedMap.restrict_delete_of_notMem _ hmine, h.tasks]
    show Seen owner maxPending maxCompleted { w with world := w.world.completed id result discard } v
    rcases complete_cases hbelow.2 id result discard with hcall | ⟨entry, hentry, -, hcall⟩
    · rw [FutureWorld.completed_eq hcall]
      exact ⟨h.invariant, h.capacity, h.entries, h.subscribers, h.nextRef, h.streams, htasks, h.issued,
        h.owners⟩
    · have hsettled := seenEntries_settled h.entries hsound.invariant.consistent hentry result discard
      rw [if_neg hmine] at hsettled
      have hother : entry.owner ≠ owner := mt (hsound.mine_iff hentry).mpr hmine
      rw [FutureWorld.completed_eq hcall]
      refine ⟨h.invariant, ?_, hsettled, ?_, h.nextRef, h.streams, htasks, h.issued, h.owners⟩
      · rw [capacity_settled, h.capacity]
      · rw [subscribers_settled, h.subscribers]
        exact ((ownSubscribers_deliver _).trans (if_neg hother)).symm

theorem Seen.cancel (h : Seen owner maxPending maxCompleted w v)
    (hsound : w.Sound maxPending maxCompleted uses) (id : Id) :
    (∃ answer, w.world.storage.cancel id owner = (answer, w.world.storage) ∧
      v.world.storage.cancel id owner = (answer, v.world.storage)) ∨
    ∃ entry, w.world.storage.entries.lookup id = some entry ∧ w.mine owner id ∧
      w.world.storage.cancel id owner = (.ok true,
        { w.world.storage.forget id entry.idempotencyKey with
          pendingCount := w.world.storage.pendingCount - 1 }) ∧
      v.world.storage.cancel id owner = (.ok true,
        { v.world.storage.forget id entry.idempotencyKey with
          pendingCount := v.world.storage.pendingCount - 1 }) := by
  have hlookup : v.world.storage.entries.lookup id =
      if w.mine owner id then w.world.storage.entries.lookup id else none := by
    rw [h.entries.entries, OrderedMap.lookup_restrict]
  unfold InMemoryFutureStorage.cancel
  rw [hlookup]
  cases hentry : w.world.storage.entries.lookup id with
  | none => exact .inl ⟨_, rfl, by rw [ite_self]⟩
  | some entry =>
    by_cases howner : entry.owner = owner
    · have hmine : w.mine owner id := (hsound.mine_iff hentry).mpr howner
      rw [if_pos hmine]
      dsimp only
      rw [if_neg (not_not.mpr howner), if_neg (not_not.mpr howner)]
      cases entry.state with
      | completed result => exact .inl ⟨_, rfl, rfl⟩
      | pending => exact .inr ⟨entry, rfl, hmine, rfl, rfl⟩
    · have hmine : ¬w.mine owner id := mt (hsound.mine_iff hentry).mp howner
      rw [if_neg hmine]
      dsimp only
      rw [if_pos howner]
      exact .inl ⟨_, rfl, rfl⟩

theorem seen_cancel (h : Seen owner maxPending maxCompleted w v)
    (hsound : w.Sound maxPending maxCompleted uses) (id : Id) (owner' : Owner) :
    let w' : OwnedWorld Id Key Owner Result :=
      { w with world := { w.world with storage := (w.world.storage.cancel id owner').2 } }
    if owner' = owner then
      ∃ v', OwnedStep v (.cancel owner' id (w.world.storage.cancel id owner').1) v' ∧
        Seen owner maxPending maxCompleted w' v'
    else Seen owner maxPending maxCompleted w' v := by
  intro w'
  split
  · rename_i heq
    subst heq
    have hone : FutureStep v.world (.cancel id owner' _) _ := .cancel id owner'
    have hinvariant := invariant_step h.invariant hone
    have hcancel := OwnedStep.cancel hone
    refine ⟨{ v with world := { v.world with storage := (v.world.storage.cancel id owner').2 } }, ?_, ?_⟩
    · rcases h.cancel hsound id with ⟨answer, hcall, hcall'⟩ | ⟨entry, -, -, hcall, hcall'⟩
      · rwa [hcall, ← congrArg Prod.fst hcall']
      · rwa [hcall, ← congrArg Prod.fst hcall']
    · show Seen owner' maxPending maxCompleted
        { w with world := { w.world with storage := (w.world.storage.cancel id owner').2 } } _
      rcases h.cancel hsound id with ⟨answer, hcall, hcall'⟩ | ⟨entry, hentry, hmine, hcall, hcall'⟩
      · rw [hcall, hcall']
        exact h
      · have hforget := seenEntries_forget h.entries hsound.invariant.consistent hentry
        rw [if_pos hmine] at hforget
        rw [hcall'] at hinvariant
        rw [hcall, hcall']
        exact ⟨hinvariant, h.capacity, ⟨hforget.entries, hforget.keys, hforget.order⟩, h.subscribers,
          h.nextRef, h.streams, h.tasks, h.issued, h.owners⟩
  · rename_i hne
    show Seen owner maxPending maxCompleted
      { w with world := { w.world with storage := (w.world.storage.cancel id owner').2 } } _
    rcases w.world.storage.cancel_cases id owner' with hcall | ⟨entry, hentry, howner, hcall⟩
    · rw [hcall]
      exact h
    · have hmine : ¬w.mine owner id := mt (hsound.mine_iff hentry).mp (howner ▸ hne)
      have hforget := seenEntries_forget h.entries hsound.invariant.consistent hentry
      rw [if_neg hmine] at hforget
      rw [hcall]
      exact ⟨h.invariant, h.capacity, ⟨hforget.entries, hforget.keys, hforget.order⟩, h.subscribers,
        h.nextRef, h.streams, h.tasks, h.issued, h.owners⟩

theorem seen_subscribe (h : Seen owner maxPending maxCompleted w v)
    (hsound : w.Sound maxPending maxCompleted uses) (ids : Option (List Id)) (owner' : Owner) :
    let w' : OwnedWorld Id Key Owner Result :=
      { w with world := w.world.subscribed ids owner', streams := w.streams ++ [owner'] }
    if owner' = owner then
      ∃ v', OwnedStep v (.subscribe owner' ids (w.world.storage.subscribe ids owner').1) v' ∧
        Seen owner maxPending maxCompleted w' v'
    else Seen owner maxPending maxCompleted w' v := by
  intro w'
  have hsame : ownSubscribers owner (w'.number owner) w.world.storage.subscribers =
      ownSubscribers owner (w.number owner) w.world.storage.subscribers :=
    ownSubscribers_congr fun s hs _ =>
      streamNumber_append (List.getElem?_eq_some_iff.mp (hsound.streamOwner s hs)).1.le owner owner'
  have hcount : w'.number owner w.world.storage.nextRef = w.streams.count owner := by
    show streamNumber (w.streams ++ [owner']) owner w.world.storage.nextRef = _
    rw [← hsound.streams, streamNumber_append (Nat.le_refl _), streamNumber_length]
  have hstreams := count_append w.streams owner owner'
  split
  · rename_i heq
    subst heq
    rw [if_pos rfl] at hstreams
    have hloop := h.entries.subscribeLoop (fun id entry hentry => hsound.mine_iff hentry)
      (requestedIds ids)
    have hone : FutureStep v.world (.subscribe ids owner' _) _ := .subscribe ids owner'
    have hinvariant := invariant_step h.invariant hone
    have hsubscribe := OwnedStep.subscribe hone
    refine ⟨{ v with world := v.world.subscribed ids owner', streams := v.streams ++ [owner'] }, ?_,
      ⟨hinvariant, ?_, ?_, ?_, ?_, ?_, ?_, h.issued, h.owners⟩⟩
    · rwa [subscribe_eq, ← hloop, ← congrArg Prod.fst (subscribe_eq v.world.storage ids owner')]
    · show (v.world.subscribed ids owner').storage.subscriberBufferCapacity =
        (w.world.subscribed ids owner').storage.subscriberBufferCapacity
      rw [FutureWorld.subscribed_eq, FutureWorld.subscribed_eq]
      exact h.capacity
    · show SeenEntries (w.mine owner') (w.world.subscribed ids owner').storage
        (v.world.subscribed ids owner').storage
      rw [FutureWorld.subscribed_eq, FutureWorld.subscribed_eq]
      exact ⟨h.entries.entries, h.entries.keys, h.entries.order⟩
    · show (v.world.subscribed ids owner').storage.subscribers =
        ownSubscribers owner' (w'.number owner') (w.world.subscribed ids owner').storage.subscribers
      rw [FutureWorld.subscribed_eq, FutureWorld.subscribed_eq]
      show v.world.storage.subscribers ++ _ = ownSubscribers owner' _ (w.world.storage.subscribers ++ _)
      rw [ownSubscribers_append, hsame, h.subscribers, waiting, waiting, hloop]
      split
      · rfl
      · rw [ownSubscribers_singleton, if_pos rfl, Subscriber.renumber, hcount, h.nextRef]
    · show (v.world.subscribed ids owner').storage.nextRef = (w.streams ++ [owner']).count owner'
      rw [FutureWorld.subscribed_eq, hstreams]
      exact congrArg (· + 1) h.nextRef
    · show v.streams ++ [owner'] = List.replicate ((w.streams ++ [owner']).count owner') owner'
      rw [hstreams, List.replicate_succ', h.streams]
    · show (v.world.subscribed ids owner').tasks =
        (w.world.subscribed ids owner').tasks.restrict (w.mine owner')
      rw [FutureWorld.subscribed_eq, FutureWorld.subscribed_eq]
      exact h.tasks
  · rename_i hne
    rw [if_neg hne, Nat.add_zero] at hstreams
    refine ⟨h.invariant, ?_, ?_, ?_, ?_, ?_, ?_, ?_, h.owners⟩
    · show _ = (w.world.subscribed ids owner').storage.subscriberBufferCapacity
      rw [FutureWorld.subscribed_eq]
      exact h.capacity
    · show SeenEntries (w.mine owner) (w.world.subscribed ids owner').storage v.world.storage
      rw [FutureWorld.subscribed_eq]
      exact ⟨h.entries.entries, h.entries.keys, h.entries.order⟩
    · show _ = ownSubscribers owner (w'.number owner) (w.world.subscribed ids owner').storage.subscribers
      rw [FutureWorld.subscribed_eq]
      show _ = ownSubscribers owner _ (w.world.storage.subscribers ++ _)
      rw [ownSubscribers_append, hsame, h.subscribers, waiting]
      split
      · exact (List.append_nil _).symm
      · rw [ownSubscribers_singleton, if_neg hne]
        exact (List.append_nil _).symm
    · show _ = (w.streams ++ [owner']).count owner
      rw [hstreams, h.nextRef]
    · show _ = List.replicate ((w.streams ++ [owner']).count owner) owner
      rw [hstreams, h.streams]
    · show _ = (w.world.subscribed ids owner').tasks.restrict (w.mine owner)
      rw [FutureWorld.subscribed_eq]
      exact h.tasks
    · show ∀ id ∈ v.world.issued, id ∈ (w.world.subscribed ids owner').issued
      rw [FutureWorld.subscribed_eq]
      exact h.issued

theorem seen_unsubscribe (h : Seen owner maxPending maxCompleted w v)
    (hsound : w.Sound maxPending maxCompleted uses) {ref stream : Nat} {owner' : Owner}
    (hname : w.streamName ref = some (owner', stream)) :
    let w' : OwnedWorld Id Key Owner Result :=
      { w with world := { w.world with storage := w.world.storage.unsubscribe ref } }
    if owner' = owner then
      ∃ v', OwnedStep v (.unsubscribe owner' stream) v' ∧ Seen owner maxPending maxCompleted w' v'
    else Seen owner maxPending maxCompleted w' v := by
  obtain ⟨href, rfl⟩ := streamName_eq_some hname
  have hsubscribers := ownSubscribers_unsubscribe (hsound.numbered owner href)
  intro w'
  split
  · rename_i heq
    subst heq
    rw [if_pos rfl] at hsubscribers
    have hone : FutureStep v.world (.unsubscribe (w.number owner' ref)) _ := .unsubscribe (w.number owner' ref)
    refine ⟨_, .unsubscribe hone (h.streamName href).2, invariant_step h.invariant hone, h.capacity,
      ⟨h.entries.entries, h.entries.keys, h.entries.order⟩, ?_, h.nextRef, h.streams, h.tasks, h.issued, h.owners⟩
    show v.world.storage.subscribers.filter (·.ref ≠ w.number owner' ref) = _
    rw [h.subscribers]
    exact hsubscribers.symm
  · rename_i hne
    rw [if_neg hne] at hsubscribers
    exact ⟨h.invariant, h.capacity, ⟨h.entries.entries, h.entries.keys, h.entries.order⟩,
      h.subscribers.trans hsubscribers.symm, h.nextRef, h.streams, h.tasks, h.issued, h.owners⟩

theorem seen_pull (h : Seen owner maxPending maxCompleted w v)
    (hsound : w.Sound maxPending maxCompleted uses) {ref stream : Nat} {owner' : Owner}
    (hname : w.streamName ref = some (owner', stream)) :
    let w' : OwnedWorld Id Key Owner Result :=
      { w with world := { w.world with storage := w.world.storage.pull ref } }
    if owner' = owner then
      ∃ v', OwnedStep v (.pull owner' stream) v' ∧ Seen owner maxPending maxCompleted w' v'
    else Seen owner maxPending maxCompleted w' v := by
  obtain ⟨href, rfl⟩ := streamName_eq_some hname
  have hsubscribers := ownSubscribers_pull (hsound.numbered owner href)
  intro w'
  split
  · rename_i heq
    subst heq
    rw [if_pos rfl] at hsubscribers
    have hone : FutureStep v.world (.pull (w.number owner' ref)) _ := .pull (w.number owner' ref)
    refine ⟨_, .pull hone (h.streamName href).2, invariant_step h.invariant hone, h.capacity,
      ⟨h.entries.entries, h.entries.keys, h.entries.order⟩, ?_, h.nextRef, h.streams, h.tasks, h.issued, h.owners⟩
    show v.world.storage.subscribers.map _ = _
    rw [h.subscribers]
    exact hsubscribers.symm
  · rename_i hne
    rw [if_neg hne] at hsubscribers
    exact ⟨h.invariant, h.capacity, ⟨h.entries.entries, h.entries.keys, h.entries.order⟩,
      h.subscribers.trans hsubscribers.symm, h.nextRef, h.streams, h.tasks, h.issued, h.owners⟩

theorem seen_step (h : Seen owner maxPending maxCompleted w v)
    (hsound : w.Sound maxPending maxCompleted uses) (hbelow : w.BelowLimits)
    (hkeys : ∀ o o' key, uses o key → uses o' key → o = o') (huses : event.Uses uses)
    (hstep : OwnedStep w event w') :
    if event.owner = owner then ∃ v', OwnedStep v event v' ∧ Seen owner maxPending maxCompleted w' v'
    else Seen owner maxPending maxCompleted w' v := by
  cases hstep with
  | @register world registration answer hstep =>
    cases hstep with
    | register _ id hfresh => exact seen_register h hsound hbelow hkeys registration hfresh huses
  | start hstep howner =>
    cases hstep with
    | start id htask => exact seen_start h htask howner
  | @complete world id result owner' refs hstep howner hreceived =>
    cases hstep with
    | complete _ _ htask =>
      obtain rfl := received_inj hreceived
      exact seen_complete h hsound hbelow htask howner
  | @cancel world id owner' answer hstep =>
    cases hstep with
    | cancel _ _ => exact seen_cancel h hsound id owner'
  | @subscribe world ids owner' immediate hstep =>
    cases hstep with
    | subscribe _ _ => exact seen_subscribe h hsound ids owner'
  | unsubscribe hstep hname =>
    cases hstep with
    | unsubscribe ref => exact seen_unsubscribe h hsound hname
  | pull hstep hname =>
    cases hstep with
    | pull ref => exact seen_pull h hsound hname

theorem ownerRun {capacity : Nat} {events : List (OwnerEvent Id Key Owner Result)} (owner : Owner)
    (hrun : Run (Restrict OwnedStep fun w _ => w.BelowLimits) (.init maxPending maxCompleted capacity)
      events w)
    (hkeys : KeysApart events) :
    ∃ v, Run OwnedStep (.init maxPending maxCompleted capacity)
        (events.filter fun event => event.owner = owner) v ∧
      Seen owner maxPending maxCompleted w v := by
  let Related (w v : OwnedWorld Id Key Owner Result) : Prop :=
    w.Sound maxPending maxCompleted (UsesKey events) ∧ Seen owner maxPending maxCompleted w v
  have hlabels := hrun.restrict (P := fun event => event.Uses (UsesKey events)) fun event => uses_of_mem
  have hstep (w : OwnedWorld Id Key Owner Result) (event : OwnerEvent Id Key Owner Result)
      (w' v : OwnedWorld Id Key Owner Result) (h : Related w v)
      (hstep : Restrict (Restrict OwnedStep fun w _ => w.BelowLimits)
        (fun _ event => event.Uses (UsesKey events)) w event w') :
      if event.owner = owner then ∃ v', OwnedStep v event v' ∧ Related w' v' else Related w' v := by
    obtain ⟨⟨hone, hbelow⟩, huses⟩ := hstep
    have hsound := ownedSound_step h.1 hone huses
    have hseen := seen_step h.2 h.1 hbelow hkeys huses hone
    by_cases howner : event.owner = owner
    · rw [if_pos howner] at hseen ⊢
      obtain ⟨v', hone', hseen'⟩ := hseen
      exact ⟨v', hone', hsound, hseen'⟩
    · rw [if_neg howner] at hseen ⊢
      exact ⟨hsound, hseen⟩
  have hinit : Related (.init maxPending maxCompleted capacity) (.init maxPending maxCompleted capacity) :=
    ⟨ownedSound_init maxPending maxCompleted capacity, seen_init owner maxPending maxCompleted capacity⟩
  obtain ⟨v, hrun', -, hseen⟩ := hlabels.part hstep hinit
  exact ⟨v, hrun', hseen⟩

end Bebop.TypeScript.Rpc
