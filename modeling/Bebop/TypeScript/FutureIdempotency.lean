import Bebop.TypeScript.FutureInvariant

/-!
# Bebop — idempotent registration in TypeScript

Between two cancellations of a key's future, as long as nothing is evicted, a key that is
registered is executed once. One path forgets the key too early, a completion with
`discardResult`; with it the work runs again (`idempotent_register_discard`).
-/

set_option linter.unusedSectionVars false

namespace Bebop.TypeScript.Rpc

open Bebop.Rpc (RpcError)
open Transition

variable {Id Key Owner Result : Type} [DecidableEq Id] [DecidableEq Key] [DecidableEq Owner]

/-- What a registration of an owner's key was answered, if it was not an error. -/
def FutureEvent.answerFor (owner : Owner) (key : Key) :
    FutureEvent Id Key Owner Result → Option (Registered Id)
  | .register registration (.ok answer) =>
    if registration.owner = owner ∧ registration.idempotencyKey = some key then some answer else none
  | _ => none

def answersFor (owner : Owner) (key : Key) (events : List (FutureEvent Id Key Owner Result)) :
    List (Registered Id) :=
  events.filterMap (·.answerFor owner key)

def Registered.isScheduled : Registered Id → Bool
  | .existing _ => false
  | .scheduled _ => true

/-- A key's registrations give one future, executed at most once. -/
def AtMostOnce (owner : Owner) (key : Key) (events : List (FutureEvent Id Key Owner Result)) : Prop :=
  (∀ a ∈ answersFor owner key events, ∀ b ∈ answersFor owner key events, a.id = b.id) ∧
    (answersFor owner key events).countP Registered.isScheduled ≤ 1

/-! ## Conditions on a step -/

def NotCancelled (key : Key) (world : FutureWorld Id Key Owner Result) :
    FutureEvent Id Key Owner Result → Prop
  | .cancel id _ (.ok true) =>
    ∀ entry, world.storage.entries.lookup id = some entry → entry.idempotencyKey ≠ some key
  | _ => True

/-- The step completes no more futures than are retained. -/
def Retained (world : FutureWorld Id Key Owner Result) : FutureEvent Id Key Owner Result → Prop
  | .complete _ _ =>
    ¬world.storage.maxCompleted.exceededBy ((world.storage.completedOrder.live.length + 1 : Nat) : Int)
  | _ => True

/-- The step does not complete the key's future with `discardResult`. -/
def NotDiscarded (key : Key) (world : FutureWorld Id Key Owner Result) :
    FutureEvent Id Key Owner Result → Prop
  | .complete id _ =>
    ∀ entry task, world.storage.entries.lookup id = some entry →
      world.tasks.lookup id = some task → entry.idempotencyKey = some key →
        task.discardResult = false
  | _ => True

variable {world world' : FutureWorld Id Key Owner Result} {event : FutureEvent Id Key Owner Result}
  {events : List (FutureEvent Id Key Owner Result)} {key : Key} {owner : Owner} {id : Id}

namespace InMemoryFutureStorage

variable {storage : InMemoryFutureStorage Id Key Owner Result}

theorem evictLoop_of_within (fuel : Nat)
    (h : ¬storage.maxCompleted.exceededBy storage.completedOrder.live.length) :
    evictLoop fuel storage = storage := by
  cases fuel with
  | zero => rfl
  | succ fuel => rw [evictLoop, DropQueue.length_eq, if_neg h]

theorem lookup_complete
    (hretained : ¬storage.maxCompleted.exceededBy
      ((storage.completedOrder.live.length + 1 : Nat) : Int)) (result : Result) {discard : Bool}
    (hdiscard : ∀ entry, storage.entries.lookup id = some entry →
      entry.idempotencyKey = some key → discard = false) :
    (storage.complete id result discard).2.idempotency.lookup key =
      storage.idempotency.lookup key := by
  cases hentry : storage.entries.lookup id with
  | none => rw [complete_of_lookup_none hentry]
  | some entry =>
    by_cases hpending : entry.isPending
    · rw [complete_of_pending hentry hpending]
      dsimp only
      cases discard with
      | true =>
        change (deleteKey storage.idempotency entry.idempotencyKey).lookup key = _
        rw [lookup_deleteKey, if_neg fun hkey => absurd (hdiscard entry hentry hkey) nofun]
      | false =>
        rw [if_neg nofun, keep, evictLoop_of_within]
        · rfl
        · dsimp only
          rw [DropQueue.live_push, List.length_append]
          exact hretained
    · rw [complete_of_completed hentry hpending]

theorem lookup_cancel {owner : Owner}
    (h : (storage.cancel id owner).1 = .ok true → ∀ entry, storage.entries.lookup id = some entry →
      entry.idempotencyKey ≠ some key) :
    (storage.cancel id owner).2.idempotency.lookup key = storage.idempotency.lookup key := by
  unfold cancel at h ⊢
  split
  · rfl
  · rename_i entry hentry
    split
    · rfl
    · rename_i howner
      split
      · rfl
      · rename_i hstate
        have hkey : entry.idempotencyKey ≠ some key := by
          refine h ?_ entry hentry
          rw [hentry]
          dsimp only
          rw [if_neg howner, hstate]
        change (deleteKey storage.idempotency entry.idempotencyKey).lookup key = _
        rw [lookup_deleteKey, if_neg hkey]

end InMemoryFutureStorage

/-! ## One registration -/

theorem registered_cases (world : FutureWorld Id Key Owner Result)
    (registration : FutureRegistration Key Owner) (id : Id) :
    (world.registered registration id = world ∧
      ((∃ error, (world.storage.register registration id).1 = .error error) ∨
        ∃ known, registration.idempotencyKey.bind world.storage.idempotency.lookup = some known ∧
          (world.storage.register registration id).1 = .ok (.existing known))) ∨
    (registration.idempotencyKey.bind world.storage.idempotency.lookup = none ∧
      (world.registered registration id).storage = world.storage.schedule registration id ∧
      (world.storage.register registration id).1 = .ok (.scheduled id)) := by
  unfold FutureWorld.registered
  cases hbind : registration.idempotencyKey.bind world.storage.idempotency.lookup with
  | some known =>
    left
    by_cases howner : (world.storage.entries.lookup known).map FutureEntry.owner ≠
        some registration.owner
    · have hcall : world.storage.register registration id =
          (.error ⟨.permissionDenied, ""⟩, world.storage) := by
        rw [InMemoryFutureStorage.register, hbind]
        exact if_pos howner
      rw [hcall]
      exact ⟨rfl, .inl ⟨_, rfl⟩⟩
    · have hcall : world.storage.register registration id =
          (.ok (.existing known), world.storage) := by
        rw [InMemoryFutureStorage.register, hbind]
        exact if_neg howner
      rw [hcall]
      exact ⟨rfl, .inr ⟨known, rfl, rfl⟩⟩
  | none =>
    by_cases hfull : world.storage.maxPending.reachedBy world.storage.pendingCount
    · have hcall : world.storage.register registration id =
          (.error ⟨.resourceExhausted, "too many pending futures"⟩, world.storage) := by
        rw [InMemoryFutureStorage.register, hbind]
        exact if_pos hfull
      rw [hcall]
      exact .inl ⟨rfl, .inl ⟨_, rfl⟩⟩
    · have hcall : world.storage.register registration id =
          (.ok (.scheduled id), world.storage.schedule registration id) := by
        rw [InMemoryFutureStorage.register, hbind]
        exact if_neg hfull
      rw [hcall]
      exact .inr ⟨rfl, rfl, rfl⟩

theorem lookup_schedule (storage : InMemoryFutureStorage Id Key Owner Result)
    (registration : FutureRegistration Key Owner) (id : Id) (key : Key) :
    (storage.schedule registration id).idempotency.lookup key =
      if registration.idempotencyKey = some key then some id else storage.idempotency.lookup key := by
  change (InMemoryFutureStorage.setKey _ registration.idempotencyKey id).lookup key = _
  cases registration.idempotencyKey with
  | none => rw [if_neg nofun]; rfl
  | some key' =>
    change (storage.idempotency.set key' id).lookup key = _
    rw [OrderedMap.lookup_set]
    simp only [Option.some.injEq, eq_comm]

theorem answerFor_register {registration : FutureRegistration Key Owner}
    {answer : Except RpcError (Registered Id)} {given : Registered Id}
    (h : given ∈ (FutureEvent.register registration answer :
      FutureEvent Id Key Owner Result).answerFor owner key) :
    registration.idempotencyKey = some key ∧ answer = .ok given := by
  cases answer with
  | error e => cases h
  | ok a =>
    unfold FutureEvent.answerFor at h
    dsimp only at h
    split at h
    · rename_i hboth
      exact ⟨hboth.2, congrArg Except.ok (Option.some.inj h)⟩
    · cases h

theorem lookup_of_step (owner : Owner) (hstep : FutureStep world event world') (hcancel : NotCancelled key world event)
    (hretained : Retained world event) (hdiscard : NotDiscarded key world event) :
    (∃ registration id, event = .register registration (world.storage.register registration id).1 ∧
      world' = world.registered registration id) ∨
    (world'.storage.idempotency.lookup key = world.storage.idempotency.lookup key ∧
      event.answerFor owner key = none) := by
  cases hstep with
  | register registration id hfresh => exact .inl ⟨registration, id, rfl, rfl⟩
  | start _ _ => exact .inr ⟨rfl, rfl⟩
  | complete id result htask =>
    exact .inr ⟨InMemoryFutureStorage.lookup_complete hretained result fun entry hentry hkey =>
      hdiscard entry _ hentry htask hkey, rfl⟩
  | cancel id owner' =>
    refine .inr ⟨InMemoryFutureStorage.lookup_cancel fun htrue => ?_, rfl⟩
    rw [htrue] at hcancel
    exact hcancel
  | subscribe ids owner' =>
    refine .inr ⟨?_, rfl⟩
    unfold FutureWorld.subscribed InMemoryFutureStorage.subscribe
    dsimp only
    split <;> rfl
  | unsubscribe _ => exact .inr ⟨rfl, rfl⟩
  | pull _ => exact .inr ⟨rfl, rfl⟩

theorem existing_of_known (owner : Owner) (h : world.storage.idempotency.lookup key = some id)
    (hstep : FutureStep world event world') (hcancel : NotCancelled key world event)
    (hretained : Retained world event) (hdiscard : NotDiscarded key world event) :
    world'.storage.idempotency.lookup key = some id ∧
      ∀ answer ∈ event.answerFor owner key, answer = .existing id := by
  rcases lookup_of_step owner hstep hcancel hretained hdiscard with
    ⟨registration, id', rfl, rfl⟩ | ⟨hsame, hnone⟩
  · rcases registered_cases world registration id' with ⟨hworld, hanswer⟩ | ⟨hunknown, hworld, hanswer⟩
    · rw [hworld]
      refine ⟨h, fun given hgiven => ?_⟩
      obtain ⟨hkey, hok⟩ := answerFor_register hgiven
      rcases hanswer with ⟨error, herror⟩ | ⟨known, hknown, hexisting⟩
      · rw [herror] at hok
        cases hok
      · rw [hkey, Option.bind_some, h] at hknown
        obtain rfl := Option.some.inj hknown
        exact (Except.ok.inj (hexisting.symm.trans hok)).symm
    · -- the key is known, so this registration is of another
      have hne : registration.idempotencyKey ≠ some key := by
        intro hkey
        rw [hkey, Option.bind_some, h] at hunknown
        cases hunknown
      rw [hworld, lookup_schedule, if_neg hne]
      exact ⟨h, fun given hgiven => absurd (answerFor_register hgiven).1 hne⟩
  · exact ⟨hsame.trans h, by rw [hnone]; nofun⟩

theorem scheduled_of_unknown (owner : Owner) (h : world.storage.idempotency.lookup key = none)
    (hstep : FutureStep world event world') (hcancel : NotCancelled key world event)
    (hretained : Retained world event) (hdiscard : NotDiscarded key world event) :
    (world'.storage.idempotency.lookup key = none ∧ event.answerFor owner key = none) ∨
      ∃ id, world'.storage.idempotency.lookup key = some id ∧
        ∀ answer ∈ event.answerFor owner key, answer = .scheduled id := by
  rcases lookup_of_step owner hstep hcancel hretained hdiscard with
    ⟨registration, id, rfl, rfl⟩ | ⟨hsame, hnone⟩
  · rcases registered_cases world registration id with ⟨hworld, hanswer⟩ | ⟨-, hworld, hanswer⟩
    · rw [hworld]
      refine .inl ⟨h, Option.eq_none_iff_forall_not_mem.mpr fun given hgiven => ?_⟩
      obtain ⟨hkey, hok⟩ := answerFor_register hgiven
      rcases hanswer with ⟨error, herror⟩ | ⟨known, hknown, -⟩
      · rw [herror] at hok
        cases hok
      · rw [hkey, Option.bind_some, h] at hknown
        cases hknown
    · rw [hworld, lookup_schedule]
      by_cases hkey : registration.idempotencyKey = some key
      · rw [if_pos hkey]
        exact .inr ⟨id, rfl, fun given hgiven =>
          (Except.ok.inj (hanswer.symm.trans (answerFor_register hgiven).2)).symm⟩
      · rw [if_neg hkey]
        exact .inl ⟨h, Option.eq_none_iff_forall_not_mem.mpr fun given hgiven =>
          absurd (answerFor_register hgiven).1 hkey⟩
  · exact .inl ⟨hsame.trans h, hnone⟩

/-! ## Runs -/

/-- Nothing is evicted, and the key's result is not discarded. -/
def KeepsKey (key : Key) (world : FutureWorld Id Key Owner Result)
    (event : FutureEvent Id Key Owner Result) : Prop :=
  NotCancelled key world event ∧ Retained world event ∧ NotDiscarded key world event

theorem answers_of_known (owner : Owner) (h : world.storage.idempotency.lookup key = some id)
    (hrun : Run (Restrict FutureStep (KeepsKey key)) world events world') :
    ∀ answer ∈ answersFor owner key events, answer = .existing id := by
  have hall := hrun.labels (I := fun w => w.storage.idempotency.lookup key = some id)
    (P := fun e => ∀ answer ∈ e.answerFor owner key, answer = .existing id)
    (fun _ _ _ hknown hstep =>
      existing_of_known owner hknown hstep.1 hstep.2.1 hstep.2.2.1 hstep.2.2.2) h
  intro answer hanswer
  obtain ⟨e, he, hsome⟩ := List.mem_filterMap.mp hanswer
  exact hall e he answer hsome

theorem countP_existing {answers : List (Registered Id)} (h : ∀ a ∈ answers, a = .existing id) :
    answers.countP Registered.isScheduled = 0 := by
  rw [List.countP_eq_zero]
  intro a ha
  rw [h a ha]
  nofun

/-- Without evictions and discards, a key is executed at most once. -/
theorem idempotent_register (owner : Owner) (key : Key)
    (hrun : Run (Restrict FutureStep (KeepsKey key)) world events world') :
    AtMostOnce owner key events := by
  cases hknown : world.storage.idempotency.lookup key with
  | some id =>
    have hall := answers_of_known owner hknown hrun
    refine ⟨fun a ha b hb => by rw [hall a ha, hall b hb], ?_⟩
    rw [countP_existing hall]
    exact Nat.zero_le 1
  | none =>
    induction hrun with
    | nil _ => exact ⟨nofun, Nat.zero_le 1⟩
    | @cons w w' w'' e es hstep hrest ih =>
      have hcons : answersFor owner key (e :: es) =
          (e.answerFor owner key).toList ++ answersFor owner key es := by
        unfold answersFor
        rw [List.filterMap_cons]
        cases e.answerFor owner key <;> rfl
      rcases scheduled_of_unknown owner hknown hstep.1 hstep.2.1 hstep.2.2.1 hstep.2.2.2
        with ⟨hstill, hnone⟩ | ⟨id, hnew, hanswer⟩
      · unfold AtMostOnce
        rw [hcons, hnone]
        exact ih hstill
      · -- this step made the key known, so the later ones only give its future back
        have hall := answers_of_known owner hnew hrest
        unfold AtMostOnce
        rw [hcons]
        cases hfirst : e.answerFor owner key with
        | none =>
          refine ⟨fun a ha b hb => by rw [hall a ha, hall b hb], ?_⟩
          rw [Option.toList_none, List.nil_append, countP_existing hall]
          exact Nat.zero_le 1
        | some given =>
          obtain rfl := hanswer given hfirst
          rw [Option.toList_some]
          have hid : ∀ a ∈ [Registered.scheduled id] ++ answersFor owner key es, a.id = id := by
            intro a ha
            rcases List.mem_cons.mp ha with rfl | ha
            · rfl
            · rw [hall a ha]
              rfl
          refine ⟨fun a ha b hb => (hid a ha).trans (hid b hb).symm, ?_⟩
          rw [List.countP_append, countP_existing hall]
          exact Nat.le_refl 1

/-- A retry after the result was kept. -/
theorem idempotent_register_retry :
    ∃ events : List (FutureEvent Nat Nat Nat Nat),
      answersFor 0 7 events = [.scheduled 1, .existing 1] ∧ AtMostOnce 0 7 events := by
  let w₀ : FutureWorld Nat Nat Nat Nat := .init .infinity .infinity 1
  let w₁ := w₀.registered ⟨some 7, 0, false⟩ 1
  let w₂ := { w₁ with tasks := w₁.tasks.set 1 ⟨false, true⟩ }
  let w₃ := w₂.completed 1 9 false
  let w₄ := w₃.registered ⟨some 7, 0, false⟩ 2
  have hrun : Run (Restrict FutureStep (KeepsKey 7)) w₀ _ w₄ :=
    .cons ⟨.register ⟨some 7, 0, false⟩ 1 (by decide),
      trivial, trivial, trivial⟩
    (.cons ⟨.start 1 rfl, trivial, trivial, trivial⟩
    (.cons ⟨.complete 1 9 rfl, trivial, nofun, fun entry task _ htask _ => by
        obtain rfl : task = ⟨false, true⟩ := (Option.some.inj htask).symm
        rfl⟩
    (.single ⟨.register ⟨some 7, 0, false⟩ 2 (by decide),
      trivial, trivial, trivial⟩)))
  exact ⟨_, rfl, idempotent_register 0 7 hrun⟩

/-- A completion with `discardResult` forgets the key: the retry runs again. -/
theorem idempotent_register_discard :
    ∃ events, ∃ world : FutureWorld Nat Nat Nat Nat,
      Run (Restrict FutureStep fun w e => NotCancelled 7 w e ∧ Retained w e)
        (.init .infinity .infinity 1) events world ∧ ¬AtMostOnce 0 7 events := by
  let w₀ : FutureWorld Nat Nat Nat Nat := .init .infinity .infinity 1
  let w₁ := w₀.registered ⟨some 7, 0, true⟩ 1
  let w₂ := { w₁ with tasks := w₁.tasks.set 1 ⟨true, true⟩ }
  let w₃ := w₂.completed 1 9 true
  let w₄ := w₃.registered ⟨some 7, 0, true⟩ 2
  refine ⟨_, w₄, .cons ⟨.register ⟨some 7, 0, true⟩ 1 (by decide),
      trivial, trivial⟩
    (.cons ⟨.start 1 rfl, trivial, trivial⟩
    (.cons ⟨.complete 1 9 rfl, trivial, nofun⟩
    (.single ⟨.register ⟨some 7, 0, true⟩ 2 (by decide),
      trivial, trivial⟩))), ?_⟩
  intro honce
  exact absurd honce.2 (by decide)

end Bebop.TypeScript.Rpc
