import Bebop.TypeScript.BatchOrder

/-!
# Bebop — runs of a batch in TypeScript

Whatever the order in which the handlers of a batch finish, its response is what the calls
evaluate to, in the order of the request (`handleBatch_confluent`). A run does not get
stuck: the first call that is not settled can go on (`batch_progress`).
-/

namespace Bebop.TypeScript.Rpc

open Bebop.Rpc
open Transition

variable {Text Payload : Type} [DecidableEq Text]

/-- What a call evaluates to with the handlers of the router. -/
abbrev BatchRouter.Evaluates (router : BatchRouter Text Payload) (requested : List (BatchCall Payload))
    (batchMetadata : Metadata Text) : BatchCall Payload → BatchOutcome Text Payload → Prop :=
  Bebop.Rpc.Evaluates router.invoke "produced no payload" requested batchMetadata

def PendingOk (router : BatchRouter Text Payload) (requested : List (BatchCall Payload))
    (batchMetadata : Metadata Text) (call : BatchCall Payload) : Pending Text Payload → Prop
  | .awaiting awaiting => awaiting = call ∧ 0 ≤ call.inputFrom
  | .invoking invoking payload metadata => invoking = call ∧
      router.Evaluates requested batchMetadata call (router.invoke call.methodId payload metadata)
  | .settled outcome => router.Evaluates requested batchMetadata call outcome

/-- The calls of `order` have promises, which stand for what they evaluate to. -/
structure BatchSound (router : BatchRouter Text Payload) (requested : List (BatchCall Payload))
    (batchMetadata : Metadata Text) (order : List Int32) (results : BatchWorld Text Payload) : Prop where
  begun : ∀ id, id ∈ results ↔ id ∈ order
  ok : ∀ id call pending, (callMap requested).lookup id = some call →
    results.lookup id = some pending → PendingOk router requested batchMetadata call pending

/-- How much is left to do: an awaiting promise has two steps to go. -/
def Pending.isOpen : Pending Text Payload → Bool
  | .settled _ => false
  | _ => true

def Pending.isAwaiting : Pending Text Payload → Bool
  | .awaiting _ => true
  | _ => false

def stepsLeft (results : BatchWorld Text Payload) : Nat :=
  results.countP Pending.isOpen + results.countP Pending.isAwaiting

variable {router : BatchRouter Text Payload} {requested : List (BatchCall Payload)}
  {batchMetadata : Metadata Text} {order : List Int32} {results results' : BatchWorld Text Payload}
  {call : BatchCall Payload} {id : Int32} {event : BatchEvent}

/-! ## The start -/

theorem pendingOk_beginCall
    (hdependency : 0 ≤ call.inputFrom → call.inputFrom ∈ results) :
    PendingOk router requested batchMetadata call (beginCall batchMetadata results call) := by
  unfold beginCall
  split
  · rename_i hdepends
    obtain ⟨pending, hpending⟩ := OrderedMap.mem_iff.mp (hdependency hdepends)
    rw [hpending]
    exact ⟨rfl, hdepends⟩
  · rename_i hown
    exact ⟨rfl, .own hown⟩

theorem batchSound_set (h : BatchSound router requested batchMetadata order results)
    {pending : Pending Text Payload}
    (hcall : (callMap requested).lookup id = some call)
    (hok : PendingOk router requested batchMetadata call pending) {order' : List Int32}
    (horder : ∀ id', id' ∈ order' ↔ id' = id ∨ id' ∈ order) :
    BatchSound router requested batchMetadata order' (results.set id pending) := by
  refine ⟨fun id' => ?_, fun id' call' pending' hcall' hpending' => ?_⟩
  · rw [horder, ← h.begun, OrderedMap.mem_iff, OrderedMap.mem_iff, OrderedMap.lookup_set]
    split
    · rename_i hsame
      exact ⟨fun _ => .inl hsame, fun _ => ⟨_, rfl⟩⟩
    · rename_i hne
      exact ⟨.inr, fun hor => hor.resolve_left hne⟩
  · rw [OrderedMap.lookup_set] at hpending'
    split at hpending'
    · rename_i hsame
      subst hsame
      obtain rfl := Option.some.inj hpending'
      obtain rfl := Option.some.inj (hcall.symm.trans hcall')
      exact hok
    · exact h.ok id' call' pending' hcall' hpending'

theorem startBatch_sound (rest : List Int32)
    (h : BatchSound router requested batchMetadata order results)
    (hordered : Ordered (callMap requested) (order ++ rest)) :
    ∃ world, startBatch (callMap requested) batchMetadata rest results = .ok world ∧
      BatchSound router requested batchMetadata (order ++ rest) world := by
  induction rest generalizing order results with
  | nil => exact ⟨results, rfl, by rwa [List.append_nil]⟩
  | cons id rest ih =>
    rw [← List.singleton_append, ← List.append_assoc] at hordered
    obtain ⟨-, -, call, hlookup, hdependency⟩ := hordered.of_append.of_snoc
    have hok : PendingOk router requested batchMetadata call (beginCall batchMetadata results call) :=
      pendingOk_beginCall fun hdepends => (h.begun _).mpr (hdependency hdepends)
    obtain ⟨world, hworld, hsound⟩ := ih (batchSound_set h hlookup hok fun id' => by
      rw [List.mem_append, List.mem_singleton, or_comm]) hordered
    refine ⟨world, ?_, ?_⟩
    · rw [startBatch, hlookup]
      exact hworld
    · rwa [List.append_assoc, List.singleton_append] at hsound

/-! ## Steps -/

theorem BatchSound.call_of (h : BatchSound router requested batchMetadata order results)
    (hordered : Ordered (callMap requested) order) {pending : Pending Text Payload}
    (hpending : results.lookup id = some pending) :
    ∃ call, (callMap requested).lookup id = some call ∧
      PendingOk router requested batchMetadata call pending := by
  have hid : id ∈ order := (h.begun id).mp (OrderedMap.mem_iff.mpr ⟨pending, hpending⟩)
  obtain ⟨call, hcall⟩ := OrderedMap.mem_iff.mp (hordered.mem_calls id hid)
  exact ⟨call, hcall, h.ok id call pending hcall hpending⟩

theorem pendingOk_resumeCall (hdistinct : (requested.map BatchCall.callId).Nodup)
    (hdepends : 0 ≤ call.inputFrom) {dependency : BatchCall Payload}
    {outcome : BatchOutcome Text Payload}
    (hdependency : (callMap requested).lookup call.inputFrom = some dependency)
    (houtcome : router.Evaluates requested batchMetadata dependency outcome) :
    PendingOk router requested batchMetadata call (resumeCall batchMetadata call outcome) := by
  obtain ⟨hmem, hnames⟩ := (lookup_callMap hdistinct).mp hdependency
  have heval := Evaluates.of_upstream hdepends hmem hnames houtcome
  unfold resumeCall
  cases hup : upstream "produced no payload" call.inputFrom outcome with
  | error error =>
    rw [hup] at heval
    exact heval
  | ok found =>
    rw [hup] at heval
    exact ⟨rfl, heval⟩

omit [DecidableEq Text] in
theorem stepsLeft_set {before after : Pending Text Payload} (h : results.lookup id = some before)
    (hless : after.isOpen.toNat + after.isAwaiting.toNat <
      before.isOpen.toNat + before.isAwaiting.toNat) :
    stepsLeft (results.set id after) < stepsLeft results := by
  unfold stepsLeft
  rw [OrderedMap.countP_set, OrderedMap.countP_set, OrderedMap.countP_of_lookup _ h,
    OrderedMap.countP_of_lookup Pending.isAwaiting h]
  omega

theorem batch_step (hdistinct : (requested.map BatchCall.callId).Nodup)
    (hordered : Ordered (callMap requested) order)
    (h : BatchSound router requested batchMetadata order results)
    (hstep : BatchStep router batchMetadata results event results') :
    BatchSound router requested batchMetadata order results' ∧
      stepsLeft results' < stepsLeft results := by
  have hsame {callId : Int32} (hin : callId ∈ results) :
      ∀ id', id' ∈ order ↔ id' = callId ∨ id' ∈ order := by
    intro id'
    refine ⟨.inr, fun hor => hor.elim (fun heq => ?_) fun hmem => hmem⟩
    rw [heq]
    exact (h.begun callId).mp hin
  cases hstep with
  | @resume call outcome callId hawaiting hsettled =>
    obtain ⟨call', hcall, rfl, hdepends⟩ := h.call_of hordered hawaiting
    obtain ⟨dependency, hdependency, houtcome⟩ := h.call_of hordered hsettled
    refine ⟨batchSound_set h hcall (pendingOk_resumeCall hdistinct hdepends hdependency houtcome)
      (hsame (OrderedMap.mem_iff.mpr ⟨_, hawaiting⟩)), stepsLeft_set hawaiting ?_⟩
    unfold resumeCall
    cases upstream "produced no payload" call.inputFrom outcome with
    | error error => exact Nat.zero_lt_two
    | ok found => exact Nat.one_lt_two
  | @finish call payload metadata callId hinvoking =>
    obtain ⟨call', hcall, rfl, heval⟩ := h.call_of hordered hinvoking
    have hok : PendingOk router requested batchMetadata call
        (.settled (router.invoke call.methodId payload metadata)) := heval
    exact ⟨batchSound_set h hcall hok (hsame (OrderedMap.mem_iff.mpr ⟨_, hinvoking⟩)),
      stepsLeft_set hinvoking Nat.zero_lt_one⟩

theorem batch_progress (h : BatchSound router requested batchMetadata order results)
    {stretch : List Int32} (hstretch : Ordered (callMap requested) stretch)
    (hsub : ∀ id ∈ stretch, id ∈ order) :
    (∀ id ∈ stretch, ∃ outcome, results.lookup id = some (.settled outcome)) ∨
      ∃ event results', BatchStep router batchMetadata results event results' := by
  induction hstretch with
  | nil => exact .inl nofun
  | @snoc earlier last call _ _ hlookup hdependency ih =>
    rcases ih fun id hid => hsub id (List.mem_append_left _ hid) with hsettled | hstep
    · have hlast : last ∈ order := hsub last (List.mem_append_right _ (List.mem_singleton_self last))
      obtain ⟨pending, hpending⟩ := OrderedMap.mem_iff.mp ((h.begun last).mpr hlast)
      have hok := h.ok last call pending hlookup hpending
      cases pending with
      | awaiting awaiting =>
        -- what it awaits is in the earlier part, which is settled
        obtain ⟨rfl, hdepends⟩ := hok
        obtain ⟨outcome, houtcome⟩ := hsettled _ (hdependency hdepends)
        exact .inr ⟨_, _, .resume last hpending houtcome⟩
      | invoking invoking payload metadata => exact .inr ⟨_, _, .finish last hpending⟩
      | settled outcome =>
        refine .inl fun id hid => ?_
        rcases List.mem_append.mp hid with hearlier | hid
        · exact hsettled id hearlier
        · rw [List.mem_singleton.mp hid]
          exact ⟨outcome, hpending⟩
    · exact .inr hstep

/-! ## The response -/

theorem batchResponse_evaluates (hdistinct : (requested.map BatchCall.callId).Nodup)
    (h : BatchSound router requested batchMetadata order results)
    (hall : ∀ call ∈ requested, call.callId ∈ order) {calls : List (BatchCall Payload)}
    (hsub : ∀ call ∈ calls, call ∈ requested) :
    ∃ pending, pendingResults results calls = .ok pending ∧
      ((∀ call ∈ calls, ∃ outcome, results.lookup call.callId = some (.settled outcome)) →
        (awaitAll pending).isSome) ∧
      ∀ answers, awaitAll pending = some answers → List.Forall₂ (fun call answer =>
        answer.callId = call.callId ∧ ∀ outcome,
          router.Evaluates requested batchMetadata call outcome ↔ outcome = answer.outcome)
          calls answers := by
  induction calls with
  | nil =>
    refine ⟨[], rfl, fun _ => rfl, fun answers hanswers => ?_⟩
    obtain rfl := Option.some.inj hanswers
    exact .nil
  | cons call calls ih =>
    have hmem := hsub call List.mem_cons_self
    obtain ⟨pending, hpending, hsettled, hanswers⟩ :=
      ih fun call' hcall' => hsub call' (List.mem_cons_of_mem _ hcall')
    obtain ⟨first, hfirst⟩ := OrderedMap.mem_iff.mp ((h.begun call.callId).mpr (hall call hmem))
    have hok := h.ok call.callId call first ((lookup_callMap hdistinct).mpr ⟨hmem, rfl⟩) hfirst
    refine ⟨(call.callId, first) :: pending, ?_, fun hdone => ?_, fun answers hsome => ?_⟩
    · rw [pendingResults, hfirst]
      dsimp only
      rw [hpending]
      rfl
    · obtain ⟨outcome, houtcome⟩ := hdone call List.mem_cons_self
      obtain rfl := Option.some.inj (hfirst.symm.trans houtcome)
      rw [awaitAll, Option.isSome_map]
      exact hsettled fun call' hcall' => hdone call' (List.mem_cons_of_mem _ hcall')
    · cases first with
      | awaiting _ => cases hsome
      | invoking _ _ _ => cases hsome
      | settled outcome =>
        rw [awaitAll] at hsome
        obtain ⟨rest, hrest, rfl⟩ := Option.map_eq_some_iff.mp hsome
        exact .cons ⟨rfl, fun _ => hok.eq_iff hdistinct⟩ (hanswers rest hrest)

theorem handleBatch_confluent {request : BatchRequest Text Payload}
    {calls : OrderedMap Int32 (BatchCall Payload)}
    (hvalid : validateBatch router request = some (.ok (calls, order))) (parentMetadata : Metadata Text) :
    ∃ world, handleBatch router parentMetadata request = some (.ok world) ∧
      Confluent (BatchStep router (mergeMetadata parentMetadata request.metadata))
        (batchResponse request)
        (router.Evaluates request.calls (mergeMetadata parentMetadata request.metadata))
        request.calls world := by
  have hsize : request.calls.length ≤ router.maxBatchSize := by
    by_contra hlarge
    rw [validateBatch, if_pos (Nat.not_le.mp hlarge)] at hvalid
    cases hvalid
  generalize hmetadata : mergeMetadata parentMetadata request.metadata = batchMetadata
  rcases validateBatch_cases router request hsize with
    ⟨hdistinct, -, -, order', hcall, hordered, hall⟩ | ⟨-, error, hcall⟩
  · obtain ⟨rfl, rfl⟩ := Prod.mk.inj (Except.ok.inj (Option.some.inj (hvalid.symm.trans hcall)))
    have hcalls : ∀ call ∈ request.calls, call.callId ∈ order := fun call hmem =>
      hall _ (mem_callMap.mpr (List.mem_map_of_mem hmem))
    have hnone : BatchSound router request.calls batchMetadata [] ∅ :=
      ⟨fun _ => ⟨nofun, nofun⟩, fun _ _ _ _ h => nomatch h⟩
    obtain ⟨world, hworld, hsound⟩ := startBatch_sound order hnone hordered
    rw [List.nil_append] at hsound
    refine ⟨world, ?_, ?_, ?_⟩
    · rw [handleBatch, hvalid, hmetadata]
      exact congrArg some hworld
    · refine Inevitable.of_measure
        (I := BatchSound router request.calls batchMetadata order) stepsLeft
        (fun _ _ _ h hstep => batch_step hdistinct hordered h hstep) (fun results h hopen => ?_) hsound
      refine (batch_progress h hordered fun _ hid => hid).resolve_left fun hsettled => hopen ?_
      obtain ⟨pending, hpending, hsome, -⟩ :=
        batchResponse_evaluates hdistinct h hcalls fun _ hmem => hmem
      rw [batchResponse, hpending]
      dsimp only
      rw [Option.isSome_map]
      exact hsome fun call hmem => hsettled _ (hcalls call hmem)
    · rintro results ⟨events, hrun⟩ answer hanswer
      have h := hrun.invariant (I := BatchSound router request.calls batchMetadata order)
        (fun _ _ _ h hstep => (batch_step hdistinct hordered h hstep).1) hsound
      obtain ⟨pending, hpending, -, hevaluates⟩ :=
        batchResponse_evaluates hdistinct h hcalls fun _ hmem => hmem
      rw [batchResponse, hpending] at hanswer
      obtain ⟨answers, hanswers, rfl⟩ := Option.map_eq_some_iff.mp hanswer
      exact ⟨answers, rfl, hevaluates answers hanswers⟩
  · cases hvalid.symm.trans hcall

end Bebop.TypeScript.Rpc
