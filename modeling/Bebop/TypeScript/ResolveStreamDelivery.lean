import Bebop.TypeScript.ResolveStreamRuns

/-!
# Bebop — what TypeScript resolve streams deliver

The generator of `handleResolve` yields what is due, and leaves nothing behind. What is
due is in order, read or not (`Ordered`), until its stream is cancelled: by the generator
itself when it ends, or by the listener of an abort. So results are given up where its
consumer ends it while some wait, or the call is aborted while some wait to be read
(`Unhurried`).
-/

set_option linter.unusedSectionVars false

namespace Bebop.TypeScript.Rpc

open Transition
open InMemoryFutureStorage

variable {Id Key Owner Result : Type} [DecidableEq Id] [DecidableEq Key] [DecidableEq Owner]

namespace ResolveWorld

variable {request : ResolveRequest Id Owner} {w : ResolveWorld Id Key Owner Result} {maxPending maxCompleted : Limit}

/-- The results that have been read, or could be, and are not yielded. -/
def toRead (w : ResolveWorld Id Key Owner Result) : List (Id × Result) :=
  (match w.phase with
    | .reading (some (.value result)) => [result]
    | _ => []) ++ w.queue

/-- A step does not end the generator while results wait, nor abort the call while they
wait to be read; and no result comes between an abort and the end. -/
def Unhurried (request : ResolveRequest Id Owner) (w : ResolveWorld Id Key Owner Result) :
    ResolveEvent Id Key Owner Result → Prop
  | .finish => w.waits = []
  | .abort => w.phase.Active → w.toRead = []
  | .storage (.complete id _) => w.aborted → w.phase.Active →
      ∀ entry, w.futures.storage.entries.lookup id = some entry → entry.isPending → ¬request.Matches entry.owner id
  | _ => True

structure Complete (w : ResolveWorld Id Key Owner Result) : Prop where
  all : w.stream ≠ .errored → w.due = w.yielded ++ w.waits
  taken : w.aborted → w.phase.Active → w.toRead = []
  ended : w.phase = .ended → w.queue = []

theorem queue_of_toRead (h : w.toRead = []) : w.queue = [] := (List.append_eq_nil_iff.mp h).2

theorem toRead_answered {phase : ResolvePhase Id Result} (hphase : w.phase = phase) :
    toRead { w with phase := phase.answered .done } = w.toRead := by
  unfold toRead
  rw [hphase]
  cases phase with
  | reading answer => cases answer <;> rfl
  | _ => rfl

theorem Complete.ends (h : w.Complete) (hwaits : w.stream ≠ .errored → w.waits = [])
    {w' : ResolveWorld Id Key Owner Result} (hphase : w'.phase = .ended) (hdue : w'.due = w.due)
    (hyielded : w'.yielded = w.yielded) (hqueue : w'.queue = [])
    (hstream : w'.stream ≠ .errored → w.stream ≠ .errored) : w'.Complete := by
  refine ⟨fun hlive => ?_, fun _ hactive => ?_, fun _ => hqueue⟩
  · have hall := h.all (hstream hlive)
    rw [hwaits (hstream hlive)] at hall
    unfold waits
    rw [hdue, hyielded, hphase, hqueue]
    exact hall
  · rw [hphase] at hactive
    exact absurd hactive id

theorem cancelStream_kept (w : ResolveWorld Id Key Owner Result) :
    w.cancelStream.due = w.due ∧ w.cancelStream.yielded = w.yielded ∧
      (w.cancelStream.stream ≠ .errored → w.stream ≠ .errored) := by
  unfold ResolveWorld.cancelStream
  cases hstream : w.stream with
  | readable | closing => exact ⟨rfl, rfl, fun _ h => (by cases h)⟩
  | cancelled => exact ⟨rfl, rfl, fun _ h => (by cases h)⟩
  | errored => exact ⟨rfl, rfl, fun h => absurd hstream h⟩

theorem Ordered.queue_cancelStream (h : w.Ordered request) : w.cancelStream.queue = [] := by
  refine h.cancelStream.closed ?_
  unfold ResolveWorld.cancelStream
  cases hstream : w.stream with
  | readable | closing => exact .inl rfl
  | cancelled => exact .inl hstream
  | errored => exact .inr hstream

theorem Complete.cancels (h : w.Complete) (hordered : w.Ordered request) (hwaits : w.stream ≠ .errored → w.waits = [])
    (listening : Bool) : Complete { w.cancelStream with listening, phase := .ended } := by
  obtain ⟨hdue, hyielded, hstream⟩ := cancelStream_kept w
  exact h.ends hwaits rfl hdue hyielded hordered.queue_cancelStream hstream

theorem Complete.resolved (h : w.Complete) (hordered : w.Ordered request) (hresolved : w.targetResolved request) :
    w.stream ≠ .errored → w.waits = [] := by
  intro hlive
  have hall := h.all hlive
  cases hwaits : w.waits with
  | nil => rfl
  | cons result rest =>
    rw [hwaits] at hall
    have hnodup := hordered.nodup
    have hasked := hordered.target result.1
    rw [hall, List.map_append] at hnodup hasked
    have hlast : result.1 ∈ (result :: rest).map Prod.fst := List.mem_map_of_mem List.mem_cons_self
    have htarget := hasked (List.mem_append_right _ hlast)
    unfold targetResolved at hresolved
    cases hsome : request.target with
    | none =>
      rw [hsome] at hresolved
      cases hresolved
    | some target =>
      rw [hsome] at hresolved htarget
      have hyielded := of_decide_eq_true hresolved (of_decide_eq_true htarget)
      exact absurd rfl ((List.nodup_append.mp hnodup).2.2 _ (List.mem_toFinset.mp hyielded) _ hlast)

theorem Complete.read (h : w.Complete) (hhand : w.phase.hand = []) (hqueue : w.aborted → w.queue = []) :
    w.read.Complete := by
  have hall := h.all
  unfold waits at hall
  rw [hhand] at hall
  unfold ResolveWorld.read
  cases hnext : w.queue with
  | nil =>
    rw [hnext] at hall
    refine ⟨fun hlive => ?_, fun _ _ => ?_, fun hended => (by cases hended)⟩
    · show w.due = w.yielded ++ ((ResolvePhase.reading w.stream.readEmpty : ResolvePhase Id Result).hand ++ [])
      rw [hand_readEmpty]
      exact hall hlive
    · unfold toRead
      cases w.stream <;> rfl
  | cons result queue =>
    rw [hnext] at hall
    exact ⟨hall, fun haborted => (by cases hnext.symm.trans (hqueue haborted)), fun hended => (by cases hended)⟩

theorem Complete.yields (h : w.Complete) {result : Id × Result} {rest : List (Id × Result)}
    (hhand : w.phase.hand = result :: rest) {phase : ResolvePhase Id Result} (hrest : phase.hand = rest)
    (hactive : phase.Active) (htoRead : w.aborted → toRead { w with phase } = []) :
    Complete { w with yielded := w.yielded ++ [result], phase } := by
  refine ⟨fun hlive => ?_, fun haborted _ => htoRead haborted, fun hended => ?_⟩
  · have hall := h.all hlive
    unfold waits at hall ⊢
    dsimp only
    rw [hall, hhand, hrest, List.append_assoc]
    rfl
  · obtain rfl : phase = .ended := hended
    exact absurd hactive id

theorem Complete.yieldImmediate (h : w.Complete) (hordered : w.Ordered request) {results : List (Id × Result)}
    (hhand : w.phase.hand = results) (hqueue : w.aborted → w.queue = []) :
    (w.yieldImmediate request results).Complete := by
  cases results with
  | cons result rest => exact h.yields hhand rfl trivial hqueue
  | nil =>
    show (w.afterImmediate request).Complete
    unfold ResolveWorld.afterImmediate
    split
    · rename_i hresolved
      exact h.cancels hordered (h.resolved hordered hresolved) _
    · have hlistens : Complete { w with listening := !w.aborted } := ⟨h.all, h.taken, h.ended⟩
      exact hlistens.read hhand hqueue

theorem Complete.afterRead (h : w.Complete) (hordered : w.Ordered request) (hguarded : w.Guarded)
    {answer : ReadAnswer Id Result} (hphase : w.phase = .reading (some answer)) : (w.afterRead answer).Complete := by
  have hplaced := hguarded.placed
  unfold Placed at hplaced
  rw [hphase] at hplaced
  cases answer with
  | failed => exact h.cancels hordered (fun hlive => absurd hplaced.2 hlive) false
  | done =>
    refine h.cancels hordered (fun _ => ?_) false
    unfold waits
    rw [hphase, hplaced.2.1]
    rfl
  | value result =>
    show Complete (if w.aborted then w.finallyBlock else _)
    split
    · -- nothing is read after an abort
      rename_i haborted
      have htoRead := h.taken haborted (by rw [hphase]; trivial)
      unfold toRead at htoRead
      rw [hphase] at htoRead
      cases htoRead
    · rename_i hlive
      exact h.yields (by rw [hphase]; rfl) rfl trivial fun haborted => absurd haborted hlive

theorem Complete.abort (h : w.Complete) (hguarded : w.Guarded)
    (htoRead : w.phase.Active → w.toRead = []) : w.abort.Complete := by
  unfold ResolveWorld.abort
  split
  · rename_i hlistening
    have hactive : w.phase.Active := by
      have hplaced := hguarded.placed
      unfold Placed at hplaced
      cases hphase : w.phase with
      | created | ended =>
        rw [hphase] at hplaced
        cases hlistening.symm.trans hplaced.1
      | subscribing _ | immediate _ | reading _ | yielded => trivial
    have hqueue := queue_of_toRead (htoRead hactive)
    have hwaits {phase : ResolvePhase Id Result} (hphase : phase = w.phase.answered .done) (hlive : w.stream ≠ .errored) :
        w.due = w.yielded ++ (phase.hand ++ []) := by
      have hall := h.all hlive
      unfold waits at hall
      rw [hqueue] at hall
      rw [hphase, hand_answered_done]
      exact hall
    have hnothing : toRead { w with phase := w.phase.answered .done } = [] := (toRead_answered rfl).trans (htoRead hactive)
    have htaken : toRead { w with queue := [], phase := w.phase.answered .done } = [] :=
      (congrArg (fun queue => toRead { w with queue, phase := w.phase.answered .done }) hqueue).symm.trans hnothing
    unfold ResolveWorld.cancelStream
    cases hstream : w.stream with
    | readable | closing => exact ⟨fun _ => hwaits rfl (by rw [hstream]; exact fun h => (by cases h)), fun _ _ => htaken, fun _ => rfl⟩
    | cancelled | errored => exact ⟨h.all, fun _ => htoRead, h.ended⟩
  · exact ⟨h.all, fun _ => htoRead, h.ended⟩

theorem served_skips (hguarded : w.Guarded) (hlisted : w.Listed request)
    (hfutures : w.futures.Invariant maxPending maxCompleted) {id : Id} {entry : FutureEntry Key Owner Result}
    {result : Result} (hentry : w.futures.storage.entries.lookup id = some entry) (hpending : entry.isPending)
    (hskip : ¬(w.phase.Active ∧ request.Matches entry.owner id)) : w.served entry.owner id result = w := by
  by_cases hover : w.ref = none ∨ w.stream ≠ .readable
  · exact hlisted.served_over hover
  · obtain ⟨href, hreadable⟩ := not_or.mp hover
    obtain ⟨ref, href⟩ := Option.ne_none_iff_exists'.mp href
    have hactive := hguarded.active (not_not.mp hreadable) href
    obtain ⟨subscriber, hmem, rfl, howner, hids⟩ := hlisted.subscriber ref href (not_not.mp hreadable)
    have hfound : w.ref.bind (fun ref => w.futures.storage.subscribers.find? (·.ref = ref)) = some subscriber := by
      rw [href]
      exact find_subscriber hfutures hmem
    unfold ResolveWorld.served
    rw [hfound]
    rcases deliver_cases w.futures.storage.subscriberBufferCapacity entry.owner result howner hids
      (hlisted.fresh hentry hpending) with ⟨-, hdeliver⟩ | ⟨hmatches, -⟩
    · dsimp only
      rw [hdeliver]
      rfl
    · exact absurd ⟨hactive, hmatches⟩ hskip

theorem aborted_completes (request : ResolveRequest Id Owner) (w : ResolveWorld Id Key Owner Result) (id : Id) (result : Result) :
    (w.completes request id result).aborted = w.aborted ∧
      ((w.completes request id result).phase.Active ↔ w.phase.Active) := by
  have hserve (subscriber : Option (Subscriber Id Owner Result) × Bool) :
      (w.serve (id, result) subscriber).aborted = w.aborted ∧
        ((w.serve (id, result) subscriber).phase.Active ↔ w.phase.Active) := by
    obtain ⟨-, -, hactive⟩ := ref_enqueue w (id, result)
    have haborted : (w.enqueue (id, result)).aborted = w.aborted := by
      unfold ResolveWorld.enqueue
      split <;> rfl
    rcases subscriber with ⟨_ | subscriber, _ | _⟩
    · exact ⟨rfl, active_answered⟩
    · exact ⟨haborted, active_answered.trans hactive⟩
    · exact ⟨rfl, Iff.rfl⟩
    · exact ⟨haborted, hactive⟩
  have hserved (owner : Owner) : (w.served owner id result).aborted = w.aborted ∧
      ((w.served owner id result).phase.Active ↔ w.phase.Active) := by
    unfold ResolveWorld.served
    split
    · exact ⟨rfl, Iff.rfl⟩
    · exact hserve _
  unfold ResolveWorld.completes
  split
  · exact ⟨rfl, Iff.rfl⟩
  · split
    · exact ⟨rfl, Iff.rfl⟩
    · exact hserved _

theorem Complete.complete (h : w.Complete) (hkept : w.Kept request maxPending maxCompleted)
    {w' : ResolveWorld Id Key Owner Result} (hkept' : w'.Kept request maxPending maxCompleted) {id : Id} {result : Result}
    (hunhurried : Unhurried request w (.storage (.complete id result)))
    (hw : w' = { w.completes request id result with futures := w'.futures }) : w'.Complete := by
  by_cases hmatching : ∃ entry, w.futures.storage.entries.lookup id = some entry ∧ entry.isPending ∧
      w.phase.Active ∧ request.Matches entry.owner id
  · -- it comes to a stream that is there, or is lost to an overflow
    obtain ⟨entry, hentry, hpending, hactive, hmatches⟩ := hmatching
    have hlive : ¬w.aborted := fun haborted => hunhurried haborted hactive entry hentry hpending hmatches
    obtain ⟨haborted, hsame⟩ := aborted_completes request w id result
    have haborted' : w'.aborted = w.aborted := by
      rw [hw]
      exact haborted
    have hactive' : w'.phase.Active := by
      rw [hw]
      exact hsame.mpr hactive
    refine ⟨fun hstream => hkept'.ordered.all hactive' ?_, fun hnow => absurd (haborted' ▸ hnow) hlive, fun hended => ?_⟩
    · cases hcase : w'.stream with
      | readable => exact .inl rfl
      | closing => exact .inr rfl
      | cancelled => exact absurd (haborted' ▸ hkept'.guarded.cancelled hactive' hcase) hlive
      | errored => exact absurd hcase hstream
    · rw [hended] at hactive'
      exact hactive'.elim
  · have hsame : w.completes request id result = w := by
      by_cases hdone : ∃ entry, w.futures.storage.entries.lookup id = some entry ∧ entry.isPending
      · obtain ⟨entry, hentry, hpending⟩ := hdone
        have hskip : ¬(w.phase.Active ∧ request.Matches entry.owner id) := fun hdue =>
          hmatching ⟨entry, hentry, hpending, hdue⟩
        rw [completes_of_pending hentry hpending, if_neg hskip,
          served_skips hkept.guarded hkept.listed hkept.futures hentry hpending hskip]
      · exact completes_again fun entry hentry hpending => hdone ⟨entry, hentry, hpending⟩
    rw [hsame] at hw
    rw [hw]
    exact ⟨h.all, h.taken, h.ended⟩

theorem Complete.step (h : w.Complete) (hkept : w.Kept request maxPending maxCompleted)
    {event : ResolveEvent Id Key Owner Result} {w' : ResolveWorld Id Key Owner Result}
    (hstep : ResolveStep request w event w') (hallowed : Allowed request w event)
    (hunhurried : Unhurried request w event) : w'.Complete := by
  have hkept' := hkept.step hstep hallowed
  have hplaced := hkept.guarded.placed
  unfold Placed at hplaced
  cases hstep with
  | @storage event futures hstep hforeign =>
    cases event with
    | complete id result => exact h.complete hkept hkept' hunhurried rfl
    | register _ _ | start _ | cancel _ _ _ | subscribe _ _ _ | unsubscribe _ | pull _ => exact ⟨h.all, h.taken, h.ended⟩
  | resume hstep =>
    unfold ResolveWorld.resume at hstep
    cases hphase : w.phase with
    | subscribing results =>
      rw [hphase] at hstep
      obtain rfl := Option.some.inj hstep
      exact h.yieldImmediate hkept.ordered (by rw [hphase]; rfl) fun haborted =>
        queue_of_toRead (h.taken haborted (by rw [hphase]; trivial))
    | reading answer =>
      cases answer with
      | none =>
        rw [hphase] at hstep
        cases hstep
      | some answer =>
        rw [hphase] at hstep
        obtain rfl := Option.some.inj hstep
        exact h.afterRead hkept.ordered hkept.guarded hphase
    | created | immediate _ | yielded | ended =>
      rw [hphase] at hstep
      cases hstep
  | next hstep =>
    unfold ResolveWorld.next at hstep
    cases hphase : w.phase with
    | created =>
      rw [hphase] at hstep hplaced
      obtain rfl := Option.some.inj hstep
      refine ⟨fun _ => hkept'.ordered.all trivial ?_, fun _ _ => hplaced.2.1, fun hended => (by cases hended)⟩
      show (if _ then StreamState.closing else .readable) = .readable ∨ (if _ then StreamState.closing else .readable) = .closing
      split
      · exact .inr rfl
      · exact .inl rfl
    | immediate rest =>
      rw [hphase] at hstep
      obtain rfl := Option.some.inj hstep
      exact h.yieldImmediate hkept.ordered (by rw [hphase]; rfl) fun haborted =>
        queue_of_toRead (h.taken haborted (by rw [hphase]; trivial))
    | yielded =>
      rw [hphase] at hstep
      obtain rfl := Option.some.inj hstep
      split
      · rename_i hresolved
        exact h.cancels hkept.ordered (h.resolved hkept.ordered hresolved) false
      · exact h.read (by rw [hphase]; rfl) fun haborted => queue_of_toRead (h.taken haborted (by rw [hphase]; trivial))
    | subscribing _ | reading _ | ended =>
      rw [hphase] at hstep
      cases hstep
  | finish hstep =>
    have hends : Complete { w with phase := .ended } :=
      h.ends (fun _ => hunhurried) rfl rfl rfl (List.append_eq_nil_iff.mp hunhurried).2 fun hlive => hlive
    unfold ResolveWorld.finish at hstep
    cases hphase : w.phase with
    | created | immediate _ =>
      rw [hphase] at hstep
      obtain rfl := Option.some.inj hstep
      exact hends
    | yielded =>
      rw [hphase] at hstep
      obtain rfl := Option.some.inj hstep
      exact h.cancels hkept.ordered (fun _ => hunhurried) false
    | subscribing _ | reading _ | ended =>
      rw [hphase] at hstep
      cases hstep
  | abort => exact h.abort hkept.guarded hunhurried

theorem complete_new (futures : FutureWorld Id Key Owner Result) : (new futures).Complete :=
  ⟨fun _ => rfl, fun _ hactive => absurd hactive id, fun _ => rfl⟩

/-! ## Whole runs -/

/-- What the generator does for its consumer and for the storage. -/
structure Delivers (w : ResolveWorld Id Key Owner Result) : Prop where
  once : (w.yielded.map Prod.fst).Nodup
  every : w.phase = .ended → w.stream ≠ .errored → w.yielded = w.due
  released : w.phase = .ended → ∀ ref, w.ref = some ref →
    ∀ subscriber ∈ w.futures.storage.subscribers, subscriber.ref ≠ ref
  notWaiting : w.aborted → w.phase ≠ .reading none

/-- A step that leaves nothing behind and gives up nothing. -/
def Orderly (request : ResolveRequest Id Owner) (w : ResolveWorld Id Key Owner Result)
    (event : ResolveEvent Id Key Owner Result) : Prop :=
  Allowed request w event ∧ Unhurried request w event

theorem Kept.once (h : w.Kept request maxPending maxCompleted) : (w.yielded.map Prod.fst).Nodup := by
  obtain ⟨rest, hrest⟩ := h.ordered.first
  have hnodup := h.ordered.nodup
  rw [← hrest, List.append_assoc, List.map_append] at hnodup
  exact (List.nodup_append.mp hnodup).1

theorem Kept.released (h : w.Kept request maxPending maxCompleted) (hended : w.phase = .ended) (ref : Nat)
    (href : w.ref = some ref) : ∀ subscriber ∈ w.futures.storage.subscribers, subscriber.ref ≠ ref := by
  have hplaced := h.guarded.placed
  unfold Placed at hplaced
  rw [hended] at hplaced
  rcases hplaced.2 with hnone | hover
  · cases href.symm.trans hnone
  · exact h.listed.released ref href hover

theorem Kept.notWaiting (h : w.Kept request maxPending maxCompleted) (haborted : w.aborted) :
    w.phase ≠ .reading none := by
  intro hphase
  have hplaced := h.guarded.placed
  unfold Placed at hplaced
  rw [hphase] at hplaced
  cases haborted.symm.trans hplaced.2.1

theorem Complete.delivers (h : w.Complete) (hkept : w.Kept request maxPending maxCompleted) : w.Delivers := by
  refine ⟨hkept.once, fun hended hlive => ?_, hkept.released, hkept.notWaiting⟩
  have hall := h.all hlive
  unfold waits at hall
  rw [hended, h.ended hended] at hall
  exact (hall.trans (List.append_nil _)).symm

theorem Kept.run {capacity : Nat} {events : List (ResolveEvent Id Key Owner Result)}
    (hrun : Run (Restrict (ResolveStep request) (Allowed request)) (new (.init maxPending maxCompleted capacity)) events w) :
    w.Kept request maxPending maxCompleted :=
  hrun.invariant (fun _ _ _ hkept hstep => hkept.step hstep.1 hstep.2) (kept_new request maxPending maxCompleted capacity)

theorem Complete.run {capacity : Nat} {events : List (ResolveEvent Id Key Owner Result)}
    (hrun : Run (Restrict (ResolveStep request) (Orderly request)) (new (.init maxPending maxCompleted capacity)) events w) :
    w.Kept request maxPending maxCompleted ∧ w.Complete :=
  hrun.invariant (I := fun w => w.Kept request maxPending maxCompleted ∧ w.Complete)
    (fun _ _ _ h hstep => ⟨h.1.step hstep.1 hstep.2.1, h.2.step h.1 hstep.1 hstep.2.1 hstep.2.2⟩)
    ⟨kept_new request maxPending maxCompleted capacity, complete_new _⟩

end ResolveWorld

open ResolveWorld

theorem resolve_stream_released {request : ResolveRequest Id Owner} {maxPending maxCompleted : Limit} {capacity : Nat}
    {events : List (ResolveEvent Id Key Owner Result)} {w : ResolveWorld Id Key Owner Result}
    (hrun : Run (Restrict (ResolveStep request) (Allowed request)) (ResolveWorld.new (.init maxPending maxCompleted capacity)) events w) :
    (w.yielded.map Prod.fst).Nodup ∧
      (w.phase = .ended → ∀ ref, w.ref = some ref → ∀ subscriber ∈ w.futures.storage.subscribers, subscriber.ref ≠ ref) ∧
      (w.aborted → w.phase ≠ .reading none) :=
  have hkept := Kept.run hrun
  ⟨hkept.once, hkept.released, hkept.notWaiting⟩

/-- And one that is not ended while results wait, nor aborted while they wait to be read,
yields every result. -/
theorem resolve_stream_delivers {request : ResolveRequest Id Owner} {maxPending maxCompleted : Limit} {capacity : Nat}
    {events : List (ResolveEvent Id Key Owner Result)} {w : ResolveWorld Id Key Owner Result}
    (hrun : Run (Restrict (ResolveStep request) (Orderly request)) (ResolveWorld.new (.init maxPending maxCompleted capacity)) events w) :
    w.Delivers :=
  have h := Complete.run hrun
  h.2.delivers h.1

/-- The caller asks for a future that is completed, and takes its result. -/
theorem resolve_stream_delivers_one :
    ∃ (events : List (ResolveEvent Nat Nat Nat Nat)) (w : ResolveWorld Nat Nat Nat Nat),
      Run (Restrict (ResolveStep ⟨some [1], 0⟩) (Orderly ⟨some [1], 0⟩)) (ResolveWorld.new (.init .infinity .infinity 4)) events w ∧
        w.phase = .ended ∧ w.yielded = [(1, 9)] ∧ w.Delivers := by
  let request : ResolveRequest Nat Nat := ⟨some [1], 0⟩
  let w₀ : ResolveWorld Nat Nat Nat Nat := ResolveWorld.new (.init .infinity .infinity 4)
  let w₁ := { w₀ with futures := w₀.futures.registered ⟨none, 0, false⟩ 1 }
  let w₂ := { w₁ with futures := { w₁.futures with tasks := w₁.futures.tasks.set 1 ⟨false, true⟩ } }
  let w₃ := { w₂ with futures := w₂.futures.completed 1 9 false }
  let w₄ := w₃.subscribe request
  let w₅ := w₄.yieldImmediate request [(1, 9)]
  have hrun : Run (Restrict (ResolveStep request) (Orderly request)) w₀ _ (w₅.yieldImmediate request []) :=
    .cons ⟨.storage (.register ⟨none, 0, false⟩ 1 (by decide)) trivial, trivial, trivial⟩
    (.cons ⟨.storage (.start 1 rfl) trivial, trivial, trivial⟩
    (.cons ⟨.storage (.complete 1 9 rfl) trivial, trivial, fun haborted => (by cases haborted)⟩
    (.cons ⟨.next rfl, fun _ _ haborted => (by cases haborted), trivial⟩
    (.cons ⟨.resume rfl, fun _ _ haborted => (by cases haborted), trivial⟩
    (.single ⟨.next rfl, fun _ _ haborted => (by cases haborted), trivial⟩)))))
  exact ⟨_, _, hrun, rfl, rfl, resolve_stream_delivers hrun⟩

/-- The consumer returns early: the storage keeps its subscriber. -/
theorem resolve_stream_leaks : ¬∀ (request : ResolveRequest Nat Nat) (events : List (ResolveEvent Nat Nat Nat Nat))
    (w : ResolveWorld Nat Nat Nat Nat),
      Run (ResolveStep request) (ResolveWorld.new (.init .infinity .infinity 4)) events w → w.Delivers := by
  intro hall
  let request : ResolveRequest Nat Nat := ⟨none, 0⟩
  let w₀ : ResolveWorld Nat Nat Nat Nat := ResolveWorld.new (.init .infinity .infinity 4)
  let w₁ := { w₀ with futures := w₀.futures.registered ⟨none, 0, false⟩ 1 }
  let w₂ := { w₁ with futures := { w₁.futures with tasks := w₁.futures.tasks.set 1 ⟨false, true⟩ } }
  let w₃ := { w₂ with futures := w₂.futures.completed 1 9 false }
  let w₄ := w₃.subscribe request
  let w₅ := w₄.yieldImmediate request [(1, 9)]
  have hrun : Run (ResolveStep request) w₀ _ { w₅ with phase := .ended } :=
    .cons (.storage (.register ⟨none, 0, false⟩ 1 (by decide)) trivial)
    (.cons (.storage (.start 1 rfl) trivial)
    (.cons (.storage (.complete 1 9 rfl) trivial)
    (.cons (.next rfl)
    (.cons (.resume rfl)
    (.single (.finish rfl))))))
  exact (hall request _ _ hrun).released rfl 0 rfl _ List.mem_cons_self rfl

end Bebop.TypeScript.Rpc
