import Bebop.TypeScript.ResolveStorage

/-!
# Bebop — runs of TypeScript resolve streams

What the generator of `handleResolve` keeps: its results go one way (`Ordered`), where it is
suspended says what a read waits for (`Guarded`), and a readable stream has a subscriber
(`Listed`). Two things break this (`Allowed`): an end at the `yield` of an immediate result,
which is outside the `try`, and an abort before the listener is registered.
-/

set_option linter.unusedSectionVars false

namespace Bebop.TypeScript.Rpc

open Transition
open InMemoryFutureStorage

variable {Id Key Owner Result : Type} [DecidableEq Id] [DecidableEq Key] [DecidableEq Owner]

def ResolvePhase.hand : ResolvePhase Id Result → List (Id × Result)
  | .subscribing results => results
  | .immediate rest => rest
  | .reading (some (.value result)) => [result]
  | _ => []

namespace ResolveWorld

variable {request : ResolveRequest Id Owner} {w : ResolveWorld Id Key Owner Result}

variable (w) in
def waits : List (Id × Result) := w.phase.hand ++ w.queue

/-! ## The order of the results -/

/-- Results are yielded once, in order, and none is lost from the stream. -/
structure Ordered (request : ResolveRequest Id Owner) (w : ResolveWorld Id Key Owner Result) : Prop where
  nodup : (w.due.map Prod.fst).Nodup
  target : ∀ id ∈ w.due.map Prod.fst, request.target.all (id ∈ ·)
  first : w.yielded ++ w.phase.hand <+: w.due
  all : w.phase.Active → w.stream = .readable ∨ w.stream = .closing → w.due = w.yielded ++ w.waits
  closed : w.stream = .cancelled ∨ w.stream = .errored → w.queue = []
  /-- the storage closes the stream when it has handed out all that was asked for -/
  closing : w.stream = .closing → ∃ target, request.target = some target ∧ ∀ id ∈ target, id ∈ w.due.map Prod.fst

theorem Ordered.congr {w' : ResolveWorld Id Key Owner Result} (h : w.Ordered request) (hdue : w'.due = w.due)
    (hyielded : w'.yielded = w.yielded) (hstream : w'.stream = w.stream) (hqueue : w'.queue = w.queue)
    (hhand : w'.phase.hand <+: w.phase.hand)
    (hall : w'.phase.Active → w'.phase.hand = w.phase.hand ∧ w.phase.Active) : w'.Ordered request := by
  refine ⟨hdue ▸ h.nodup, hdue ▸ h.target, ?_, ?_, ?_, ?_⟩
  · rw [hyielded, hdue]
    exact ((List.prefix_append_right_inj _).mpr hhand).trans h.first
  · intro hactive hopen
    obtain ⟨hsame, hactive⟩ := hall hactive
    rw [hstream] at hopen
    unfold waits
    rw [hdue, hyielded, hsame, hqueue]
    exact h.all hactive hopen
  · rw [hstream, hqueue]
    exact h.closed
  · rw [hstream, hdue]
    exact h.closing

theorem Ordered.stop (h : w.Ordered request) {stream : StreamState} (hstream : stream = .cancelled ∨ stream = .errored)
    {phase : ResolvePhase Id Result} (hhand : phase.hand <+: w.phase.hand) {w' : ResolveWorld Id Key Owner Result}
    (hw : w' = { w with stream, queue := [], phase, futures := w'.futures, aborted := w'.aborted, listening := w'.listening }) :
    w'.Ordered request := by
  rw [hw]
  refine ⟨h.nodup, h.target, ((List.prefix_append_right_inj _).mpr hhand).trans h.first, ?_, fun _ => rfl, ?_⟩
  · rintro - (hopen | hopen)
    · rcases hstream with rfl | rfl <;> cases hopen
    · rcases hstream with rfl | rfl <;> cases hopen
  · intro hclosing
    rcases hstream with rfl | rfl <;> cases hclosing

theorem hand_answered_done (phase : ResolvePhase Id Result) : (phase.answered .done).hand = phase.hand := by
  cases phase with
  | reading answer => cases answer <;> rfl
  | _ => rfl

theorem hand_answered_failed (phase : ResolvePhase Id Result) : (phase.answered .failed).hand = phase.hand := by
  cases phase with
  | reading answer => cases answer <;> rfl
  | _ => rfl

theorem active_answered {phase : ResolvePhase Id Result} {answer : ReadAnswer Id Result} :
    (phase.answered answer).Active ↔ phase.Active := by
  cases phase with
  | reading current => cases current <;> exact Iff.rfl
  | created | subscribing _ | immediate _ | yielded | ended => exact Iff.rfl

theorem Ordered.cancelStream (h : w.Ordered request) : w.cancelStream.Ordered request := by
  unfold ResolveWorld.cancelStream
  have hhand : (w.phase.answered .done).hand <+: w.phase.hand := by
    rw [hand_answered_done]
  cases hstream : w.stream with
  | cancelled => exact h
  | errored => exact h
  | readable => exact h.stop (.inl rfl) hhand rfl
  | closing => exact h.stop (.inl rfl) hhand rfl

theorem Ordered.error (h : w.Ordered request) : w.error.Ordered request := by
  have hhand : (w.phase.answered .failed).hand <+: w.phase.hand := by
    rw [hand_answered_failed]
  exact h.stop (.inr rfl) hhand rfl

theorem Ordered.ended (h : w.Ordered request) {listening : Bool} :
    Ordered request { w with listening, phase := .ended } :=
  h.congr rfl rfl rfl rfl List.nil_prefix fun hactive => absurd hactive id

theorem Ordered.finallyBlock (h : w.Ordered request) : w.finallyBlock.Ordered request := h.cancelStream.ended

theorem Ordered.yields (h : w.Ordered request) {result : Id × Result} {rest : List (Id × Result)}
    (hhand : w.phase.hand = result :: rest) (hactive : w.phase.Active) {phase : ResolvePhase Id Result}
    (hrest : phase.hand = rest) : Ordered request { w with yielded := w.yielded ++ [result], phase } := by
  have hmove : w.yielded ++ [result] ++ phase.hand = w.yielded ++ w.phase.hand := by
    rw [hrest, hhand, List.append_assoc, List.singleton_append]
  refine ⟨h.nodup, h.target, ?_, fun _ hopen => ?_, h.closed, h.closing⟩
  · have hfirst := h.first
    rw [← hmove] at hfirst
    exact hfirst
  · have hall := h.all hactive hopen
    unfold waits at hall ⊢
    rw [← List.append_assoc, ← hmove, List.append_assoc] at hall
    exact hall

theorem hand_readEmpty (stream : StreamState) :
    (ResolvePhase.reading stream.readEmpty : ResolvePhase Id Result).hand = [] := by
  cases stream <;> rfl

theorem Ordered.read (h : w.Ordered request) (hhand : w.phase.hand = []) (hactive : w.phase.Active) :
    w.read.Ordered request := by
  unfold ResolveWorld.read
  cases hqueue : w.queue with
  | nil =>
    have hsame : (ResolvePhase.reading w.stream.readEmpty : ResolvePhase Id Result).hand = w.phase.hand :=
      (hand_readEmpty w.stream).trans hhand.symm
    exact h.congr rfl rfl rfl hqueue.symm ⟨[], (List.append_nil _).trans hsame⟩ fun _ => ⟨hsame, hactive⟩
  | cons result queue =>
    have hopen : w.stream = .readable ∨ w.stream = .closing := by
      cases hstream : w.stream with
      | readable => exact .inl rfl
      | closing => exact .inr rfl
      | cancelled => cases hqueue.symm.trans (h.closed (.inl hstream))
      | errored => cases hqueue.symm.trans (h.closed (.inr hstream))
    have hall : w.due = w.yielded ++ ([result] ++ queue) := by
      have hbefore := h.all hactive hopen
      unfold waits at hbefore
      rw [hhand, hqueue] at hbefore
      exact hbefore
    refine ⟨h.nodup, h.target, ?_, fun _ _ => hall, fun hover => ?_, h.closing⟩
    · rw [hall, ← List.append_assoc]
      exact List.prefix_append _ _
    · cases hqueue.symm.trans (h.closed hover)

theorem Ordered.afterImmediate (h : w.Ordered request) (hhand : w.phase.hand = []) (hactive : w.phase.Active) :
    (w.afterImmediate request).Ordered request := by
  unfold ResolveWorld.afterImmediate
  split
  · exact h.cancelStream.ended
  · have hlistens : Ordered request { w with listening := !w.aborted } :=
      h.congr rfl rfl rfl rfl List.prefix_rfl fun hactive => ⟨rfl, hactive⟩
    exact hlistens.read hhand hactive

theorem Ordered.yieldImmediate (h : w.Ordered request) {results : List (Id × Result)} (hhand : w.phase.hand = results)
    (hactive : w.phase.Active) : (w.yieldImmediate request results).Ordered request := by
  cases results with
  | nil => exact h.afterImmediate hhand hactive
  | cons result rest => exact h.yields hhand hactive rfl

theorem Ordered.afterRead (h : w.Ordered request) {answer : ReadAnswer Id Result}
    (hphase : w.phase = .reading (some answer)) :
    (w.afterRead answer).Ordered request := by
  cases answer with
  | failed => exact h.finallyBlock
  | done => exact h.finallyBlock
  | value result =>
    show Ordered request (if w.aborted then w.finallyBlock else _)
    split
    · exact h.finallyBlock
    · exact h.yields (by rw [hphase]; rfl) (by rw [hphase]; trivial) rfl

theorem Ordered.abort (h : w.Ordered request) : w.abort.Ordered request := by
  unfold ResolveWorld.abort
  split
  · exact h.cancelStream.congr rfl rfl rfl rfl List.prefix_rfl fun hactive => ⟨rfl, hactive⟩
  · exact h.congr rfl rfl rfl rfl List.prefix_rfl fun hactive => ⟨rfl, hactive⟩

theorem enqueue_of_reading (hphase : w.phase = .reading none) (result : Id × Result) :
    w.enqueue result = { w with phase := .reading (some (.value result)) } := by
  unfold ResolveWorld.enqueue
  rw [hphase]

theorem enqueue_of_not (hphase : w.phase ≠ .reading none) (result : Id × Result) :
    w.enqueue result = { w with queue := w.queue ++ [result] } := by
  unfold ResolveWorld.enqueue
  split
  · rename_i hreading
    exact absurd hreading hphase
  · rfl

theorem Ordered.concat (h : w.Ordered request) {result : Id × Result} (hnew : result.1 ∉ w.due.map Prod.fst)
    (htarget : request.target.all (result.1 ∈ ·)) :
    ((w.due ++ [result]).map Prod.fst).Nodup ∧
      ∀ id ∈ (w.due ++ [result]).map Prod.fst, request.target.all (id ∈ ·) := by
  rw [List.map_append, List.map_singleton]
  constructor
  · exact List.nodup_append.mpr ⟨h.nodup, List.nodup_singleton _, fun a ha b hb hab =>
      hnew (List.mem_singleton.mp hb ▸ hab ▸ ha)⟩
  · intro id hid
    rcases List.mem_append.mp hid with hold | hlast
    · exact h.target id hold
    · rw [List.mem_singleton.mp hlast]
      exact htarget

theorem Ordered.lose (h : w.Ordered request) {result : Id × Result} (hnew : result.1 ∉ w.due.map Prod.fst)
    (htarget : request.target.all (result.1 ∈ ·)) (hover : w.stream ≠ .readable)
    (futures : FutureWorld Id Key Owner Result) : Ordered request { w with futures, due := w.due ++ [result] } := by
  obtain ⟨hnodup, htargets⟩ := h.concat hnew htarget
  refine ⟨hnodup, htargets, h.first.trans (List.prefix_append _ _), fun _ hopen => ?_, h.closed, fun hclosing => ?_⟩
  · obtain ⟨target, hsome, hall⟩ := h.closing (hopen.resolve_left hover)
    rw [hsome] at htarget
    exact absurd (hall result.1 (of_decide_eq_true htarget)) hnew
  · obtain ⟨target, hsome, hall⟩ := h.closing hclosing
    refine ⟨target, hsome, fun id hid => ?_⟩
    rw [List.map_append]
    exact List.mem_append_left _ (hall id hid)

theorem Ordered.enqueue (h : w.Ordered request) {result : Id × Result} (hnew : result.1 ∉ w.due.map Prod.fst)
    (htarget : request.target.all (result.1 ∈ ·)) (hreadable : w.stream = .readable)
    (hwaiting : w.phase = .reading none → w.queue = []) :
    Ordered request { w.enqueue result with due := w.due ++ [result] } := by
  obtain ⟨hnodup, htargets⟩ := h.concat hnew htarget
  have hover {queue : List (Id × Result)} (hover : w.stream = .cancelled ∨ w.stream = .errored) : queue = [] := by
    rw [hreadable] at hover
    rcases hover with hover | hover <;> cases hover
  have hclosing {P : Prop} (hclosing : w.stream = .closing) : P := by
    rw [hreadable] at hclosing
    cases hclosing
  by_cases hphase : w.phase = .reading none
  · have hall : w.due ++ [result] = w.yielded ++ ([result] ++ w.queue) := by
      have hbefore := h.all (by rw [hphase]; trivial) (.inl hreadable)
      unfold waits at hbefore
      rw [hphase, hwaiting hphase] at hbefore
      rw [hbefore, hwaiting hphase]
      exact List.append_assoc _ [] [result]
    rw [enqueue_of_reading hphase]
    refine ⟨hnodup, htargets, ⟨w.queue, ?_⟩, fun _ _ => hall, hover, hclosing⟩
    exact (List.append_assoc ..).trans hall.symm
  · rw [enqueue_of_not hphase]
    refine ⟨hnodup, htargets, h.first.trans (List.prefix_append _ _), fun hactive hopen => ?_, hover, hclosing⟩
    have hbefore := h.all hactive hopen
    show w.due ++ [result] = w.yielded ++ (w.phase.hand ++ (w.queue ++ [result]))
    rw [hbefore, waits, List.append_assoc, List.append_assoc]

theorem Ordered.close (h : w.Ordered request) (hreadable : w.stream = .readable) {target : Finset Id}
    (htarget : request.target = some target) (hdone : ∀ id ∈ target, id ∈ w.due.map Prod.fst) :
    w.close.Ordered request := by
  refine ⟨h.nodup, h.target, ?_, fun hactive _ => ?_, fun hover => ?_, fun _ => ⟨target, htarget, hdone⟩⟩
  · show w.yielded ++ (w.phase.answered .done).hand <+: w.due
    rw [hand_answered_done]
    exact h.first
  · have hall := h.all (active_answered.mp hactive) (.inl hreadable)
    show w.due = w.yielded ++ ((w.phase.answered .done).hand ++ w.queue)
    rw [hand_answered_done]
    exact hall
  · rcases hover with hover | hover <;> cases hover

/-! ## Suspensions -/

variable (w) in
def Placed : Prop :=
  match w.phase with
  | .created => w.listening = false ∧ w.queue = [] ∧ w.yielded = [] ∧ w.due = [] ∧ w.ref = none
  | .subscribing _ | .immediate _ => w.listening = false
  | .reading none => w.listening = !w.aborted ∧ w.aborted = false ∧ w.stream = .readable ∧ w.queue = []
  | .reading (some .done) => w.listening = !w.aborted ∧ w.queue = [] ∧ w.stream ≠ .readable ∧ w.stream ≠ .errored
  | .reading (some .failed) => w.listening = !w.aborted ∧ w.stream = .errored
  | .reading (some (.value _)) => w.listening = !w.aborted
  | .yielded => w.listening = !w.aborted ∧ (w.aborted → w.stream ≠ .readable)
  | .ended => w.listening = false ∧ (w.ref = none ∨ w.stream ≠ .readable)

/-- Only an abort cancels the stream before the generator ends. -/
structure Guarded (w : ResolveWorld Id Key Owner Result) : Prop where
  placed : w.Placed
  cancelled : w.phase.Active → w.stream = .cancelled → w.aborted = true

/-- A step does not end the generator at the `yield` of an immediate result while it is
subscribed, and does not read, after the immediate results, for a call that is aborted. -/
def Allowed (request : ResolveRequest Id Owner) (w : ResolveWorld Id Key Owner Result) :
    ResolveEvent Id Key Owner Result → Prop
  | .finish => ∀ rest, w.phase = .immediate rest → w.stream ≠ .readable
  | .resume | .next => w.phase = .subscribing [] ∨ w.phase = .immediate [] → ¬w.targetResolved request →
      w.aborted → w.queue ≠ [] ∨ w.stream ≠ .readable
  | _ => True

variable (w) in
theorem stream_cancelStream : w.cancelStream.stream ≠ .readable := by
  unfold ResolveWorld.cancelStream
  cases hstream : w.stream with
  | readable | closing => exact fun h => (by cases h)
  | cancelled | errored =>
    show w.stream ≠ .readable
    rw [hstream]
    exact fun h => (by cases h)

theorem guarded_ended {stream : StreamState} {queue yielded due : List (Id × Result)} {aborted : Bool}
    {futures : FutureWorld Id Key Owner Result} {ref : Option Nat} (hstream : ref = none ∨ stream ≠ .readable) :
    Guarded ⟨futures, .ended, ref, stream, queue, aborted, false, yielded, due⟩ :=
  ⟨⟨rfl, hstream⟩, fun hactive => absurd hactive id⟩

variable (w) in
theorem guarded_finallyBlock : w.finallyBlock.Guarded :=
  guarded_ended (.inr (stream_cancelStream w))

theorem guarded_read (hcancelled : w.stream = .cancelled → w.aborted = true) (hlistening : w.listening = !w.aborted)
    (haborted : w.aborted → w.queue ≠ [] ∨ w.stream ≠ .readable) : w.read.Guarded := by
  obtain ⟨futures, phase, ref, stream, queue, aborted, listening, yielded, due⟩ := w
  cases queue with
  | cons result queue => exact ⟨hlistening, fun _ => hcancelled⟩
  | nil =>
    refine ⟨?_, fun _ => hcancelled⟩
    cases stream with
    | readable =>
      have hlive : aborted = false := by
        cases aborted with
        | false => rfl
        | true => exact absurd rfl ((haborted rfl).resolve_left fun h => h rfl)
      exact ⟨hlistening, hlive, rfl, rfl⟩
    | closing | cancelled => exact ⟨hlistening, rfl, fun h => (by cases h), fun h => (by cases h)⟩
    | errored => exact ⟨hlistening, rfl⟩

theorem guarded_afterImmediate (hcancelled : w.stream = .cancelled → w.aborted = true)
    (hlistening : w.listening = false)
    (haborted : ¬w.targetResolved request → w.aborted → w.queue ≠ [] ∨ w.stream ≠ .readable) :
    (w.afterImmediate request).Guarded := by
  unfold ResolveWorld.afterImmediate
  split
  · refine ⟨⟨?_, .inr (stream_cancelStream w)⟩, fun hactive => absurd hactive id⟩
    show w.cancelStream.listening = false
    unfold ResolveWorld.cancelStream
    cases w.stream <;> exact hlistening
  · rename_i hresolved
    exact guarded_read hcancelled rfl (haborted hresolved)

theorem guarded_yieldImmediate (hcancelled : w.stream = .cancelled → w.aborted = true)
    (hlistening : w.listening = false)
    {results : List (Id × Result)} (haborted : results = [] → ¬w.targetResolved request → w.aborted →
      w.queue ≠ [] ∨ w.stream ≠ .readable) : (w.yieldImmediate request results).Guarded := by
  cases results with
  | nil => exact guarded_afterImmediate hcancelled hlistening (haborted rfl)
  | cons result rest => exact ⟨hlistening, fun _ => hcancelled⟩

theorem Guarded.afterRead (h : w.Guarded) {answer : ReadAnswer Id Result} (hphase : w.phase = .reading (some answer)) :
    (w.afterRead answer).Guarded := by
  cases answer with
  | failed => exact guarded_finallyBlock w
  | done => exact guarded_finallyBlock w
  | value result =>
    show Guarded (if w.aborted then w.finallyBlock else _)
    split
    · exact guarded_finallyBlock w
    · rename_i hlive
      have hplaced := h.placed
      unfold Placed at hplaced
      rw [hphase] at hplaced
      exact ⟨⟨hplaced, fun haborted => absurd haborted hlive⟩, fun _ => h.cancelled (by rw [hphase]; trivial)⟩

theorem Guarded.read_yielded (h : w.Guarded) (hphase : w.phase = .yielded) : w.read.Guarded := by
  have hplaced := h.placed
  unfold Placed at hplaced
  rw [hphase] at hplaced
  exact guarded_read (h.cancelled (by rw [hphase]; trivial)) hplaced.1 fun haborted => .inr (hplaced.2 haborted)

theorem Guarded.abort (h : w.Guarded) : w.abort.Guarded := by
  obtain ⟨futures, phase, ref, stream, queue, aborted, listening, yielded, due⟩ := w
  obtain ⟨hplaced, hcancelled⟩ := h
  cases phase with
  | created =>
    obtain ⟨hlistening, hrest⟩ := hplaced
    obtain rfl : listening = false := hlistening
    exact ⟨⟨rfl, hrest⟩, fun _ _ => rfl⟩
  | subscribing results | immediate rest =>
    obtain rfl : listening = false := hplaced
    exact ⟨rfl, fun _ _ => rfl⟩
  | ended =>
    obtain ⟨hlistening, hrest⟩ := hplaced
    obtain rfl : listening = false := hlistening
    exact ⟨⟨rfl, hrest⟩, fun hactive => absurd hactive id⟩
  | yielded =>
    obtain ⟨hlistening, hover⟩ := hplaced
    cases listening with
    | true => cases stream <;> exact ⟨⟨rfl, fun _ h => (by cases h)⟩, fun _ _ => rfl⟩
    | false =>
      have haborted : aborted = true := by
        cases aborted with
        | false => cases hlistening
        | true => rfl
      exact ⟨⟨rfl, fun _ => hover haborted⟩, fun _ _ => rfl⟩
  | reading answer =>
    cases answer with
    | none =>
      obtain ⟨hlistening, rfl, rfl, rfl⟩ := hplaced
      obtain rfl : listening = true := hlistening
      exact ⟨⟨rfl, rfl, fun h => (by cases h), fun h => (by cases h)⟩, fun _ _ => rfl⟩
    | some answer =>
      cases answer with
      | value result =>
        cases listening with
        | true => cases stream <;> exact ⟨rfl, fun _ _ => rfl⟩
        | false => exact ⟨rfl, fun _ _ => rfl⟩
      | done =>
        obtain ⟨-, rfl, hnot, hnot'⟩ := hplaced
        cases listening with
        | true =>
          cases stream with
          | readable => exact absurd rfl hnot
          | closing | cancelled => exact ⟨⟨rfl, rfl, fun h => (by cases h), fun h => (by cases h)⟩, fun _ _ => rfl⟩
          | errored => exact absurd rfl hnot'
        | false => exact ⟨⟨rfl, rfl, hnot, hnot'⟩, fun _ _ => rfl⟩
      | failed =>
        obtain ⟨-, rfl⟩ := hplaced
        cases listening with
        | true => exact ⟨⟨rfl, rfl⟩, fun _ _ => rfl⟩
        | false => exact ⟨⟨rfl, rfl⟩, fun _ _ => rfl⟩

theorem guarded_resume (h : w.Guarded) {w' : ResolveWorld Id Key Owner Result} (hstep : w.resume request = some w')
    (hallowed : Allowed request w .resume) : w'.Guarded := by
  have hplaced := h.placed
  unfold Placed at hplaced
  unfold ResolveWorld.resume at hstep
  cases hphase : w.phase with
  | subscribing results =>
    rw [hphase] at hstep hplaced
    obtain rfl := Option.some.inj hstep
    refine guarded_yieldImmediate (h.cancelled (by rw [hphase]; trivial)) hplaced fun hnil hresolved => ?_
    exact hallowed (.inl (by rw [hphase, hnil])) hresolved
  | reading answer =>
    cases answer with
    | none =>
      rw [hphase] at hstep
      cases hstep
    | some answer =>
      rw [hphase] at hstep
      obtain rfl := Option.some.inj hstep
      exact h.afterRead hphase
  | created | immediate _ | yielded | ended =>
    rw [hphase] at hstep
    cases hstep

theorem guarded_next (h : w.Guarded) {w' : ResolveWorld Id Key Owner Result} (hstep : w.next request = some w')
    (hallowed : Allowed request w .next) : w'.Guarded := by
  have hplaced := h.placed
  unfold Placed at hplaced
  unfold ResolveWorld.next at hstep
  cases hphase : w.phase with
  | created =>
    rw [hphase] at hstep hplaced
    obtain rfl := Option.some.inj hstep
    refine ⟨hplaced.1, fun _ hcancelled => ?_⟩
    change (if _ then StreamState.closing else StreamState.readable) = .cancelled at hcancelled
    split at hcancelled <;> cases hcancelled
  | immediate rest =>
    rw [hphase] at hstep hplaced
    obtain rfl := Option.some.inj hstep
    refine guarded_yieldImmediate (h.cancelled (by rw [hphase]; trivial)) hplaced fun hnil hresolved => ?_
    exact hallowed (.inr (by rw [hphase, hnil])) hresolved
  | yielded =>
    rw [hphase] at hstep
    obtain rfl := Option.some.inj hstep
    split
    · exact guarded_finallyBlock w
    · exact h.read_yielded hphase
  | subscribing _ | reading _ | ended =>
    rw [hphase] at hstep
    cases hstep

theorem guarded_finish (h : w.Guarded) {w' : ResolveWorld Id Key Owner Result} (hstep : w.finish = some w')
    (hallowed : Allowed request w .finish) : w'.Guarded := by
  obtain ⟨futures, phase, ref, stream, queue, aborted, listening, yielded, due⟩ := w
  obtain ⟨hplaced, hcancelled⟩ := h
  cases phase with
  | created =>
    obtain ⟨hlistening, -, -, -, href⟩ := hplaced
    obtain rfl : listening = false := hlistening
    obtain rfl := Option.some.inj hstep
    exact guarded_ended (.inl href)
  | immediate rest =>
    obtain rfl : listening = false := hplaced
    obtain rfl := Option.some.inj hstep
    exact guarded_ended (.inr (hallowed rest rfl))
  | yielded =>
    obtain rfl := Option.some.inj hstep
    exact guarded_finallyBlock _
  | subscribing _ | reading _ | ended => cases hstep

theorem Guarded.error (h : w.Guarded) (hreadable : w.stream = .readable) : w.error.Guarded := by
  obtain ⟨futures, phase, ref, stream, queue, aborted, listening, yielded, due⟩ := w
  obtain ⟨hplaced, hcancelled⟩ := h
  obtain rfl : stream = .readable := hreadable
  refine ⟨?_, fun _ herrored => (by cases herrored)⟩
  cases phase with
  | created => exact ⟨hplaced.1, rfl, hplaced.2.2⟩
  | subscribing _ | immediate _ => exact hplaced
  | yielded => exact ⟨hplaced.1, fun _ herrored => (by cases herrored)⟩
  | ended => exact ⟨hplaced.1, .inr fun herrored => (by cases herrored)⟩
  | reading answer =>
    cases answer with
    | none => exact ⟨hplaced.1, rfl⟩
    | some answer =>
      cases answer with
      | value result => exact hplaced
      | done => exact absurd rfl hplaced.2.2.1
      | failed => cases hplaced.2

theorem Guarded.close (h : w.Guarded) (hreadable : w.stream = .readable) : w.close.Guarded := by
  obtain ⟨futures, phase, ref, stream, queue, aborted, listening, yielded, due⟩ := w
  obtain ⟨hplaced, hcancelled⟩ := h
  obtain rfl : stream = .readable := hreadable
  refine ⟨?_, fun _ hclosing => (by cases hclosing)⟩
  cases phase with
  | created | subscribing _ | immediate _ => exact hplaced
  | yielded => exact ⟨hplaced.1, fun _ hclosing => (by cases hclosing)⟩
  | ended => exact ⟨hplaced.1, .inr fun hclosing => (by cases hclosing)⟩
  | reading answer =>
    cases answer with
    | none => exact ⟨hplaced.1, hplaced.2.2.2, fun h => (by cases h), fun h => (by cases h)⟩
    | some answer =>
      cases answer with
      | value result => exact hplaced
      | done => exact absurd rfl hplaced.2.2.1
      | failed => cases hplaced.2

theorem Guarded.enqueue (h : w.Guarded) (hreadable : w.stream = .readable) (hactive : w.phase.Active)
    (result : Id × Result) : (w.enqueue result).Guarded := by
  obtain ⟨futures, phase, ref, stream, queue, aborted, listening, yielded, due⟩ := w
  obtain ⟨hplaced, hcancelled⟩ := h
  obtain rfl : stream = .readable := hreadable
  cases phase with
  | created | ended => exact absurd hactive id
  | subscribing _ | immediate _ | yielded => exact ⟨hplaced, hcancelled⟩
  | reading answer =>
    cases answer with
    | none => exact ⟨hplaced.1, hcancelled⟩
    | some answer =>
      cases answer with
      | value result => exact ⟨hplaced, hcancelled⟩
      | done => exact absurd rfl hplaced.2.2.1
      | failed => cases hplaced.2

theorem Guarded.active (h : w.Guarded) (hreadable : w.stream = .readable) {ref : Nat} (href : w.ref = some ref) :
    w.phase.Active := by
  have hplaced := h.placed
  unfold Placed at hplaced
  cases hphase : w.phase with
  | created =>
    rw [hphase] at hplaced
    cases href.symm.trans hplaced.2.2.2.2
  | ended =>
    rw [hphase] at hplaced
    rcases hplaced.2 with hnone | hover
    · cases href.symm.trans hnone
    · exact absurd hreadable hover
  | subscribing _ | immediate _ | reading _ | yielded => trivial

/-! ## The subscription -/

def awaited (request : ResolveRequest Id Owner) (w : ResolveWorld Id Key Owner Result) : Option (Finset Id) :=
  request.target.map (· \ (w.due.map Prod.fst).toFinset)

/-- The stream has a subscriber exactly while it is readable. -/
structure Listed (request : ResolveRequest Id Owner) (w : ResolveWorld Id Key Owner Result) : Prop where
  active : w.phase.Active → ∃ ref, w.ref = some ref
  lt : ∀ ref, w.ref = some ref → ref < w.futures.storage.nextRef
  subscriber : ∀ ref, w.ref = some ref → w.stream = .readable → ∃ subscriber ∈ w.futures.storage.subscribers,
    subscriber.ref = ref ∧ subscriber.owner = request.owner ∧ subscriber.ids = w.awaited request
  released : ∀ ref, w.ref = some ref → w.stream ≠ .readable →
    ∀ subscriber ∈ w.futures.storage.subscribers, subscriber.ref ≠ ref
  past : ∀ id ∈ w.due.map Prod.fst, Past w.futures id

theorem Listed.congr {w' : ResolveWorld Id Key Owner Result} (h : w.Listed request)
    (hactive : w'.phase.Active → w.phase.Active) (href : w'.ref = w.ref) (hstream : w'.stream = w.stream)
    (hfutures : w'.futures = w.futures) (hdue : w'.due = w.due) : w'.Listed request := by
  obtain ⟨futures, phase, ref, stream, queue, aborted, listening, yielded, due⟩ := w
  obtain ⟨futures', phase', ref', stream', queue', aborted', listening', yielded', due'⟩ := w'
  obtain rfl : ref' = ref := href
  obtain rfl : stream' = stream := hstream
  obtain rfl : futures' = futures := hfutures
  obtain rfl : due' = due := hdue
  exact ⟨fun h' => h.active (hactive h'), h.lt, h.subscriber, h.released, h.past⟩

theorem Listed.cancelStream (h : w.Listed request) : w.cancelStream.Listed request := by
  unfold ResolveWorld.cancelStream
  have hcancel (phase : ResolvePhase Id Result) (hphase : phase.Active → w.phase.Active) :
      Listed request { w with stream := .cancelled, queue := [], phase, futures := w.unsubscribe } := by
    obtain ⟨futures, _, ref, stream, queue, aborted, listening, yielded, due⟩ := w
    cases ref with
    | none =>
      exact ⟨fun hactive => h.active (hphase hactive), fun ref href => (by cases href), fun ref href => (by cases href),
        fun ref href => (by cases href), h.past⟩
    | some ref =>
      refine ⟨fun _ => ⟨ref, rfl⟩, h.lt, fun _ _ hreadable => (by cases hreadable), fun ref' href _ subscriber hmem => ?_,
        h.past⟩
      obtain rfl := Option.some.inj href
      exact of_decide_eq_true (List.mem_filter.mp hmem).2
  cases w.stream with
  | cancelled => exact h
  | errored => exact h
  | readable => exact hcancel _ active_answered.mp
  | closing => exact hcancel _ active_answered.mp

theorem Listed.finallyBlock (h : w.Listed request) : w.finallyBlock.Listed request :=
  h.cancelStream.congr (fun hactive => absurd hactive id) rfl rfl rfl rfl

theorem Listed.abort (h : w.Listed request) : w.abort.Listed request := by
  unfold ResolveWorld.abort
  split
  · exact h.cancelStream.congr (fun hactive => hactive) rfl rfl rfl rfl
  · exact h.congr (fun hactive => hactive) rfl rfl rfl rfl

theorem Listed.pull (h : w.Listed request) {phase : ResolvePhase Id Result} {queue : List (Id × Result)}
    (hactive : w.phase.Active) : Listed request { w with phase, queue, futures := w.pull } := by
  obtain ⟨ref, href⟩ := h.active hactive
  have hpull : w.pull = { w.futures with storage := w.futures.storage.pull ref } := by
    unfold ResolveWorld.pull
    rw [href]
  rw [hpull]
  refine ⟨fun _ => ⟨ref, href⟩, h.lt, fun ref' href' hreadable => ?_, fun ref' href' hstream subscriber hmem => ?_, h.past⟩
  · obtain ⟨subscriber, hmem, hsame, howner, hids⟩ := h.subscriber ref' href' hreadable
    refine ⟨_, List.mem_map_of_mem hmem, ?_, ?_, ?_⟩
    · split <;> exact hsame
    · split <;> exact howner
    · split <;> exact hids
  · obtain ⟨before, hbefore, rfl⟩ := List.mem_map.mp hmem
    have hold := h.released ref' href' hstream before hbefore
    split <;> exact hold

theorem Listed.read (h : w.Listed request) (hactive : w.phase.Active) : w.read.Listed request := by
  unfold ResolveWorld.read
  cases hqueue : w.queue with
  | nil => exact h.pull hactive
  | cons result queue => exact h.pull hactive

theorem Listed.afterImmediate (h : w.Listed request) (hactive : w.phase.Active) :
    (w.afterImmediate request).Listed request := by
  unfold ResolveWorld.afterImmediate
  split
  · exact h.cancelStream.congr (fun hactive => absurd hactive id) rfl rfl rfl rfl
  · have hlistens : Listed request { w with listening := !w.aborted } :=
      h.congr (fun hactive => hactive) rfl rfl rfl rfl
    exact hlistens.read hactive

theorem Listed.yieldImmediate (h : w.Listed request) (hactive : w.phase.Active) (results : List (Id × Result)) :
    (w.yieldImmediate request results).Listed request := by
  cases results with
  | nil => exact h.afterImmediate hactive
  | cons result rest => exact h.congr (fun _ => hactive) rfl rfl rfl rfl

theorem Listed.afterRead (h : w.Listed request) {answer : ReadAnswer Id Result} (hactive : w.phase.Active) :
    (w.afterRead answer).Listed request := by
  cases answer with
  | failed => exact h.finallyBlock
  | done => exact h.finallyBlock
  | value result =>
    show Listed request (if w.aborted then w.finallyBlock else _)
    split
    · exact h.finallyBlock
    · exact h.congr (fun _ => hactive) rfl rfl rfl rfl

variable {maxPending maxCompleted : Limit} {futures' : FutureWorld Id Key Owner Result}
  {event : FutureEvent Id Key Owner Result}

theorem find_subscriber (h : w.futures.Invariant maxPending maxCompleted) {subscriber : Subscriber Id Owner Result}
    (hmem : subscriber ∈ w.futures.storage.subscribers) :
    w.futures.storage.subscribers.find? (·.ref = subscriber.ref) = some subscriber := by
  cases hfound : w.futures.storage.subscribers.find? (·.ref = subscriber.ref) with
  | none =>
    have hnone := List.find?_eq_none.mp hfound subscriber hmem
    exact absurd (decide_eq_true rfl) hnone
  | some found =>
    have htrue := List.find?_some hfound
    have href : found.ref = subscriber.ref := of_decide_eq_true htrue
    exact congrArg some (List.inj_on_of_nodup_map h.streams.nodup (List.mem_of_find?_eq_some hfound) hmem href)

theorem subscribed_eq (request : ResolveRequest Id Owner) (w : ResolveWorld Id Key Owner Result) :
    w.subscribe request =
      { w with
        futures := w.futures.subscribed request.ids request.owner
        ref := some w.futures.storage.nextRef
        stream := if request.target.map (· \ ((heldResults request w.futures.storage).map Prod.fst).toFinset) = some ∅ then
          .closing else .readable
        phase := .subscribing (heldResults request w.futures.storage)
        due := heldResults request w.futures.storage } := by
  have hloop := subscribeLoop_eq request.owner w.futures.storage.entries.pairs
    (OrderedMap.nodup_pairs w.futures.storage.entries) (requestedIds request.ids)
  unfold ResolveWorld.subscribe
  rw [hloop]
  rfl

theorem Ordered.subscribe (hplaced : w.phase = .created) (h : w.Guarded)
    (hfutures : w.futures.Invariant maxPending maxCompleted) : (w.subscribe request).Ordered request := by
  have hcreated := h.placed
  unfold Placed at hcreated
  rw [hplaced] at hcreated
  obtain ⟨-, hqueue, hyielded, -, -⟩ := hcreated
  rw [subscribed_eq]
  refine ⟨nodup_heldResults (OrderedMap.nodup_pairs _), fun id hid => (past_heldResults hfutures hid).2, ?_,
    fun _ _ => ?_, fun hover => ?_, fun hclosing => ?_⟩
  · rw [hyielded]
    exact ⟨[], List.append_nil _⟩
  · show heldResults request w.futures.storage = w.yielded ++ (heldResults request w.futures.storage ++ w.queue)
    rw [hyielded, hqueue, List.append_nil, List.nil_append]
  · exact hqueue
  · -- all that is asked for is held
    change (if _ then StreamState.closing else .readable) = .closing at hclosing
    split at hclosing
    · rename_i hnothing
      obtain ⟨target, htarget, hempty⟩ := Option.map_eq_some_iff.mp hnothing
      refine ⟨target, htarget, fun id hid => ?_⟩
      exact List.mem_toFinset.mp (Finset.sdiff_eq_empty_iff_subset.mp hempty hid)
    · cases hclosing

theorem Listed.subscribe (hfutures : w.futures.Invariant maxPending maxCompleted) :
    (w.subscribe request).Listed request := by
  have hstorage := InMemoryFutureStorage.subscribe_eq w.futures.storage request.ids request.owner
  have hwaiting : w.futures.storage.waiting request.ids request.owner =
      if request.target.map (· \ ((heldResults request w.futures.storage).map Prod.fst).toFinset) = some ∅ then []
      else [⟨w.futures.storage.nextRef, request.owner,
        request.target.map (· \ ((heldResults request w.futures.storage).map Prod.fst).toFinset), .empty⟩] := by
    unfold InMemoryFutureStorage.waiting
    rw [subscribeLoop_eq request.owner w.futures.storage.entries.pairs
      (OrderedMap.nodup_pairs w.futures.storage.entries) (requestedIds request.ids)]
    rfl
  have hsubscribers : (w.futures.subscribed request.ids request.owner).storage.subscribers =
      w.futures.storage.subscribers ++ w.futures.storage.waiting request.ids request.owner :=
    congrArg (fun answer => answer.2.subscribers) hstorage
  have hnext : (w.futures.subscribed request.ids request.owner).storage.nextRef = w.futures.storage.nextRef + 1 :=
    congrArg (fun answer => answer.2.nextRef) hstorage
  rw [subscribed_eq]
  refine ⟨fun _ => ⟨_, rfl⟩, fun ref href => ?_, fun ref href hreadable => ?_, fun ref href hclosed subscriber hmem => ?_,
    fun id hid => ?_⟩
  · obtain rfl := Option.some.inj href
    exact Nat.lt_of_lt_of_eq (Nat.lt_succ_self _) hnext.symm
  · obtain rfl := Option.some.inj href
    change (if _ then StreamState.closing else .readable) = .readable at hreadable
    split at hreadable
    · cases hreadable
    · rename_i hsome
      rw [if_neg hsome] at hwaiting
      refine ⟨⟨w.futures.storage.nextRef, request.owner,
        request.target.map (· \ ((heldResults request w.futures.storage).map Prod.fst).toFinset), .empty⟩, ?_, rfl, rfl, rfl⟩
      show _ ∈ (w.futures.subscribed request.ids request.owner).storage.subscribers
      rw [hsubscribers, hwaiting]
      exact List.mem_append_right _ (List.mem_singleton_self _)
  · obtain rfl := Option.some.inj href
    change (if _ then StreamState.closing else .readable) ≠ .readable at hclosed
    split at hclosed
    · rename_i hnone
      rw [if_pos hnone] at hwaiting
      change subscriber ∈ (w.futures.subscribed request.ids request.owner).storage.subscribers at hmem
      rw [hsubscribers, hwaiting, List.append_nil] at hmem
      exact Nat.ne_of_lt (hfutures.streams.ref_lt subscriber hmem)
    · exact absurd rfl hclosed
  · have hpast : Past w.futures id := (past_heldResults hfutures hid).1
    exact hpast.step (.subscribe request.ids request.owner)

/-! ## Steps of the storage -/

theorem Listed.frame (h : w.Listed request) (hmem : ∀ ref, w.ref = some ref → ∀ subscriber : Subscriber Id Owner Result,
      subscriber.ref = ref → (subscriber ∈ futures'.storage.subscribers ↔ subscriber ∈ w.futures.storage.subscribers))
    (hstep : FutureStep w.futures event futures') : Listed request { w with futures := futures' } := by
  refine ⟨h.active, fun ref href => Nat.lt_of_lt_of_le (h.lt ref href) (nextRef_le_of_step hstep),
    fun ref href hreadable => ?_, fun ref href hclosed subscriber hin hsub => ?_,
    fun id hid => (h.past id hid).step hstep⟩
  · obtain ⟨subscriber, hin, hsub, howner, hids⟩ := h.subscriber ref href hreadable
    exact ⟨subscriber, (hmem ref href subscriber hsub).mpr hin, hsub, howner, hids⟩
  · exact h.released ref href hclosed subscriber ((hmem ref href subscriber hsub).mp hin) hsub

theorem Listed.others (h : w.Listed request) (hstep : FutureStep w.futures event futures') (hforeign : w.Foreign event)
    (hcomplete : ∀ id result, event ≠ .complete id result) : Listed request { w with futures := futures' } := by
  refine h.frame (fun ref href subscriber hsub => ?_) hstep
  refine mem_subscribers_of_step hstep hcomplete (h.lt ref href) ?_ ?_ hsub
  · rintro rfl
    exact hforeign href
  · rintro rfl
    exact hforeign href

theorem Listed.fresh (h : w.Listed request) {id : Id} {entry : FutureEntry Key Owner Result}
    (hentry : w.futures.storage.entries.lookup id = some entry) (hpending : entry.isPending) :
    id ∉ w.due.map Prod.fst :=
  fun hdue => (h.past id hdue).2 entry hentry hpending

theorem awaited_all {id : Id} (hnew : id ∉ w.due.map Prod.fst) :
    (w.awaited request).all (id ∈ ·) = request.target.all (id ∈ ·) := by
  unfold awaited
  cases request.target with
  | none => rfl
  | some target =>
    show decide (id ∈ target \ (w.due.map Prod.fst).toFinset) = decide (id ∈ target)
    rw [decide_eq_decide, Finset.mem_sdiff, List.mem_toFinset]
    exact and_iff_left hnew

theorem awaited_concat {result : Id × Result} :
    (request.target.map (· \ ((w.due ++ [result]).map Prod.fst).toFinset) : Option (Finset Id)) =
      (w.awaited request).map (·.erase result.1) := by
  unfold awaited
  rw [Option.map_map]
  refine congrArg (fun f => Option.map f request.target) (funext fun target => ?_)
  show target \ ((w.due ++ [result]).map Prod.fst).toFinset = (target \ (w.due.map Prod.fst).toFinset).erase result.1
  ext id
  simp only [Finset.mem_sdiff, Finset.mem_erase, List.mem_toFinset, List.map_append, List.mem_append, List.map_singleton,
    List.mem_singleton, not_or]
  constructor
  · rintro ⟨htarget, hdue, hne⟩
    exact ⟨hne, htarget, hdue⟩
  · rintro ⟨hne, htarget, hdue⟩
    exact ⟨htarget, hdue, hne⟩

theorem deliver_cases (capacity : Nat) (owner : Owner) {id : Id} (result : Result)
    {subscriber : Subscriber Id Owner Result} (howner : subscriber.owner = request.owner)
    (hids : subscriber.ids = w.awaited request) (hnew : id ∉ w.due.map Prod.fst) :
    (¬request.Matches owner id ∧ deliver capacity owner id result subscriber = (some subscriber, false)) ∨
    (request.Matches owner id ∧
      (deliver capacity owner id result subscriber = (none, false) ∨
      ((w.awaited request).map (·.erase id) = some ∅ ∧ deliver capacity owner id result subscriber = (none, true)) ∨
      ∃ controller, deliver capacity owner id result subscriber =
        (some { subscriber with ids := (w.awaited request).map (·.erase id), controller }, true))) := by
  have hmatches : request.Matches owner id ↔ ¬(subscriber.owner ≠ owner ∨ ¬subscriber.ids.all (id ∈ ·)) := by
    unfold ResolveRequest.Matches
    rw [howner, hids, awaited_all hnew, not_or, not_not, not_not]
    exact and_congr_left fun _ => eq_comm
  unfold InMemoryFutureStorage.deliver
  by_cases hskip : subscriber.owner ≠ owner ∨ ¬subscriber.ids.all (id ∈ ·)
  · rw [if_pos hskip]
    exact .inl ⟨fun h => hmatches.mp h hskip, rfl⟩
  · rw [if_neg hskip]
    refine .inr ⟨hmatches.mpr hskip, ?_⟩
    split
    · exact .inl rfl
    · dsimp only
      rw [hids]
      split
      · rename_i hlast
        exact .inr (.inl ⟨hlast, rfl⟩)
      · exact .inr (.inr ⟨_, rfl⟩)

section

variable {id : Id} {entry : FutureEntry Key Owner Result} {result : Result} {discard : Bool}

theorem completes_of_pending (hentry : w.futures.storage.entries.lookup id = some entry) (hpending : entry.isPending) :
    w.completes request id result =
      { w.served entry.owner id result with
        due := if w.phase.Active ∧ request.Matches entry.owner id then w.due ++ [(id, result)] else w.due } := by
  unfold ResolveWorld.completes
  unfold FutureEntry.isPending at hpending
  rw [hentry]
  dsimp only
  cases hstate : entry.state with
  | pending => rfl
  | completed value =>
    rw [hstate] at hpending
    cases hpending

theorem completes_again (hdone : ∀ entry, w.futures.storage.entries.lookup id = some entry → ¬entry.isPending) :
    w.completes request id result = w := by
  unfold ResolveWorld.completes
  cases hentry : w.futures.storage.entries.lookup id with
  | none => rfl
  | some entry =>
    have hstate := hdone entry hentry
    unfold FutureEntry.isPending at hstate
    dsimp only
    cases hcompleted : entry.state with
    | pending =>
      rw [hcompleted] at hstate
      exact absurd rfl hstate
    | completed value => rfl

/-- What is due when a result is, whoever asked for it. -/
def dueWith (request : ResolveRequest Id Owner) (w : ResolveWorld Id Key Owner Result) (owner : Owner) (id : Id)
    (result : Result) : List (Id × Result) :=
  if w.phase.Active ∧ request.Matches owner id then w.due ++ [(id, result)] else w.due

theorem past_dueWith (h : w.Listed request) (hfutures : w.futures.Invariant maxPending maxCompleted)
    (hstep : FutureStep w.futures (.complete id result) (w.futures.completed id result discard))
    (hentry : w.futures.storage.entries.lookup id = some entry) :
    ∀ id' ∈ (w.dueWith request entry.owner id result).map Prod.fst, Past (w.futures.completed id result discard) id' := by
  intro id' hid'
  unfold dueWith at hid'
  split at hid'
  · rw [List.map_append, List.map_singleton] at hid'
    rcases List.mem_append.mp hid' with hold | hnew
    · exact (h.past id' hold).step hstep
    · rw [List.mem_singleton.mp hnew]
      exact past_completed hfutures hentry result discard
  · exact (h.past id' hid').step hstep

theorem Guarded.withDue (h : w.Guarded) (hactive : w.phase.Active) (futures : FutureWorld Id Key Owner Result)
    (due : List (Id × Result)) : Guarded { w with futures, due } := by
  obtain ⟨_, phase, ref, stream, queue, aborted, listening, yielded, _⟩ := w
  cases phase with
  | created => exact absurd hactive id
  | subscribing _ | immediate _ | yielded | ended => exact ⟨h.placed, h.cancelled⟩
  | reading answer => rcases answer with _ | _ | _ | _ <;> exact ⟨h.placed, h.cancelled⟩

theorem Guarded.withFutures (h : w.Guarded) (futures : FutureWorld Id Key Owner Result) :
    Guarded { w with futures } := ⟨h.placed, h.cancelled⟩

theorem Ordered.withFutures (h : w.Ordered request) (futures : FutureWorld Id Key Owner Result) :
    Ordered request { w with futures } := ⟨h.nodup, h.target, h.first, h.all, h.closed, h.closing⟩

theorem Listed.completed (h : w.Listed request) (hfutures : w.futures.Invariant maxPending maxCompleted)
    (hstep : FutureStep w.futures (.complete id result) (w.futures.completed id result discard))
    (hentry : w.futures.storage.entries.lookup id = some entry) (hpending : entry.isPending)
    {served : ResolveWorld Id Key Owner Result} (hactive : served.phase.Active → w.phase.Active) (href : served.ref = w.ref)
    (hsubscriber : ∀ ref, w.ref = some ref → served.stream = .readable →
      ∃ subscriber ∈ (w.futures.storage.deliverAll entry.owner id result).subscribers, subscriber.ref = ref ∧
        subscriber.owner = request.owner ∧
          subscriber.ids = awaited request { served with due := w.dueWith request entry.owner id result })
    (hreleased : ∀ ref, w.ref = some ref → served.stream ≠ .readable →
      ∀ subscriber ∈ (w.futures.storage.deliverAll entry.owner id result).subscribers, subscriber.ref ≠ ref) :
    Listed request { served with
      futures := w.futures.completed id result discard, due := w.dueWith request entry.owner id result } := by
  have hsubscribers := subscribers_completed hfutures hentry hpending result discard
  refine ⟨fun h' => href ▸ h.active (hactive h'), ?_, ?_, ?_, past_dueWith h hfutures hstep hentry⟩
  · show ∀ ref, served.ref = some ref → _
    rw [href]
    exact fun ref hsome => Nat.lt_of_lt_of_le (h.lt ref hsome) (nextRef_le_of_step hstep)
  · show ∀ ref, served.ref = some ref → _
    dsimp only
    rw [href, hsubscribers]
    exact hsubscriber
  · show ∀ ref, served.ref = some ref → _
    dsimp only
    rw [href, hsubscribers]
    exact hreleased

theorem released_deliverAll {ref : Nat} {owner : Owner}
    (h : ∀ subscriber ∈ w.futures.storage.subscribers, subscriber.ref ≠ ref) :
    ∀ subscriber ∈ (w.futures.storage.deliverAll owner id result).subscribers, subscriber.ref ≠ ref := by
  intro subscriber hmem
  obtain ⟨before, hbefore, hsame, -⟩ := mem_deliverAll hmem
  rw [← hsame]
  exact h before hbefore

theorem Listed.served_over (h : w.Listed request) (hover : w.ref = none ∨ w.stream ≠ .readable) {owner : Owner} :
    w.served owner id result = w := by
  have hnone : w.ref.bind (fun ref => w.futures.storage.subscribers.find? (·.ref = ref)) = none := by
    cases href : w.ref with
    | none => rfl
    | some ref =>
      have hstream : w.stream ≠ .readable := hover.resolve_left fun hnone => (by cases href.symm.trans hnone)
      refine List.find?_eq_none.mpr fun subscriber hmem htrue => ?_
      exact h.released ref href hstream subscriber hmem (of_decide_eq_true htrue)
  unfold ResolveWorld.served
  rw [hnone]

theorem complete_over (hordered : w.Ordered request) (hguarded : w.Guarded) (hlisted : w.Listed request)
    (hfutures : w.futures.Invariant maxPending maxCompleted)
    (hstep : FutureStep w.futures (.complete id result) (w.futures.completed id result discard))
    (hentry : w.futures.storage.entries.lookup id = some entry) (hpending : entry.isPending)
    (hover : w.ref = none ∨ w.stream ≠ .readable) {w' : ResolveWorld Id Key Owner Result}
    (hw : w' = { w.completes request id result with futures := w.futures.completed id result discard }) :
    w'.Ordered request ∧ w'.Guarded ∧ w'.Listed request := by
  have hfresh := hlisted.fresh hentry hpending
  rw [completes_of_pending hentry hpending, hlisted.served_over hover] at hw
  have hlisted' : w'.Listed request := by
    rw [hw]
    refine hlisted.completed hfutures hstep hentry hpending (fun hactive => hactive) rfl (fun ref href hreadable => ?_)
      fun ref href hstream => ?_
    · exact absurd hreadable (hover.resolve_left fun hnone => (by cases href.symm.trans hnone))
    · exact released_deliverAll (hlisted.released ref href hstream)
  refine ⟨?_, ?_, hlisted'⟩
  · rw [hw]
    by_cases hdue : w.phase.Active ∧ request.Matches entry.owner id
    · obtain ⟨ref, href⟩ := hlisted.active hdue.1
      rw [if_pos hdue]
      exact hordered.lose hfresh hdue.2.2 (hover.resolve_left fun hnone => (by cases href.symm.trans hnone)) _
    · rw [if_neg hdue]
      exact hordered.withFutures _
  · rw [hw]
    by_cases hdue : w.phase.Active ∧ request.Matches entry.owner id
    · exact hguarded.withDue hdue.1 _ _
    · rw [if_neg hdue]
      exact hguarded.withFutures _

theorem mem_deliverAll_of_ref (hfutures : w.futures.Invariant maxPending maxCompleted)
    {subscriber left : Subscriber Id Owner Result} {owner : Owner} (hmem : subscriber ∈ w.futures.storage.subscribers)
    (hleft : left ∈ (w.futures.storage.deliverAll owner id result).subscribers) (href : left.ref = subscriber.ref) :
    (deliver w.futures.storage.subscriberBufferCapacity owner id result subscriber).1 = some left := by
  obtain ⟨before, hbefore, hsome⟩ := List.mem_filterMap.mp hleft
  have hsame : before.ref = subscriber.ref := (deliver_some hsome).1.symm.trans href
  obtain rfl := List.inj_on_of_nodup_map hfutures.streams.nodup hbefore hmem hsame
  exact hsome

variable (w) in
theorem ref_enqueue (p : Id × Result) :
    (w.enqueue p).ref = w.ref ∧ (w.enqueue p).stream = w.stream ∧
    ((w.enqueue p).phase.Active ↔ w.phase.Active) := by
  unfold ResolveWorld.enqueue
  split
  · rename_i hphase
    rw [hphase]
    exact ⟨rfl, rfl, Iff.rfl⟩
  · exact ⟨rfl, rfl, Iff.rfl⟩

theorem complete_matched (hlisted : w.Listed request) (hfutures : w.futures.Invariant maxPending maxCompleted)
    (hstep : FutureStep w.futures (.complete id result) (w.futures.completed id result discard))
    (hentry : w.futures.storage.entries.lookup id = some entry) (hpending : entry.isPending)
    (hmatches : w.phase.Active ∧ request.Matches entry.owner id) {served : ResolveWorld Id Key Owner Result}
    (hordered : Ordered request { served with due := w.due ++ [(id, result)] }) (hguarded : served.Guarded)
    (hactive : served.phase.Active) (href : served.ref = w.ref)
    (hsubscriber : ∀ ref, w.ref = some ref → served.stream = .readable →
      ∃ subscriber ∈ (w.futures.storage.deliverAll entry.owner id result).subscribers,
        subscriber.ref = ref ∧ subscriber.owner = request.owner ∧ subscriber.ids = (w.awaited request).map (·.erase id))
    (hreleased : ∀ ref, w.ref = some ref → served.stream ≠ .readable →
      ∀ subscriber ∈ (w.futures.storage.deliverAll entry.owner id result).subscribers, subscriber.ref ≠ ref)
    {w' : ResolveWorld Id Key Owner Result} (hw : w' = { served with
      futures := w.futures.completed id result discard, due := w.dueWith request entry.owner id result }) :
    w'.Ordered request ∧ w'.Guarded ∧ w'.Listed request := by
  have hdue : w.dueWith request entry.owner id result = w.due ++ [(id, result)] := if_pos hmatches
  have hlisted' := hlisted.completed hfutures hstep hentry hpending (fun _ => hmatches.1) href
    (fun ref hsome hreadable => ?_) hreleased
  · rw [← hw] at hlisted'
    rw [hdue] at hw
    exact ⟨hw ▸ hordered.withFutures _, hw ▸ hguarded.withDue hactive _ _, hlisted'⟩
  · obtain ⟨subscriber, hmem, hsame, howner, hids⟩ := hsubscriber ref hsome hreadable
    refine ⟨subscriber, hmem, hsame, howner, hids.trans ?_⟩
    have hawaited : request.target.map (· \ ((w.due ++ [(id, result)]).map Prod.fst).toFinset) =
        (w.awaited request).map (·.erase id) := awaited_concat
    rw [hdue]
    exact hawaited.symm

theorem complete_readable (hordered : w.Ordered request) (hguarded : w.Guarded) (hlisted : w.Listed request)
    (hfutures : w.futures.Invariant maxPending maxCompleted)
    (hstep : FutureStep w.futures (.complete id result) (w.futures.completed id result discard))
    (hentry : w.futures.storage.entries.lookup id = some entry) (hpending : entry.isPending)
    {ref : Nat} (href : w.ref = some ref) (hreadable : w.stream = .readable) {w' : ResolveWorld Id Key Owner Result}
    (hw : w' = { w.completes request id result with futures := w.futures.completed id result discard }) :
    w'.Ordered request ∧ w'.Guarded ∧ w'.Listed request := by
  have hfresh := hlisted.fresh hentry hpending
  have hactive := hguarded.active hreadable href
  obtain ⟨subscriber, hmem, rfl, howner, hids⟩ := hlisted.subscriber ref href hreadable
  have hfound : w.ref.bind (fun ref => w.futures.storage.subscribers.find? (·.ref = ref)) = some subscriber := by
    rw [href]
    exact find_subscriber hfutures hmem
  -- the one who stays with this number is what the delivery leaves of the subscriber
  have hreleased (hnone : (deliver w.futures.storage.subscriberBufferCapacity entry.owner id result subscriber).1 = none) :
      ∀ ref, w.ref = some ref →
        ∀ left ∈ (w.futures.storage.deliverAll entry.owner id result).subscribers, left.ref ≠ ref := by
    intro ref' href' left hleft hsame
    obtain rfl := Option.some.inj (href.symm.trans href')
    cases hnone.symm.trans (mem_deliverAll_of_ref hfutures hmem hleft hsame)
  have hstays {left : Subscriber Id Owner Result}
      (hleft : (deliver w.futures.storage.subscriberBufferCapacity entry.owner id result subscriber).1 = some left) :
      left ∈ (w.futures.storage.deliverAll entry.owner id result).subscribers :=
    List.mem_filterMap.mpr ⟨subscriber, hmem, hleft⟩
  have hserved : w.served entry.owner id result = w.serve (id, result)
      (deliver w.futures.storage.subscriberBufferCapacity entry.owner id result subscriber) := by
    unfold ResolveWorld.served
    rw [hfound]
  rw [completes_of_pending hentry hpending, hserved] at hw
  rcases deliver_cases w.futures.storage.subscriberBufferCapacity entry.owner result howner hids hfresh
    with ⟨hskip, hdeliver⟩ | ⟨hmatches, hcases⟩
  · have hdue : w.dueWith request entry.owner id result = w.due := if_neg fun hdue => hskip hdue.2
    rw [hdeliver] at hw
    replace hw : w' = { w with futures := w.futures.completed id result discard } :=
      hw.trans (congrArg (fun due => { w with futures := w.futures.completed id result discard, due }) hdue)
    have hlisted' := hlisted.completed hfutures hstep hentry hpending (fun hactive => hactive) rfl ?_
      fun ref' _ hstream => absurd hreadable hstream
    · rw [hdue] at hlisted'
      exact ⟨hw ▸ hordered.withFutures _, hw ▸ hguarded.withFutures _, hw ▸ hlisted'⟩
    · intro ref' href' _
      obtain rfl := Option.some.inj (href.symm.trans href')
      rw [hdue]
      exact ⟨subscriber, hstays (by rw [hdeliver]), rfl, howner, hids⟩
  · obtain ⟨href', hstream, hstill⟩ := ref_enqueue w (id, result)
    have hreading : w.phase = .reading none → w.queue = [] := by
      intro hphase
      have hplaced := hguarded.placed
      unfold Placed at hplaced
      rw [hphase] at hplaced
      exact hplaced.2.2.2
    have hqueued : Ordered request { w.enqueue (id, result) with due := w.due ++ [(id, result)] } :=
      hordered.enqueue hfresh hmatches.2 hreadable hreading
    have hguarded' := hguarded.enqueue hreadable hactive (id, result)
    have hawaited : request.target.map (· \ ((w.due ++ [(id, result)]).map Prod.fst).toFinset) =
        (w.awaited request).map (·.erase id) := awaited_concat
    rcases hcases with hdeliver | ⟨hlast, hdeliver⟩ | ⟨controller, hdeliver⟩
    · -- the buffer is full
      rw [hdeliver] at hw
      have herrored : Ordered request { w.error with due := w.due ++ [(id, result)] } :=
        hordered.error.lose hfresh hmatches.2 (fun h => (by cases h)) w.futures
      refine complete_matched hlisted hfutures hstep hentry hpending ⟨hactive, hmatches⟩ herrored (hguarded.error hreadable)
        (active_answered.mpr hactive) rfl ?_ (fun ref' href' _ => hreleased (by rw [hdeliver]) ref' href') hw
      rintro ref' _ ⟨⟩
    · -- it was the last one: the storage closes the stream
      rw [hdeliver] at hw
      have hclosing : Ordered request { (w.enqueue (id, result)).close with due := w.due ++ [(id, result)] } := by
        rw [← hawaited] at hlast
        obtain ⟨target, htarget, hempty⟩ := Option.map_eq_some_iff.mp hlast
        refine hqueued.close (hstream.trans hreadable) htarget fun id' hid' => ?_
        exact List.mem_toFinset.mp (Finset.sdiff_eq_empty_iff_subset.mp hempty hid')
      refine complete_matched hlisted hfutures hstep hentry hpending ⟨hactive, hmatches⟩ hclosing
        (hguarded'.close (hstream.trans hreadable)) (active_answered.mpr (hstill.mpr hactive)) href' ?_
        (fun ref' href' _ => hreleased (by rw [hdeliver]) ref' href') hw
      rintro ref' _ ⟨⟩
    · rw [hdeliver] at hw
      refine complete_matched hlisted hfutures hstep hentry hpending ⟨hactive, hmatches⟩ hqueued hguarded'
        (hstill.mpr hactive) href' ?_ (fun ref' _ hnow => absurd (hstream.trans hreadable) hnow) hw
      intro ref' hsome _
      obtain rfl := Option.some.inj (href.symm.trans hsome)
      exact ⟨{ subscriber with ids := (w.awaited request).map (·.erase id), controller }, hstays (by rw [hdeliver]), rfl,
        howner, rfl⟩

end

/-! ## Every step -/

structure Kept (request : ResolveRequest Id Owner) (maxPending maxCompleted : Limit)
    (w : ResolveWorld Id Key Owner Result) : Prop where
  futures : w.futures.Invariant maxPending maxCompleted
  ordered : w.Ordered request
  guarded : w.Guarded
  listed : w.Listed request

theorem kept_new (request : ResolveRequest Id Owner) (maxPending maxCompleted : Limit) (capacity : Nat) :
    Kept request maxPending maxCompleted
      (new (.init maxPending maxCompleted capacity) : ResolveWorld Id Key Owner Result) where
  futures := invariant_init maxPending maxCompleted capacity
  ordered := ⟨List.nodup_nil, fun _ h => (by cases h), List.nil_prefix, fun h => absurd h id, fun _ => rfl,
    fun h => (by cases h)⟩
  guarded := ⟨⟨rfl, rfl, rfl, rfl, rfl⟩, fun h => absurd h id⟩
  listed := ⟨fun h => absurd h id, fun _ h => (by cases h), fun _ h => (by cases h), fun _ h => (by cases h),
    fun _ h => (by cases h)⟩

theorem invariant_cancelStream (h : w.futures.Invariant maxPending maxCompleted) :
    w.cancelStream.futures.Invariant maxPending maxCompleted := by
  have hunsubscribe : w.unsubscribe.Invariant maxPending maxCompleted := by
    unfold ResolveWorld.unsubscribe
    cases w.ref with
    | none => exact h
    | some ref => exact invariant_unsubscribe h ref
  unfold ResolveWorld.cancelStream
  cases w.stream with
  | cancelled | errored => exact h
  | readable | closing => exact hunsubscribe

theorem invariant_read (h : w.futures.Invariant maxPending maxCompleted) :
    w.read.futures.Invariant maxPending maxCompleted := by
  have hpull : w.pull.Invariant maxPending maxCompleted := by
    unfold ResolveWorld.pull
    cases w.ref with
    | none => exact h
    | some ref => exact invariant_pull h ref
  unfold ResolveWorld.read
  cases w.queue with
  | nil => exact hpull
  | cons result queue => exact hpull

theorem invariant_yieldImmediate (h : w.futures.Invariant maxPending maxCompleted) (results : List (Id × Result)) :
    (w.yieldImmediate request results).futures.Invariant maxPending maxCompleted := by
  cases results with
  | cons result rest => exact h
  | nil =>
    show (w.afterImmediate request).futures.Invariant maxPending maxCompleted
    unfold ResolveWorld.afterImmediate
    split
    · exact invariant_cancelStream h
    · have hread : FutureWorld.Invariant maxPending maxCompleted
          (ResolveWorld.read { w with listening := !w.aborted }).futures := invariant_read h
      exact hread

theorem invariant_afterRead (h : w.futures.Invariant maxPending maxCompleted) (answer : ReadAnswer Id Result) :
    (w.afterRead answer).futures.Invariant maxPending maxCompleted := by
  cases answer with
  | failed => exact invariant_cancelStream h
  | done => exact invariant_cancelStream h
  | value result =>
    show FutureWorld.Invariant maxPending maxCompleted (if w.aborted then w.finallyBlock else _).futures
    split
    · exact invariant_cancelStream h
    · exact h

theorem Kept.resume (h : w.Kept request maxPending maxCompleted) {w' : ResolveWorld Id Key Owner Result}
    (hstep : w.resume request = some w') (hallowed : Allowed request w .resume) :
    w'.Kept request maxPending maxCompleted := by
  have hguarded := guarded_resume h.guarded hstep hallowed
  unfold ResolveWorld.resume at hstep
  cases hphase : w.phase with
  | subscribing results =>
    rw [hphase] at hstep
    obtain rfl := Option.some.inj hstep
    have hactive : w.phase.Active := by rw [hphase]; trivial
    exact ⟨invariant_yieldImmediate h.futures results, h.ordered.yieldImmediate (by rw [hphase]; rfl) hactive, hguarded,
      h.listed.yieldImmediate hactive results⟩
  | reading answer =>
    cases answer with
    | none =>
      rw [hphase] at hstep
      cases hstep
    | some answer =>
      rw [hphase] at hstep
      obtain rfl := Option.some.inj hstep
      have hactive : w.phase.Active := by rw [hphase]; trivial
      exact ⟨invariant_afterRead h.futures answer, h.ordered.afterRead hphase, hguarded, h.listed.afterRead hactive⟩
  | created | immediate _ | yielded | ended =>
    rw [hphase] at hstep
    cases hstep

theorem Kept.next (h : w.Kept request maxPending maxCompleted) {w' : ResolveWorld Id Key Owner Result}
    (hstep : w.next request = some w') (hallowed : Allowed request w .next) :
    w'.Kept request maxPending maxCompleted := by
  have hguarded := guarded_next h.guarded hstep hallowed
  unfold ResolveWorld.next at hstep
  cases hphase : w.phase with
  | created =>
    rw [hphase] at hstep
    obtain rfl := Option.some.inj hstep
    exact ⟨invariant_subscribed h.futures request.ids request.owner, Ordered.subscribe hphase h.guarded h.futures, hguarded,
      Listed.subscribe h.futures⟩
  | immediate rest =>
    rw [hphase] at hstep
    obtain rfl := Option.some.inj hstep
    have hactive : w.phase.Active := by rw [hphase]; trivial
    exact ⟨invariant_yieldImmediate h.futures rest, h.ordered.yieldImmediate (by rw [hphase]; rfl) hactive, hguarded,
      h.listed.yieldImmediate hactive rest⟩
  | yielded =>
    rw [hphase] at hstep
    obtain rfl := Option.some.inj hstep
    have hactive : w.phase.Active := by rw [hphase]; trivial
    by_cases hresolved : w.targetResolved request
    · rw [if_pos hresolved] at hguarded ⊢
      exact ⟨invariant_cancelStream h.futures, h.ordered.finallyBlock, hguarded, h.listed.finallyBlock⟩
    · rw [if_neg hresolved] at hguarded ⊢
      exact ⟨invariant_read h.futures, h.ordered.read (by rw [hphase]; rfl) hactive, hguarded, h.listed.read hactive⟩
  | subscribing _ | reading _ | ended =>
    rw [hphase] at hstep
    cases hstep

theorem Kept.finish (h : w.Kept request maxPending maxCompleted) {w' : ResolveWorld Id Key Owner Result}
    (hstep : w.finish = some w') (hallowed : Allowed request w .finish) : w'.Kept request maxPending maxCompleted := by
  have hguarded := guarded_finish h.guarded hstep hallowed
  have hended : Ordered request { w with phase := .ended } ∧ Listed request { w with phase := .ended } :=
    ⟨h.ordered.ended, h.listed.congr (fun hactive => absurd hactive id) rfl rfl rfl rfl⟩
  unfold ResolveWorld.finish at hstep
  cases hphase : w.phase with
  | created | immediate _ =>
    rw [hphase] at hstep
    obtain rfl := Option.some.inj hstep
    exact ⟨h.futures, hended.1, hguarded, hended.2⟩
  | yielded =>
    rw [hphase] at hstep
    obtain rfl := Option.some.inj hstep
    exact ⟨invariant_cancelStream h.futures, h.ordered.finallyBlock, hguarded, h.listed.finallyBlock⟩
  | subscribing _ | reading _ | ended =>
    rw [hphase] at hstep
    cases hstep

theorem Kept.abort (h : w.Kept request maxPending maxCompleted) : w.abort.Kept request maxPending maxCompleted := by
  refine ⟨?_, h.ordered.abort, h.guarded.abort, h.listed.abort⟩
  unfold ResolveWorld.abort
  split
  · exact invariant_cancelStream h.futures
  · exact h.futures

theorem Kept.complete (h : w.Kept request maxPending maxCompleted) {id : Id} {result : Result} {discard : Bool}
    (hstep : FutureStep w.futures (.complete id result) (w.futures.completed id result discard)) :
    Kept request maxPending maxCompleted
      { w.completes request id result with futures := w.futures.completed id result discard } := by
  have hfutures := invariant_step h.futures hstep
  by_cases hpending : ∃ entry, w.futures.storage.entries.lookup id = some entry ∧ entry.isPending
  · obtain ⟨entry, hentry, hpending⟩ := hpending
    by_cases hover : w.ref = none ∨ w.stream ≠ .readable
    · obtain ⟨hordered, hguarded, hlisted⟩ :=
        complete_over h.ordered h.guarded h.listed h.futures hstep hentry hpending hover rfl
      exact ⟨hfutures, hordered, hguarded, hlisted⟩
    · obtain ⟨href, hreadable⟩ := not_or.mp hover
      obtain ⟨ref, href⟩ := Option.ne_none_iff_exists'.mp href
      obtain ⟨hordered, hguarded, hlisted⟩ := complete_readable h.ordered h.guarded h.listed h.futures hstep hentry hpending
        href (not_not.mp hreadable) rfl
      exact ⟨hfutures, hordered, hguarded, hlisted⟩
  · have hdone (entry : FutureEntry Key Owner Result) (hentry : w.futures.storage.entries.lookup id = some entry) :
        ¬entry.isPending := fun hpends => hpending ⟨entry, hentry, hpends⟩
    rw [completes_again hdone]
    refine ⟨hfutures, h.ordered.withFutures _, h.guarded.withFutures _, h.listed.frame (fun ref _ subscriber _ => ?_) hstep⟩
    rw [subscribers_completed_again h.futures hdone]

theorem Kept.step (h : w.Kept request maxPending maxCompleted) {event : ResolveEvent Id Key Owner Result}
    {w' : ResolveWorld Id Key Owner Result} (hstep : ResolveStep request w event w') (hallowed : Allowed request w event) :
    w'.Kept request maxPending maxCompleted := by
  cases hstep with
  | @storage event futures hstep hforeign =>
    cases event with
    | complete id result =>
      cases hstep with
      | @complete discard _ _ htask => exact h.complete (.complete id result htask)
    | register _ _ | start _ | cancel _ _ _ | subscribe _ _ _ | unsubscribe _ | pull _ =>
      exact ⟨invariant_step h.futures hstep, h.ordered.withFutures _, h.guarded.withFutures _,
        h.listed.others hstep hforeign fun _ _ hne => (by cases hne)⟩
  | resume hstep => exact h.resume hstep hallowed
  | next hstep => exact h.next hstep hallowed
  | finish hstep => exact h.finish hstep hallowed
  | abort => exact h.abort

end ResolveWorld

end Bebop.TypeScript.Rpc
