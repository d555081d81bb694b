import Bebop.Swift.InboundStream

/-!
# Bebop — mapped streams in Swift

`BebopStreams.map` and `PullingMapState` of `BebopStreams.swift`. A worker task waits
for the consumer's demand, takes the next leading element or pulls one from the
source, transforms it and yields it; the consumer waits in the actor. The worker's
program is one state for each place where other turns may come between (`Worker`).
What the source answers a pull with is up to the source (`sourced`).
-/

namespace Bebop.Swift.Rpc

open Bebop.Rpc (StatusCode)
open Transition

/-- `PullingMapState.Status` -/
inductive MapStatus (Output E : Type) where
  | open
  | finished (result : NextResult Output E)

/-- `PullingMapState`. Only the worker waits for demand, so its continuation is there or
not; `termination` says whether the action is still to run. -/
structure PullingMapState (Output E : Type) where
  status : MapStatus Output E
  demand : Bool
  consumer : Option Nat
  termination : Bool

inductive MapEffect (Output E : Type) where
  | resumeDemand
  | resumeConsumer (continuation : Nat) (result : NextResult Output E)
  | terminate

namespace PullingMapState

variable {Output E : Type}

def new : PullingMapState Output E := ⟨.open, false, none, true⟩

/-- `demand?.resume()` -/
def resumeDemand (demand : Bool) : List (MapEffect Output E) := if demand then [.resumeDemand] else []

variable (state : PullingMapState Output E)

def next (continuation : Nat) : PullingMapState Output E × List (MapEffect Output E) :=
  match state.status with
  | .finished result => (state, [.resumeConsumer continuation result])
  | .open =>
    match state.consumer with
    | some _ =>
      (state, [.resumeConsumer continuation (.error (.rpcError .invalidArgument "stream supports one consumer"))])
    | none => ({ state with consumer := some continuation, demand := false }, resumeDemand state.demand)

/-- How the first turn of `waitForDemand` ends. -/
inductive Demand where
  | refused | granted | suspended

def waitForDemand : Demand × PullingMapState Output E :=
  match state.status with
  | .finished _ => (.refused, state)
  | .open => if state.consumer.isSome then (.granted, state) else (.suspended, { state with demand := true })

/-- What `waitForDemand` returns after it was resumed. -/
def stillOpen : Bool :=
  match state.status with
  | .finished _ => false
  | .open => true

def yield (element : Output) : PullingMapState Output E × List (MapEffect Output E) :=
  match state.status, state.consumer with
  | .open, some consumer => ({ state with consumer := none }, [.resumeConsumer consumer (.ok (some element))])
  | _, _ => (state, [])

def finish (result : NextResult Output E) : PullingMapState Output E × List (MapEffect Output E) :=
  match state.status with
  | .finished _ => (state, [])
  | .open =>
    match state.consumer with
    | some consumer =>
      (⟨.finished (.ok none), false, none, false⟩,
        resumeDemand state.demand ++ [.resumeConsumer consumer result] ++
          if state.termination then [.terminate] else [])
    | none =>
      (⟨.finished result, false, none, false⟩,
        resumeDemand state.demand ++ if state.termination then [.terminate] else [])

end PullingMapState

/-! ## The worker -/

/-- Where the worker is. `finishing` is the call of `finish`, also in the `catch`. -/
inductive Worker (Output E : Type) where
  | starting
  | asking
  | suspended
  | resumed
  | granted
  | pulling
  | yielding (output : Output)
  | finishing (result : NextResult Output E)
  | done

/-- A mapped stream. `left` are the leading elements that the worker has not come to, `used`
those it has, `sourced` those the source has answered with. `pulls` counts the calls of the
iterator, `demands` the calls of `next` that became the consumer. -/
structure MapWorld (Input Output E : Type) where
  state : PullingMapState Output E
  worker : Worker Output E
  workerCancelled : Bool
  left : List Input
  used : List Input
  sourced : List Input
  nexts : Calls Unit (NextResult Output E)
  pulls : Nat
  demands : Nat
  terminations : Nat
  detached : Nat

inductive Pulled (Input E : Type) where
  | element (input : Input)
  | finished
  | failed (error : StreamError E)

inductive MapStep (Input E : Type) where
  | sourceReady
  | sourceFails (error : StreamError E)
  | ask
  | recheck
  | proceed
  | answer (pulled : Pulled Input E)
  | yield
  | finish
  | next
  | cancelWorker
  | cancelTask
  | runCancel

namespace MapWorld

variable {Input Output E : Type}

def new (leading : List Input) : MapWorld Input Output E :=
  ⟨.new, .starting, false, leading, [], [], [], 0, 0, 0, 0⟩

variable (transform : Input → Except (StreamError E) Output)

/-- What the worker does with an input: yield what becomes of it, or fail. -/
def transformed (input : Input) : Worker Output E :=
  match transform input with
  | .ok output => .yielding output
  | .error error => .finishing (.error error)

def perform (w : MapWorld Input Output E) : MapEffect Output E → MapWorld Input Output E
  | .resumeDemand => { w with worker := .resumed }
  | .resumeConsumer continuation result => { w with nexts := w.nexts.resume continuation result }
  | .terminate => { w with terminations := w.terminations + 1 }

def turn (w : MapWorld Input Output E) (result : PullingMapState Output E × List (MapEffect Output E)) :
    MapWorld Input Output E :=
  result.2.foldl perform { w with state := result.1 }

/-- The first turn of `waitForDemand`, and where it leaves the worker. -/
def ask (w : MapWorld Input Output E) : MapWorld Input Output E :=
  let (demand, state) := w.state.waitForDemand
  { w with
    state
    worker := match demand with
      | .refused => .done
      | .granted => .granted
      | .suspended => .suspended }

/-- After `waitForDemand`: a leading element while there are any, else a pull. -/
def proceed (w : MapWorld Input Output E) : MapWorld Input Output E :=
  if w.workerCancelled then { w with worker := .finishing (.error .cancellation) }
  else
    match w.left with
    | input :: left => { w with worker := transformed transform input, left, used := w.used ++ [input] }
    | [] => { w with worker := .pulling, pulls := w.pulls + 1 }

def answer (w : MapWorld Input Output E) : Pulled Input E → MapWorld Input Output E
  | .element input => { w with worker := transformed transform input, sourced := w.sourced ++ [input] }
  | .finished => { w with worker := .finishing (.ok none) }
  | .failed error => { w with worker := .finishing (.error error) }

/-- A call of `next`; it may become the consumer. -/
def next (w : MapWorld Input Output E) : MapWorld Input Output E :=
  let result := w.state.next w.nexts.length
  { w with
    nexts := w.nexts.suspend ()
    demands := if w.state.consumer.isNone ∧ result.1.consumer.isSome then w.demands + 1 else w.demands }.turn result

inductive Step : MapWorld Input Output E → MapStep Input E → MapWorld Input Output E → Prop
  | sourceReady {w : MapWorld Input Output E} : w.worker = .starting →
      Step w .sourceReady { w with worker := .asking }
  | sourceFails {w : MapWorld Input Output E} (error : StreamError E) : w.worker = .starting →
      Step w (.sourceFails error) { w with worker := .finishing (.error error) }
  | ask {w : MapWorld Input Output E} : w.worker = .asking → Step w .ask w.ask
  | recheck {w : MapWorld Input Output E} : w.worker = .resumed →
      Step w .recheck { w with worker := if w.state.stillOpen then .granted else .done }
  | proceed {w : MapWorld Input Output E} : w.worker = .granted → Step w .proceed (w.proceed transform)
  | answer {w : MapWorld Input Output E} (pulled : Pulled Input E) : w.worker = .pulling →
      Step w (.answer pulled) (w.answer transform pulled)
  | yield {w : MapWorld Input Output E} {output : Output} : w.worker = .yielding output →
      Step w .yield ({ w with worker := .asking }.turn (w.state.yield output))
  | finish {w : MapWorld Input Output E} {result : NextResult Output E} : w.worker = .finishing result →
      Step w .finish ({ w with worker := .done }.turn (w.state.finish result))
  | next {w : MapWorld Input Output E} : Step w .next w.next
  | cancelWorker {w : MapWorld Input Output E} : Step w .cancelWorker { w with workerCancelled := true }
  | cancelTask {w : MapWorld Input Output E} : Step w .cancelTask { w with detached := w.detached + 1 }
  | runCancel {w : MapWorld Input Output E} : 0 < w.detached →
      Step w .runCancel
        ({ w with detached := w.detached - 1 }.turn (w.state.finish (.error .cancellation)))

/-- What the consumer got, in the order of its calls. -/
def delivered (w : MapWorld Input Output E) : List Output := w.nexts.results InboundWorld.nextElement

/-! ## What a turn keeps -/

def Quiet : Worker Output E → Prop
  | .granted | .pulling | .finishing _ => False
  | _ => True

/-- What holds of a stream whether it is open or not. -/
structure Base (leading : List Input) (w : MapWorld Input Output E) : Prop where
  nexts : w.nexts.Settled InboundWorld.nextElement (w.state.consumer.map fun c => (c, ()))
  leading : leading = w.used ++ w.left
  ordered : w.left ≠ [] → w.sourced = []
  pulling : w.worker = .pulling → w.left = []
  delivered : w.delivered.map .ok <+: (w.used ++ w.sourced).map transform
  demanded : w.used.length + w.pulls ≤ w.demands
  granted : w.worker = .granted → w.used.length + w.pulls + 1 ≤ w.demands
  finishing : ∀ result, w.worker = .finishing result → InboundWorld.nextElement () result = none
  unfinished : w.state.status = .open → w.state.termination = true ∧ w.terminations = 0
  finished : ∀ result, w.state.status = .finished result →
    InboundWorld.nextElement () result = none ∧ w.state.consumer = none ∧ w.terminations = 1

/-- All that was transformed was delivered, but for what the worker holds. -/
def Progress (inputs : List Input) (taken : Nat) (delivered : List Output) : Worker Output E → Prop
  | .starting | .asking | .suspended | .resumed | .granted =>
    inputs.map transform = delivered.map .ok ∧ taken = delivered.length
  | .pulling => inputs.map transform = delivered.map .ok ∧ taken = delivered.length + 1
  | .yielding output => inputs.map transform = (delivered ++ [output]).map .ok ∧ taken = delivered.length + 1
  | .finishing _ => True
  | .done => False

def HoldsDemand : Worker Output E → Prop
  | .resumed | .granted | .pulling | .yielding _ => True
  | _ => False

structure Live (w : MapWorld Input Output E) : Prop where
  progress : Progress transform (w.used ++ w.sourced) (w.used.length + w.pulls) w.delivered w.worker
  demands : w.demands = w.delivered.length + w.state.consumer.toList.length
  held : HoldsDemand w.worker → w.state.consumer ≠ none
  suspended : w.state.demand = true ↔ w.worker = .suspended

structure Sound (leading : List Input) (w : MapWorld Input Output E) : Prop where
  base : w.Base transform leading
  live : w.state.status = .open → w.Live transform

variable {transform} {leading : List Input} {w : MapWorld Input Output E}

theorem sound_new : Sound transform leading (new leading : MapWorld Input Output E) := by
  refine ⟨⟨Calls.Settled.nil, rfl, fun _ => rfl, fun h => (by cases h), List.nil_prefix, Nat.le_refl _,
    fun h => (by cases h), fun _ h => (by cases h), fun _ => ⟨rfl, rfl⟩, fun _ h => (by cases h)⟩, fun _ => ?_⟩
  exact ⟨⟨rfl, rfl⟩, rfl, fun h => (by cases h), ⟨fun h => (by cases h), fun h => (by cases h)⟩⟩

theorem Base.withWorker (h : w.Base transform leading) {worker : Worker Output E} (hquiet : Quiet worker) :
    Base transform leading { w with worker } := by
  refine ⟨h.nexts, h.leading, h.ordered, ?_, h.delivered, h.demanded, ?_, ?_, h.unfinished, h.finished⟩
  · intro hworker
    cases (hworker : worker = .pulling)
    exact absurd hquiet id
  · intro hworker
    cases (hworker : worker = .granted)
    exact absurd hquiet id
  · intro result hworker
    cases (hworker : worker = .finishing result)
    exact absurd hquiet id

theorem Base.fails (h : w.Base transform leading) {result : NextResult Output E}
    (hresult : InboundWorld.nextElement () result = none) :
    Base transform leading { w with worker := .finishing result } := by
  refine ⟨h.nexts, h.leading, h.ordered, fun hworker => (by cases hworker), h.delivered, h.demanded,
    fun hworker => (by cases hworker), ?_, h.unfinished, h.finished⟩
  intro result' hworker
  cases hworker
  exact hresult

theorem Live.fails (h : w.Live transform) (hworker : w.worker ≠ .suspended) {result : NextResult Output E} :
    Live transform { w with worker := .finishing result } := by
  refine ⟨trivial, h.demands, fun hheld => absurd hheld id, ?_⟩
  exact iff_of_false (h.suspended.not.mpr hworker) fun hsuspended => (by cases hsuspended)

theorem Sound.fails (h : w.Sound transform leading) (hworker : w.worker ≠ .suspended) {result : NextResult Output E}
    (hresult : InboundWorld.nextElement () result = none) :
    Sound transform leading { w with worker := .finishing result } :=
  ⟨h.base.fails hresult, fun hopen => (h.live hopen).fails hworker⟩

theorem Base.resumeDemand (h : w.Base transform leading) (demand : Bool) :
    Base transform leading ((PullingMapState.resumeDemand demand).foldl perform w) := by
  cases demand with
  | false => exact h
  | true => exact h.withWorker trivial

theorem turn_finish_finished {result : NextResult Output E} (h : w.state.status ≠ .open) :
    w.turn (w.state.finish result) = w := by
  obtain ⟨⟨status, demand, consumer, termination⟩, _⟩ := w
  cases status with
  | «open» => exact absurd rfl h
  | finished result => rfl

theorem Base.finish (h : w.Base transform leading) {result : NextResult Output E}
    (hresult : InboundWorld.nextElement () result = none) :
    Base transform leading (w.turn (w.state.finish result)) ∧ (w.turn (w.state.finish result)).state.status ≠ .open := by
  by_cases hopen : w.state.status = .open
  case neg =>
    rw [turn_finish_finished hopen]
    exact ⟨h, hopen⟩
  obtain ⟨htermination, hterminations⟩ := h.unfinished hopen
  obtain ⟨⟨status, demand, consumer, termination⟩, worker, cancelled, left, used, sourced, nexts, pulls, demands,
    terminations, detached⟩ := w
  subst hopen htermination hterminations
  -- nobody was given an element, so what was delivered is the same
  have hworker : Base transform leading
      ((PullingMapState.resumeDemand demand).foldl perform
        ⟨⟨.open, demand, consumer, true⟩, worker, cancelled, left, used, sourced, nexts, pulls, demands, 0, detached⟩) :=
    h.resumeDemand demand
  cases consumer with
  | none =>
    cases demand <;>
      exact ⟨⟨hworker.nexts, hworker.leading, hworker.ordered, hworker.pulling, hworker.delivered, hworker.demanded,
        hworker.granted, hworker.finishing, fun hstatus => (by cases hstatus),
        fun _ hstatus => (by cases hstatus; exact ⟨hresult, rfl, rfl⟩)⟩, fun hstatus => (by cases hstatus)⟩
  | some consumer =>
    have hsame : Calls.results InboundWorld.nextElement (Calls.resume nexts consumer result) =
        Calls.results InboundWorld.nextElement nexts := by
      rw [h.nexts.results_resume, hresult]
      exact List.append_nil _
    have hdelivered : List.map .ok (Calls.results InboundWorld.nextElement (Calls.resume nexts consumer result)) <+:
        (used ++ sourced).map transform := by
      rw [hsame]
      exact h.delivered
    cases demand <;>
      exact ⟨⟨h.nexts.resume result, hworker.leading, hworker.ordered, hworker.pulling, hdelivered, hworker.demanded,
        hworker.granted, hworker.finishing, fun hstatus => (by cases hstatus),
        fun _ hstatus => (by cases hstatus; exact ⟨rfl, rfl, rfl⟩)⟩, fun hstatus => (by cases hstatus)⟩

theorem Base.finishes (h : w.Base transform leading) {result : NextResult Output E}
    (hresult : InboundWorld.nextElement () result = none) :
    Sound transform leading (w.turn (w.state.finish result)) := by
  obtain ⟨hbase, hfinished⟩ := h.finish hresult
  exact ⟨hbase, fun hopen => absurd hopen hfinished⟩

/-! ## The steps -/

theorem Base.withDemand (h : w.Base transform leading) (demand : Bool) :
    Base transform leading { w with state := { w.state with demand } } :=
  ⟨h.nexts, h.leading, h.ordered, h.pulling, h.delivered, h.demanded, h.granted, h.finishing, h.unfinished, h.finished⟩

theorem Sound.grants (h : w.Sound transform leading) (hopen : w.state.status = .open)
    (hconsumer : w.state.consumer ≠ none)
    (hworker : w.worker = .asking ∨ w.worker = .resumed) : Sound transform leading { w with worker := .granted } := by
  have hb := h.base
  have hlive := h.live hopen
  have hprogress : (w.used ++ w.sourced).map transform = w.delivered.map .ok ∧
      w.used.length + w.pulls = w.delivered.length := by
    have hold := hlive.progress
    rcases hworker with hworker | hworker
    · rw [hworker] at hold
      exact hold
    · rw [hworker] at hold
      exact hold
  have hdemands : w.used.length + w.pulls + 1 ≤ w.demands := by
    obtain ⟨consumer, hwaits⟩ := Option.ne_none_iff_exists'.mp hconsumer
    have hcount := hlive.demands
    rw [hwaits] at hcount
    have hcount' : w.demands = w.delivered.length + 1 := hcount
    omega
  have hawake : w.worker ≠ .suspended := by
    intro hsuspended
    rcases hworker with hworker | hworker
    · cases hworker.symm.trans hsuspended
    · cases hworker.symm.trans hsuspended
  refine ⟨⟨hb.nexts, hb.leading, hb.ordered, fun hpulling => (by cases hpulling), hb.delivered, hb.demanded,
    fun _ => hdemands, fun _ hfinishing => (by cases hfinishing), hb.unfinished, hb.finished⟩, fun _ => ?_⟩
  refine ⟨hprogress, hlive.demands, fun _ => hconsumer, ?_⟩
  exact iff_of_false (hlive.suspended.not.mpr hawake) fun hsuspended => (by cases hsuspended)

theorem Sound.ask (h : w.Sound transform leading) (hworker : w.worker = .asking) : Sound transform leading w.ask := by
  obtain ⟨⟨status, demand, consumer, termination⟩, worker, cancelled, left, used, sourced, nexts, pulls, demands,
    terminations, detached⟩ := w
  obtain rfl : worker = .asking := hworker
  cases status with
  | finished result => exact ⟨h.base.withWorker trivial, fun hopen => (by cases hopen)⟩
  | «open» =>
    cases consumer with
    | some consumer => exact h.grants rfl (Option.some_ne_none consumer) (.inl rfl)
    | none =>
      have hlive := h.live rfl
      have hbase : Base transform leading ⟨⟨.open, demand, none, termination⟩, .suspended, cancelled, left, used, sourced,
        nexts, pulls, demands, terminations, detached⟩ := h.base.withWorker trivial
      exact ⟨hbase.withDemand true,
        fun _ => ⟨hlive.progress, hlive.demands, fun hheld => absurd hheld id, iff_of_true rfl rfl⟩⟩

theorem Sound.recheck (h : w.Sound transform leading) (hworker : w.worker = .resumed) :
    Sound transform leading { w with worker := if w.state.stillOpen then .granted else .done } := by
  obtain ⟨⟨status, demand, consumer, termination⟩, worker, cancelled, left, used, sourced, nexts, pulls, demands,
    terminations, detached⟩ := w
  obtain rfl : worker = .resumed := hworker
  cases status with
  | finished result => exact ⟨h.base.withWorker trivial, fun hopen => (by cases hopen)⟩
  | «open» => exact h.grants rfl ((h.live rfl).held trivial) (.inr rfl)

theorem Base.transformed (h : w.Base transform leading) (input : Input) {left used sourced : List Input}
    (hleading : leading = used ++ left) (hordered : left ≠ [] → sourced = [])
    (hinputs : used ++ sourced = w.used ++ w.sourced ++ [input]) (hdemanded : used.length + w.pulls ≤ w.demands) :
    Base transform leading { w with worker := MapWorld.transformed transform input, left, used, sourced } := by
  have hdelivered : w.delivered.map .ok <+: (used ++ sourced).map transform := by
    rw [hinputs, List.map_append]
    exact h.delivered.trans (List.prefix_append _ _)
  unfold MapWorld.transformed
  cases transform input with
  | ok output =>
    exact ⟨h.nexts, hleading, hordered, fun hpulling => (by cases hpulling), hdelivered, hdemanded,
      fun hgranted => (by cases hgranted), fun _ hfinishing => (by cases hfinishing), h.unfinished, h.finished⟩
  | error error =>
    exact ⟨h.nexts, hleading, hordered, fun hpulling => (by cases hpulling), hdelivered, hdemanded,
      fun hgranted => (by cases hgranted), fun _ hfinishing => (by cases hfinishing; rfl), h.unfinished, h.finished⟩

theorem Live.transformed (h : w.Live transform) (input : Input) {left used sourced : List Input}
    (hheld : HoldsDemand w.worker) (hmapped : (w.used ++ w.sourced).map transform = w.delivered.map .ok)
    (hinputs : used ++ sourced = w.used ++ w.sourced ++ [input])
    (hpulls : used.length + w.pulls = w.delivered.length + 1) :
    Live transform { w with worker := MapWorld.transformed transform input, left, used, sourced } := by
  have hawake : w.worker ≠ .suspended := fun hsuspended => (by rw [hsuspended] at hheld; exact hheld)
  unfold MapWorld.transformed
  cases hresult : transform input with
  | ok output =>
    refine ⟨⟨?_, hpulls⟩, h.demands, fun _ => h.held hheld, ?_⟩
    · show (used ++ sourced).map transform = (w.delivered ++ [output]).map .ok
      rw [hinputs, List.map_append, hmapped, List.map_append, List.map_singleton, List.map_singleton, hresult]
    · exact iff_of_false (h.suspended.not.mpr hawake) fun hsuspended => (by cases hsuspended)
  | error error =>
    refine ⟨trivial, h.demands, fun hheld => absurd hheld id, ?_⟩
    exact iff_of_false (h.suspended.not.mpr hawake) fun hsuspended => (by cases hsuspended)

theorem Sound.proceed (h : w.Sound transform leading) (hworker : w.worker = .granted) :
    Sound transform leading (w.proceed transform) := by
  obtain ⟨state, worker, cancelled, left, used, sourced, nexts, pulls, demands, terminations, detached⟩ := w
  obtain rfl : worker = .granted := hworker
  have hgranted : used.length + pulls + 1 ≤ demands := h.base.granted rfl
  unfold MapWorld.proceed
  cases cancelled with
  | true => exact h.fails (fun hsuspended => (by cases hsuspended)) rfl
  | false =>
    cases left with
    | cons input left =>
      -- the next leading element; the source was not asked yet
      obtain rfl : sourced = [] := h.base.ordered (List.cons_ne_nil input left)
      have hleading : leading = used ++ [input] ++ left := by
        rw [List.append_assoc]
        exact h.base.leading
      have hinputs : used ++ [input] ++ [] = used ++ [] ++ [input] := by rw [List.append_nil, List.append_nil]
      have hlength : (used ++ [input]).length + pulls = used.length + pulls + 1 := by
        rw [List.length_append, List.length_singleton, Nat.add_right_comm]
      refine ⟨h.base.transformed input hleading (fun _ => rfl) hinputs (by rw [hlength]; exact hgranted), fun hopen => ?_⟩
      have hlive := h.live hopen
      obtain ⟨hmapped, hpulls⟩ := hlive.progress
      exact hlive.transformed input trivial hmapped hinputs (by rw [hlength, hpulls])
    | nil =>
      have hb := h.base
      refine ⟨⟨hb.nexts, hb.leading, hb.ordered, fun _ => rfl, hb.delivered, hgranted, fun hworker => (by cases hworker),
        fun _ hworker => (by cases hworker), hb.unfinished, hb.finished⟩, fun hopen => ?_⟩
      have hlive := h.live hopen
      obtain ⟨hmapped, hpulls⟩ := hlive.progress
      refine ⟨⟨hmapped, congrArg (· + 1) hpulls⟩, hlive.demands, fun _ => hlive.held trivial, ?_⟩
      exact iff_of_false (hlive.suspended.not.mpr fun hsuspended => (by cases hsuspended))
        fun hsuspended => (by cases hsuspended)

theorem Sound.answer (h : w.Sound transform leading) (hworker : w.worker = .pulling) (pulled : Pulled Input E) :
    Sound transform leading (w.answer transform pulled) := by
  obtain ⟨state, worker, cancelled, left, used, sourced, nexts, pulls, demands, terminations, detached⟩ := w
  obtain rfl : worker = .pulling := hworker
  cases pulled with
  | element input =>
    -- the leading elements are all used
    obtain rfl : left = [] := h.base.pulling rfl
    have hinputs : used ++ (sourced ++ [input]) = used ++ sourced ++ [input] := (List.append_assoc ..).symm
    refine ⟨h.base.transformed input h.base.leading (fun hne => absurd rfl hne) hinputs h.base.demanded, fun hopen => ?_⟩
    have hlive := h.live hopen
    obtain ⟨hmapped, hpulls⟩ := hlive.progress
    exact hlive.transformed input trivial hmapped hinputs hpulls
  | finished => exact h.fails (fun hsuspended => (by cases hsuspended)) rfl
  | failed error => exact h.fails (fun hsuspended => (by cases hsuspended)) rfl

theorem Sound.yield (h : w.Sound transform leading) {output : Output} (hworker : w.worker = .yielding output) :
    Sound transform leading ({ w with worker := .asking }.turn (w.state.yield output)) := by
  obtain ⟨⟨status, demand, consumer, termination⟩, worker, cancelled, left, used, sourced, nexts, pulls, demands,
    terminations, detached⟩ := w
  obtain rfl : worker = .yielding output := hworker
  cases status with
  | finished result =>
    -- nobody waits any more: the element is dropped
    exact ⟨h.base.withWorker trivial, fun hopen => (by cases hopen)⟩
  | «open» =>
    have hlive := h.live rfl
    obtain ⟨hmapped, hpulls⟩ := hlive.progress
    obtain ⟨waiting, rfl⟩ : ∃ waiting, consumer = some waiting := Option.ne_none_iff_exists'.mp (hlive.held trivial)
    have hresults : Calls.results InboundWorld.nextElement (Calls.resume nexts waiting (.ok (some output))) =
        Calls.results InboundWorld.nextElement nexts ++ [output] := h.base.nexts.results_resume _
    have hlength : (Calls.results InboundWorld.nextElement (Calls.resume nexts waiting (.ok (some output)))).length =
        (Calls.results InboundWorld.nextElement nexts).length + 1 := by
      rw [hresults, List.length_append, List.length_singleton]
    have hnow : (used ++ sourced).map transform =
        (Calls.results InboundWorld.nextElement (Calls.resume nexts waiting (.ok (some output)))).map .ok := by
      rw [hresults]
      exact hmapped
    have hb := h.base
    refine ⟨⟨hb.nexts.resume _, hb.leading, hb.ordered, fun hpulling => (by cases hpulling), ?_, hb.demanded,
      fun hgranted => (by cases hgranted), fun _ hfinishing => (by cases hfinishing), hb.unfinished,
      fun _ hfinished => (by cases hfinished)⟩, fun _ => ?_⟩
    · exact ⟨[], (List.append_nil _).trans hnow.symm⟩
    · refine ⟨⟨hnow, hpulls.trans hlength.symm⟩, ?_, fun hheld => absurd hheld id, ?_⟩
      · exact hlive.demands.trans hlength.symm
      · exact iff_of_false (hlive.suspended.not.mpr fun hsuspended => (by cases hsuspended))
          fun hsuspended => (by cases hsuspended)

theorem Sound.refuse (h : w.Sound transform leading) {result : NextResult Output E}
    (hresult : InboundWorld.nextElement () result = none) :
    Sound transform leading
      ({ w with nexts := w.nexts.suspend () }.turn (w.state, [.resumeConsumer w.nexts.length result])) := by
  have hsame : Calls.results InboundWorld.nextElement ((w.nexts.suspend ()).resume w.nexts.length result) =
      w.delivered := by
    rw [Calls.Settled.results_answer, hresult]
    exact List.append_nil _
  have hb := h.base
  have hdelivered : List.map .ok (Calls.results InboundWorld.nextElement
      ((w.nexts.suspend ()).resume w.nexts.length result)) <+: (w.used ++ w.sourced).map transform := by
    rw [hsame]
    exact hb.delivered
  refine ⟨⟨hb.nexts.answer () result fun _ => hresult, hb.leading, hb.ordered, hb.pulling, hdelivered, hb.demanded,
    hb.granted, hb.finishing, hb.unfinished, hb.finished⟩, fun hopen => ?_⟩
  have hlive := h.live hopen
  have hprogress : Progress transform (w.used ++ w.sourced) (w.used.length + w.pulls)
      (Calls.results InboundWorld.nextElement ((w.nexts.suspend ()).resume w.nexts.length result)) w.worker := by
    rw [hsame]
    exact hlive.progress
  have hcount : w.demands = (Calls.results InboundWorld.nextElement
      ((w.nexts.suspend ()).resume w.nexts.length result)).length + w.state.consumer.toList.length := by
    rw [hsame]
    exact hlive.demands
  exact ⟨hprogress, hcount, hlive.held, hlive.suspended⟩

theorem Sound.demands (h : w.Sound transform leading) (hopen : w.state.status = .open)
    (hnone : w.state.consumer = none) {worker : Worker Output E} (hworker : w.worker = worker ∨
      w.worker = .suspended ∧ worker = .resumed) (hawake : worker ≠ .suspended) :
    Sound transform leading
      { w with
        state := { w.state with consumer := some w.nexts.length, demand := false }
        worker
        nexts := w.nexts.suspend ()
        demands := w.demands + 1 } := by
  have hsame : Calls.results InboundWorld.nextElement (w.nexts.suspend ()) = w.delivered := Calls.results_suspend
  have hb := h.base
  have hlive := h.live hopen
  have hnexts : w.nexts.Settled InboundWorld.nextElement none := by
    have hsettled := hb.nexts
    rw [hnone] at hsettled
    exact hsettled
  have hdelivered : List.map .ok (Calls.results InboundWorld.nextElement (w.nexts.suspend ())) <+:
      (w.used ++ w.sourced).map transform := by
    rw [hsame]
    exact hb.delivered
  have hcount : w.demands + 1 = (Calls.results InboundWorld.nextElement (w.nexts.suspend ())).length + 1 := by
    have hbefore := hlive.demands
    rw [hnone] at hbefore
    rw [hsame, hbefore]
    rfl
  have hprogress : Progress transform (w.used ++ w.sourced) (w.used.length + w.pulls)
      (Calls.results InboundWorld.nextElement (w.nexts.suspend ())) worker := by
    rw [hsame]
    rcases hworker with rfl | ⟨hsuspended, rfl⟩
    · exact hlive.progress
    · have hbefore := hlive.progress
      rw [hsuspended] at hbefore
      exact hbefore
  -- the worker that is resumed is neither pulling nor done
  have hwas {worker' : Worker Output E} (hnot : worker' ≠ .resumed) (heq : worker = worker') : w.worker = worker' := by
    rcases hworker with rfl | ⟨-, rfl⟩
    · exact heq
    · exact absurd heq.symm hnot
  refine ⟨⟨hnexts.suspend (), hb.leading, hb.ordered, fun heq => hb.pulling (hwas (fun hne => (by cases hne)) heq),
    hdelivered, Nat.le_succ_of_le hb.demanded,
    fun heq => Nat.le_succ_of_le (hb.granted (hwas (fun hne => (by cases hne)) heq)),
    fun result heq => hb.finishing result (hwas (fun hne => (by cases hne)) heq), hb.unfinished,
    fun result hfinished => (by cases hopen.symm.trans hfinished)⟩, fun _ => ?_⟩
  exact ⟨hprogress, hcount, fun _ => Option.some_ne_none _, iff_of_false Bool.false_ne_true hawake⟩

theorem Sound.next (h : w.Sound transform leading) : Sound transform leading w.next := by
  obtain ⟨⟨status, demand, consumer, termination⟩, worker, cancelled, left, used, sourced, nexts, pulls, demands,
    terminations, detached⟩ := w
  cases status with
  | finished result =>
    have hquiet := (h.base.finished result rfl).1
    cases consumer with
    | none => exact h.refuse hquiet
    | some consumer => exact h.refuse hquiet
  | «open» =>
    cases consumer with
    | some consumer => exact h.refuse rfl
    | none =>
      have hsuspended := (h.live rfl).suspended
      cases demand with
      | false => exact h.demands rfl rfl (.inl rfl) fun hworker => (by cases hsuspended.mpr hworker)
      | true => exact h.demands rfl rfl (.inr ⟨hsuspended.mp rfl, rfl⟩) fun hworker => (by cases hworker)

theorem Sound.step {w' : MapWorld Input Output E} {l : MapStep Input E} (h : w.Sound transform leading)
    (hstep : Step transform w l w') : w'.Sound transform leading := by
  cases hstep with
  | sourceReady hworker =>
    refine ⟨h.base.withWorker trivial, fun hopen => ?_⟩
    have hlive := h.live hopen
    have hprogress := hlive.progress
    rw [hworker] at hprogress
    refine ⟨hprogress, hlive.demands, fun hheld => absurd hheld id, ?_⟩
    have hawake : w.worker ≠ .suspended := fun hsuspended => (by cases hworker.symm.trans hsuspended)
    exact iff_of_false (hlive.suspended.not.mpr hawake) fun hsuspended => (by cases hsuspended)
  | sourceFails error hworker => exact h.fails (fun hsuspended => (by cases hworker.symm.trans hsuspended)) rfl
  | ask hworker => exact h.ask hworker
  | recheck hworker => exact h.recheck hworker
  | proceed hworker => exact h.proceed hworker
  | answer pulled hworker => exact h.answer hworker pulled
  | yield hworker => exact h.yield hworker
  | finish hworker =>
    have hdone : Base transform leading { w with worker := .done } := h.base.withWorker trivial
    exact hdone.finishes (h.base.finishing _ hworker)
  | next => exact h.next
  | cancelWorker =>
    have hb := h.base
    refine ⟨⟨hb.nexts, hb.leading, hb.ordered, hb.pulling, hb.delivered, hb.demanded, hb.granted, hb.finishing,
      hb.unfinished, hb.finished⟩, fun hopen => ?_⟩
    have hlive := h.live hopen
    exact ⟨hlive.progress, hlive.demands, hlive.held, hlive.suspended⟩
  | cancelTask =>
    have hb := h.base
    refine ⟨⟨hb.nexts, hb.leading, hb.ordered, hb.pulling, hb.delivered, hb.demanded, hb.granted, hb.finishing,
      hb.unfinished, hb.finished⟩, fun hopen => ?_⟩
    have hlive := h.live hopen
    exact ⟨hlive.progress, hlive.demands, hlive.held, hlive.suspended⟩
  | runCancel _ =>
    have hb := h.base
    have hbefore : Base transform leading { w with detached := w.detached - 1 } :=
      ⟨hb.nexts, hb.leading, hb.ordered, hb.pulling, hb.delivered, hb.demanded, hb.granted, hb.finishing,
        hb.unfinished, hb.finished⟩
    exact hbefore.finishes rfl

/-! ## Every run -/

/-- What the consumer of a mapped stream and its source rely on. -/
structure Delivers (transform : Input → Except (StreamError E) Output) (leading : List Input)
    (w : MapWorld Input Output E) : Prop where
  /-- The consumer has got what becomes of the first of the leading and then the source's
  elements, in order. -/
  delivered : ∃ inputs, inputs <+: leading ++ w.sourced ∧ inputs.map transform = w.delivered.map .ok
  /-- Each element that is taken, pulled or leading, has a demand of its own. -/
  demanded : w.used.length + w.pulls ≤ w.demands
  nextsOnce : ∀ call ∈ w.nexts, call.resumed.length ≤ 1
  terminatedOnce : w.terminations ≤ 1
  terminated : w.state.status ≠ .open → w.terminations = 1

theorem Sound.delivers (h : w.Sound transform leading) : w.Delivers transform leading := by
  have hb := h.base
  refine ⟨?_, hb.demanded, hb.nexts.le_one, ?_, ?_⟩
  · refine ⟨(w.used ++ w.sourced).take w.delivered.length, ?_, ?_⟩
    · refine (List.take_prefix _ _).trans ?_
      rw [hb.leading]
      by_cases hleft : w.left = []
      · have hall : w.used ++ w.left ++ w.sourced = w.used ++ w.sourced := by rw [hleft, List.append_nil]
        exact ⟨[], (List.append_nil _).trans hall.symm⟩
      · rw [hb.ordered hleft, List.append_nil, List.append_nil]
        exact List.prefix_append _ _
    · have hprefix := List.prefix_iff_eq_take.mp hb.delivered
      rw [List.length_map] at hprefix
      rw [List.map_take]
      exact hprefix.symm
  · cases hstatus : w.state.status with
    | «open» =>
      have hzero : w.terminations = 0 := (hb.unfinished hstatus).2
      omega
    | finished result => exact Nat.le_of_eq (hb.finished result hstatus).2.2
  · intro hfinished
    cases hstatus : w.state.status with
    | «open» => exact absurd hstatus hfinished
    | finished result => exact (hb.finished result hstatus).2.2

theorem delivers {ls : List (MapStep Input E)} (hrun : Run (Step transform) (new leading) ls w) :
    w.Delivers transform leading := by
  have hsound : w.Sound transform leading := hrun.invariant (fun _ _ _ h hstep => h.step hstep) sound_new
  exact hsound.delivers

end MapWorld

/-- Under every interleaving, request streams hand over each element once and in order and
leave no call behind, and mapped streams deliver what was transformed, pull on demand
and end once. -/
theorem streams_lose_nothing {E : Type} :
    (∀ (Element : Type) (ls : List (InboundStep Element E)) (w : InboundWorld Element E),
      Run InboundWorld.Step InboundWorld.new ls w → w.Rendezvous) ∧
    (∀ (Input Output : Type) (transform : Input → Except (StreamError E) Output) (leading : List Input)
      (ls : List (MapStep Input E)) (w : MapWorld Input Output E),
      Run (MapWorld.Step transform) (MapWorld.new leading) ls w → w.Delivers transform leading) :=
  ⟨fun _ _ _ hrun => InboundWorld.rendezvous hrun, fun _ _ _ _ _ _ hrun => MapWorld.delivers hrun⟩

/-- A receiver that waits for the element 5, and a stream that doubles the leading 2. -/
theorem streams_lose_nothing_five : (∃ w : InboundWorld Nat Unit, w.received = [5] ∧ w.Rendezvous) ∧
    ∃ w : MapWorld Nat Nat Unit, w.delivered = [4] ∧ w.Delivers (fun n => .ok (2 * n)) [2] := by
  refine ⟨⟨_, ?_, streams_lose_nothing.1 Nat _ _ (.cons .next (.cons (.send 5) (.nil _)))⟩,
    ⟨_, ?_, streams_lose_nothing.2 Nat Nat _ [2] _ _ (.cons (.sourceReady rfl) (.cons .next (.cons (.ask rfl)
      (.cons (.proceed rfl) (.cons (.yield rfl) (.nil _))))))⟩⟩
  · rfl
  · rfl

end Bebop.Swift.Rpc
