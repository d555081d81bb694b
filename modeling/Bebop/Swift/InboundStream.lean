import Bebop.Lib.Continuations
import Bebop.Lib.Transition
import Bebop.Swift.Frame

/-!
# Bebop — request streams in Swift

`RpcInboundState` of `BebopStreams.swift`: the rendezvous of the side that sends requests
and the handler that receives them. An actor keeps at most one receiver and one sender that
wait, each by its continuation. The functions here are the turns of the actor; they return
the continuations that they resume. A task that is cancelled during its call starts a
detached task that calls `cancel`, at any time.
-/

namespace Bebop.Swift.Rpc

open Bebop.Rpc (StatusCode)
open Transition

/-- `any Error`: a `BebopRpcError`, a `CancellationError`, or another one. -/
inductive StreamError (E : Type) where
  | rpcError (code : StatusCode) (detail : String)
  | cancellation
  | other (error : E)
  deriving DecidableEq

/-- `RpcInboundState.Status` -/
inductive InboundStatus (E : Type) where
  | open
  | finished (error : Option (StreamError E))

/-- `RpcInboundState`; a continuation is the place of its call. -/
structure RpcInboundState (Element E : Type) where
  status : InboundStatus E
  receiver : Option Nat
  sender : Option (Element × Nat)

abbrev SendResult (E : Type) := Except (StreamError E) Unit

abbrev NextResult (Element E : Type) := Except (StreamError E) (Option Element)

inductive Resumption (Element E : Type) where
  | send (continuation : Nat) (result : SendResult E)
  | next (continuation : Nat) (result : NextResult Element E)

namespace RpcInboundState

variable {Element E : Type}

def new : RpcInboundState Element E := ⟨.open, none, none⟩

/-- What a sender gets when the stream was finished without an error of its own. -/
def closedError : StreamError E := .rpcError .cancelled "request stream is closed"

def send (state : RpcInboundState Element E) (element : Element) (continuation : Nat) :
    RpcInboundState Element E × List (Resumption Element E) :=
  match state.status with
  | .finished error => (state, [.send continuation (.error (error.getD closedError))])
  | .open =>
    match state.receiver with
    | some receiver =>
      ({ state with receiver := none }, [.next receiver (.ok (some element)), .send continuation (.ok ())])
    | none =>
      match state.sender with
      | none => ({ state with sender := some (element, continuation) }, [])
      | some _ =>
        (state, [.send continuation (.error (.rpcError .invalidArgument "concurrent sends are not supported"))])

def next (state : RpcInboundState Element E) (continuation : Nat) :
    RpcInboundState Element E × List (Resumption Element E) :=
  match state.status with
  | .finished (some error) => (state, [.next continuation (.error error)])
  | .finished none => (state, [.next continuation (.ok none)])
  | .open =>
    match state.sender with
    | some (element, sender) =>
      ({ state with sender := none }, [.send sender (.ok ()), .next continuation (.ok (some element))])
    | none =>
      match state.receiver with
      | none => ({ state with receiver := some continuation }, [])
      | some _ =>
        (state, [.next continuation (.error (.rpcError .invalidArgument "request stream supports one consumer"))])

/-- `finish(throwing:)` -/
def finish (state : RpcInboundState Element E) (error : Option (StreamError E)) :
    RpcInboundState Element E × List (Resumption Element E) :=
  match state.status with
  | .finished _ => (state, [])
  | .open =>
    ({ status := .finished error, receiver := none, sender := none },
      (match state.receiver with
        | none => []
        | some receiver =>
          match error with
          | some error => [.next receiver (.error error)]
          | none => [.next receiver (.ok none)]) ++
      (match state.sender with
        | none => []
        | some (_, sender) => [.send sender (.error (error.getD closedError))]))

def cancel (state : RpcInboundState Element E) : RpcInboundState Element E × List (Resumption Element E) :=
  state.finish (some .cancellation)

end RpcInboundState

/-! ## Runs -/

/-- A stream, its calls, and how many detached tasks are to call `cancel`. -/
structure InboundWorld (Element E : Type) where
  state : RpcInboundState Element E
  sends : Calls Element (SendResult E)
  nexts : Calls Unit (NextResult Element E)
  detached : Nat

inductive InboundStep (Element E : Type) where
  | send (element : Element)
  | next
  | finish (error : Option (StreamError E))
  | cancelTask
  | runCancel

namespace InboundWorld

variable {Element E : Type}

def new : InboundWorld Element E := ⟨.new, [], [], 0⟩

def resume (w : InboundWorld Element E) : Resumption Element E → InboundWorld Element E
  | .send continuation result => { w with sends := w.sends.resume continuation result }
  | .next continuation result => { w with nexts := w.nexts.resume continuation result }

def turn (w : InboundWorld Element E) (result : RpcInboundState Element E × List (Resumption Element E)) :
    InboundWorld Element E :=
  result.2.foldl resume { w with state := result.1 }

inductive Step : InboundWorld Element E → InboundStep Element E → InboundWorld Element E → Prop
  | send {w : InboundWorld Element E} (element : Element) :
      Step w (.send element)
        ({ w with sends := w.sends.suspend element }.turn (w.state.send element w.sends.length))
  | next {w : InboundWorld Element E} :
      Step w .next ({ w with nexts := w.nexts.suspend () }.turn (w.state.next w.nexts.length))
  | finish {w : InboundWorld Element E} (error : Option (StreamError E)) :
      Step w (.finish error) (w.turn (w.state.finish error))
  | cancelTask {w : InboundWorld Element E} : Step w .cancelTask { w with detached := w.detached + 1 }
  | runCancel {w : InboundWorld Element E} : 0 < w.detached →
      Step w .runCancel ({ w with detached := w.detached - 1 }.turn w.state.cancel)

/-- The element of a call of `send` that returned without error. -/
def sentElement (element : Element) : SendResult E → Option Element
  | .ok () => some element
  | .error _ => none

/-- The element that a call of `next` returned. -/
def nextElement (_ : Unit) : NextResult Element E → Option Element
  | .ok element => element
  | .error _ => none

/-- The elements whose send returned without error, in send order. -/
def sent (w : InboundWorld Element E) : List Element := w.sends.results sentElement

/-- The elements that `next` returned, in the order of its calls. -/
def received (w : InboundWorld Element E) : List Element := w.nexts.results nextElement

/-- The element and the continuation that a sender waits with. -/
def waitingSend (w : InboundWorld Element E) : Option (Nat × Element) :=
  w.state.sender.map fun (element, continuation) => (continuation, element)

def waitingNext (w : InboundWorld Element E) : Option (Nat × Unit) := w.state.receiver.map fun c => (c, ())

structure Matched (w : InboundWorld Element E) : Prop where
  sends : w.sends.Settled sentElement w.waitingSend
  nexts : w.nexts.Settled nextElement w.waitingNext
  notBoth : w.state.receiver = none ∨ w.state.sender = none
  finished : w.state.status ≠ .open → w.state.receiver = none ∧ w.state.sender = none
  exact : w.received = w.sent

theorem matched_new : Matched (new : InboundWorld Element E) :=
  ⟨Calls.Settled.nil, Calls.Settled.nil, .inl rfl, fun _ => ⟨rfl, rfl⟩, rfl⟩

/-! ## The turns -/

section

variable {w : InboundWorld Element E}

theorem Matched.refuseSend (h : w.Matched) (element : Element) (error : StreamError E) :
    Matched ({ w with sends := w.sends.suspend element }.turn (w.state, [.send w.sends.length (.error error)])) := by
  refine ⟨h.sends.answer element (.error error) fun _ => rfl, h.nexts, h.notBoth, h.finished, ?_⟩
  show w.received = Calls.results sentElement ((w.sends.suspend element).resume w.sends.length (.error error))
  rw [Calls.Settled.results_answer, h.exact]
  exact (List.append_nil _).symm

theorem Matched.refuseNext (h : w.Matched) {result : NextResult Element E} (hresult : nextElement () result = none) :
    Matched ({ w with nexts := w.nexts.suspend () }.turn (w.state, [.next w.nexts.length result])) := by
  refine ⟨h.sends, h.nexts.answer () result fun _ => hresult, h.notBoth, h.finished, ?_⟩
  show Calls.results nextElement ((w.nexts.suspend ()).resume w.nexts.length result) = w.sent
  rw [Calls.Settled.results_answer, hresult]
  exact (List.append_nil _).trans h.exact

theorem Matched.send (h : w.Matched) (element : Element) :
    Matched ({ w with sends := w.sends.suspend element }.turn (w.state.send element w.sends.length)) := by
  obtain ⟨⟨status, receiver, sender⟩, sends, nexts, detached⟩ := w
  cases status with
  | finished error => exact h.refuseSend element _
  | «open» =>
    cases receiver with
    | some receiver =>
      -- the receiver that waits gets the element, and the sender goes on
      have hnone : sender = none := h.notBoth.resolve_left (Option.some_ne_none receiver)
      subst hnone
      refine ⟨h.sends.answer element (.ok ()) fun hne => absurd rfl hne, h.nexts.resume _, .inl rfl,
        fun _ => ⟨rfl, rfl⟩, ?_⟩
      show Calls.results nextElement (Calls.resume nexts receiver (.ok (some element))) =
        Calls.results sentElement ((Calls.suspend sends element).resume sends.length (.ok ()))
      rw [h.nexts.results_resume, Calls.Settled.results_answer]
      exact congrArg (· ++ [element]) h.exact
    | none =>
      cases sender with
      | none =>
        refine ⟨h.sends.suspend element, h.nexts, .inl rfl, fun hne => absurd rfl hne, ?_⟩
        show Calls.results nextElement nexts = Calls.results sentElement (sends.suspend element)
        rw [Calls.results_suspend]
        exact h.exact
      | some sender => exact h.refuseSend element _

theorem Matched.next (h : w.Matched) :
    Matched ({ w with nexts := w.nexts.suspend () }.turn (w.state.next w.nexts.length)) := by
  obtain ⟨⟨status, receiver, sender⟩, sends, nexts, detached⟩ := w
  cases status with
  | finished error =>
    cases error with
    | none => exact h.refuseNext rfl
    | some error => exact h.refuseNext rfl
  | «open» =>
    cases sender with
    | some sender =>
      -- the sender that waits hands its element over
      obtain ⟨element, sender⟩ := sender
      have hnone : receiver = none := h.notBoth.resolve_right (Option.some_ne_none (element, sender))
      subst hnone
      refine ⟨h.sends.resume _, h.nexts.answer () (.ok (some element)) fun hne => absurd rfl hne, .inl rfl,
        fun _ => ⟨rfl, rfl⟩, ?_⟩
      show Calls.results nextElement ((Calls.suspend nexts ()).resume nexts.length (.ok (some element))) =
        Calls.results sentElement (Calls.resume sends sender (.ok ()))
      rw [h.sends.results_resume, Calls.Settled.results_answer]
      exact congrArg (· ++ [element]) h.exact
    | none =>
      cases receiver with
      | none =>
        refine ⟨h.sends, h.nexts.suspend (), .inr rfl, fun hne => absurd rfl hne, ?_⟩
        show Calls.results nextElement (nexts.suspend ()) = Calls.results sentElement sends
        rw [Calls.results_suspend]
        exact h.exact
      | some receiver => exact h.refuseNext rfl

theorem Matched.finishSend {element : Element} {sender : Nat} {sends : Calls Element (SendResult E)}
    (h : sends.Settled sentElement (some (sender, element))) (error : StreamError E) :
    Calls.Settled sentElement (sends.resume sender (.error error)) none ∧
      (sends.resume sender (.error error)).results sentElement = sends.results sentElement := by
  refine ⟨h.resume _, ?_⟩
  rw [h.results_resume]
  exact List.append_nil _

theorem Matched.finishNext {receiver : Nat} {nexts : Calls Unit (NextResult Element E)}
    (h : nexts.Settled nextElement (some (receiver, ()))) {result : NextResult Element E}
    (hresult : nextElement () result = none) :
    Calls.Settled nextElement (nexts.resume receiver result) none ∧
      (nexts.resume receiver result).results nextElement = nexts.results nextElement := by
  refine ⟨h.resume _, ?_⟩
  rw [h.results_resume, hresult]
  exact List.append_nil _

theorem Matched.finish (h : w.Matched) (error : Option (StreamError E)) :
    Matched (w.turn (w.state.finish error)) := by
  obtain ⟨⟨status, receiver, sender⟩, sends, nexts, detached⟩ := w
  obtain ⟨hsends, hnexts, hboth, hfinished, hexact⟩ := h
  cases status with
  | finished error' => exact ⟨hsends, hnexts, hboth, hfinished, hexact⟩
  | «open» =>
    cases receiver with
    | some receiver =>
      have hnone : sender = none := hboth.resolve_left (Option.some_ne_none receiver)
      subst hnone
      cases error with
      | none =>
        have hnothing : nextElement () (.ok none : NextResult Element E) = none := rfl
        obtain ⟨hnexts', hsame⟩ := finishNext hnexts hnothing
        exact ⟨hsends, hnexts', .inl rfl, fun _ => ⟨rfl, rfl⟩, hsame.trans hexact⟩
      | some error =>
        have hnothing : nextElement () (.error error : NextResult Element E) = none := rfl
        obtain ⟨hnexts', hsame⟩ := finishNext hnexts hnothing
        exact ⟨hsends, hnexts', .inl rfl, fun _ => ⟨rfl, rfl⟩, hsame.trans hexact⟩
    | none =>
      cases sender with
      | none => exact ⟨hsends, hnexts, .inl rfl, fun _ => ⟨rfl, rfl⟩, hexact⟩
      | some sender =>
        obtain ⟨element, sender⟩ := sender
        obtain ⟨hsends', hsame⟩ := finishSend hsends (error.getD RpcInboundState.closedError)
        exact ⟨hsends', hnexts, .inl rfl, fun _ => ⟨rfl, rfl⟩, hexact.trans hsame.symm⟩

end

theorem Matched.step {w w' : InboundWorld Element E} {l : InboundStep Element E} (h : w.Matched)
    (hstep : Step w l w') : w'.Matched := by
  cases hstep with
  | send element => exact h.send element
  | next => exact h.next
  | finish error => exact h.finish error
  | cancelTask => exact ⟨h.sends, h.nexts, h.notBoth, h.finished, h.exact⟩
  | runCancel _ =>
    have hbefore : Matched { w with detached := w.detached - 1 } :=
      ⟨h.sends, h.nexts, h.notBoth, h.finished, h.exact⟩
    exact hbefore.finish (some .cancellation)

/-! ## Every run -/

structure Rendezvous (w : InboundWorld Element E) : Prop where
  /-- A continuation is resumed at most once. -/
  sendsOnce : ∀ call ∈ w.sends, call.resumed.length ≤ 1
  nextsOnce : ∀ call ∈ w.nexts, call.resumed.length ≤ 1
  notBoth : ¬(w.state.sender.isSome ∧ w.state.receiver.isSome)
  /-- Every call that came to the actor is over once the stream is finished. -/
  finished : w.state.status ≠ .open → w.sends.Returned ∧ w.nexts.Returned
  /-- Elements are neither lost nor delivered twice, and keep their order. -/
  exact : w.received = w.sent

theorem Matched.rendezvous {w : InboundWorld Element E} (h : w.Matched) : w.Rendezvous := by
  refine ⟨h.sends.le_one, h.nexts.le_one, ?_, ?_, h.exact⟩
  · rintro ⟨hsender, hreceiver⟩
    rcases h.notBoth with hnone | hnone
    · rw [hnone] at hreceiver
      cases hreceiver
    · rw [hnone] at hsender
      cases hsender
  · intro hfinished
    obtain ⟨hreceiver, hsender⟩ := h.finished hfinished
    have hsends := h.sends
    have hnexts := h.nexts
    rw [waitingSend, hsender] at hsends
    rw [waitingNext, hreceiver] at hnexts
    exact ⟨hsends, hnexts⟩

theorem rendezvous {w : InboundWorld Element E} {ls : List (InboundStep Element E)} (hrun : Run Step new ls w) :
    w.Rendezvous := by
  have hmatched : w.Matched := hrun.invariant (fun _ _ _ h hstep => h.step hstep) matched_new
  exact hmatched.rendezvous

end InboundWorld

end Bebop.Swift.Rpc
