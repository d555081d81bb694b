import Bebop.Lib.DropQueue
import Bebop.Lib.Transition

/-!
# Bebop — cursors of response streams

A handler emits cursors through the context of its call, on the side of the elements it
produces, and the generated stub takes the next one for each element. So the element waits
in the source and its cursor in the queue of the context. `CallStream` is one such call,
with any schedule. What the two runtimes differ in is the queue (`CursorQueue`).
-/

namespace Bebop.Rpc

open Transition

/-- The cursor queue of a context, with the cursors it stands for. -/
structure CursorQueue (Queue Cursor : Type) where
  empty : Queue
  emitCursor : Queue → Cursor → Queue
  dequeueCursor : Queue → Option Cursor × Queue
  contents : Queue → List Cursor
  contents_empty : contents empty = []
  contents_emitCursor : ∀ q c, contents (emitCursor q c) = contents q ++ [c]
  dequeueCursor_fst : ∀ q, (dequeueCursor q).1 = (contents q).head?
  dequeueCursor_snd : ∀ q, contents (dequeueCursor q).2 = (contents q).tail

/-- A response and the cursor that its frame carries. -/
structure StreamElement (Value Cursor : Type) where
  value : Value
  cursor : Option Cursor
  deriving DecidableEq

/-- A call while its response stream is open. What the handler has `produced` comes with its
cursor; the stage has not taken the `buffered` elements yet, nor handed the `mapped` over. -/
structure CallStream (Queue Value Cursor : Type) where
  cursors : Queue
  emitted : Option Cursor
  produced : List (StreamElement Value Cursor)
  buffered : List (StreamElement Value Cursor)
  requests : Nat
  mapped : List (StreamElement Value Cursor)
  delivered : List (StreamElement Value Cursor)
  stopped : Bool

inductive CursorStep (Value Cursor : Type) where
  | emit (cursor : Cursor)
  | produce (value : Value)
  | request
  | take
  | deliver
  | stop

namespace CallStream

variable {Queue Value Cursor : Type} {queue : CursorQueue Queue Cursor}

def new (queue : CursorQueue Queue Cursor) : CallStream Queue Value Cursor :=
  ⟨queue.empty, none, [], [], 0, [], [], false⟩

/-- An element of the handler's with the cursor that the context hands out. -/
def transform (queue : CursorQueue Queue Cursor) (cursors : Queue) (element : StreamElement Value Cursor) :
    StreamElement Value Cursor :=
  ⟨element.value, (queue.dequeueCursor cursors).1⟩

/-- The handler emits at most one cursor for an element, before it produces it; the stage
takes one when it was asked. A cancellation, the deadline or an error stop the stage. -/
inductive Step (queue : CursorQueue Queue Cursor) :
    CallStream Queue Value Cursor → CursorStep Value Cursor → CallStream Queue Value Cursor → Prop
  | emit {s : CallStream Queue Value Cursor} {cursor : Cursor} : s.emitted = none →
      Step queue s (.emit cursor) { s with cursors := queue.emitCursor s.cursors cursor, emitted := some cursor }
  | produce {s : CallStream Queue Value Cursor} {value : Value} :
      Step queue s (.produce value)
        { s with
          produced := s.produced ++ [⟨value, s.emitted⟩]
          buffered := s.buffered ++ [⟨value, s.emitted⟩]
          emitted := none }
  | request {s : CallStream Queue Value Cursor} : Step queue s .request { s with requests := s.requests + 1 }
  | take {s : CallStream Queue Value Cursor} {element : StreamElement Value Cursor}
      {rest : List (StreamElement Value Cursor)} :
      s.stopped = false → s.mapped.length < s.requests → s.buffered = element :: rest →
      Step queue s .take
        { s with
          cursors := (queue.dequeueCursor s.cursors).2
          buffered := rest
          mapped := s.mapped ++ [transform queue s.cursors element] }
  | deliver {s : CallStream Queue Value Cursor} {element : StreamElement Value Cursor}
      {rest : List (StreamElement Value Cursor)} : s.mapped = element :: rest →
      Step queue s .deliver
        { s with requests := s.requests - 1, mapped := rest, delivered := s.delivered ++ [element] }
  | stop {s : CallStream Queue Value Cursor} : Step queue s .stop { s with stopped := true }

def handed (s : CallStream Queue Value Cursor) : List (StreamElement Value Cursor) := s.delivered ++ s.mapped

/-- Each response carries the cursor the handler emitted for it, or none. -/
structure Paired (s : CallStream Queue Value Cursor) : Prop where
  delivered : s.delivered <+: s.produced
  handed : s.handed <+: s.produced

/-- No cursor of a later element is waiting when a plain element is taken. -/
def InStep (queue : CursorQueue Queue Cursor) (s : CallStream Queue Value Cursor) :
    CursorStep Value Cursor → Prop
  | .take => ∀ element, s.buffered.head? = some element → element.cursor = none → queue.contents s.cursors = []
  | _ => True

/-! ## Pairing -/

/-- The cursors of the buffered elements, and the one emitted for the next. -/
def owned (s : CallStream Queue Value Cursor) : List Cursor :=
  s.buffered.filterMap StreamElement.cursor ++ s.emitted.toList

structure Aligned (queue : CursorQueue Queue Cursor) (s : CallStream Queue Value Cursor) : Prop where
  cursors : queue.contents s.cursors = s.owned
  elements : s.produced = s.handed ++ s.buffered

theorem Aligned.paired {s : CallStream Queue Value Cursor} (h : Aligned queue s) : s.Paired := by
  have hhanded : s.handed <+: s.produced := by
    rw [h.elements]
    exact List.prefix_append _ _
  exact ⟨(List.prefix_append _ _).trans hhanded, hhanded⟩

theorem aligned_new (queue : CursorQueue Queue Cursor) :
    Aligned queue (new queue : CallStream Queue Value Cursor) :=
  ⟨queue.contents_empty, rfl⟩

theorem Aligned.transform_eq {s : CallStream Queue Value Cursor} {element : StreamElement Value Cursor}
    {rest : List (StreamElement Value Cursor)} (h : Aligned queue s) (hbuffered : s.buffered = element :: rest)
    (hin : InStep queue s .take) : transform queue s.cursors element = element := by
  obtain ⟨value, cursor⟩ := element
  have hcontents := h.cursors
  unfold transform
  rw [queue.dequeueCursor_fst]
  cases cursor with
  | none =>
    have hempty : queue.contents s.cursors = [] := hin ⟨value, none⟩ (by rw [hbuffered, List.head?_cons]) rfl
    rw [hempty, List.head?_nil]
  | some cursor =>
    -- the head of the queue belongs to the head of the buffer
    rw [hcontents, owned, hbuffered]
    rfl

theorem Aligned.step {s s' : CallStream Queue Value Cursor} {l : CursorStep Value Cursor}
    (h : Aligned queue s) (hstep : Step queue s l s') (hin : InStep queue s l) : Aligned queue s' := by
  obtain ⟨hcursors, helements⟩ := h
  cases hstep with
  | @emit cursor hnone =>
    refine ⟨?_, helements⟩
    show queue.contents (queue.emitCursor s.cursors cursor) = s.buffered.filterMap StreamElement.cursor ++ [cursor]
    rw [queue.contents_emitCursor, hcursors, owned, hnone, Option.toList_none, List.append_nil]
  | @produce value =>
    refine ⟨?_, ?_⟩
    · show queue.contents s.cursors =
        List.filterMap StreamElement.cursor (s.buffered ++ [⟨value, s.emitted⟩]) ++ (none : Option Cursor).toList
      rw [hcursors, owned, List.filterMap_append, Option.toList_none, List.append_nil]
      cases s.emitted <;> rfl
    · show s.produced ++ [⟨value, s.emitted⟩] = s.handed ++ (s.buffered ++ [⟨value, s.emitted⟩])
      rw [helements, List.append_assoc]
  | request => exact ⟨hcursors, helements⟩
  | @take element rest _ _ hbuffered =>
    have heq : transform queue s.cursors element = element :=
      Aligned.transform_eq ⟨hcursors, helements⟩ hbuffered hin
    refine ⟨?_, ?_⟩
    · show queue.contents (queue.dequeueCursor s.cursors).2 =
        rest.filterMap StreamElement.cursor ++ s.emitted.toList
      rw [queue.dequeueCursor_snd]
      obtain ⟨value, cursor⟩ := element
      cases cursor with
      | none =>
        have hempty : queue.contents s.cursors = [] :=
          hin ⟨value, none⟩ (by rw [hbuffered, List.head?_cons]) rfl
        have howned : rest.filterMap StreamElement.cursor ++ s.emitted.toList = queue.contents s.cursors := by
          rw [hcursors, owned, hbuffered]
          rfl
        rw [howned, hempty, List.tail_nil]
      | some cursor =>
        rw [hcursors, owned, hbuffered]
        rfl
    · show s.produced = s.delivered ++ (s.mapped ++ [transform queue s.cursors element]) ++ rest
      rw [heq, helements, handed, hbuffered, List.append_assoc, List.append_assoc, List.append_assoc]
      rfl
  | @deliver element rest hmapped =>
    refine ⟨hcursors, ?_⟩
    show s.produced = s.delivered ++ [element] ++ rest ++ s.buffered
    rw [helements, handed, hmapped, List.append_assoc s.delivered [element]]
    rfl
  | stop => exact ⟨hcursors, helements⟩

theorem getElem?_of_prefix {xs ys : List (StreamElement Value Cursor)} {i : Nat} {element : StreamElement Value Cursor}
    (hxs : xs <+: ys) (h : xs[i]? = some element) : ys[i]? = some element := by
  obtain ⟨more, rfl⟩ := hxs
  rw [List.getElem?_append_left (List.getElem?_eq_some_iff.mp h).1]
  exact h

/-- A response has left the stage with the wrong cursor. -/
def Mispaired (s : CallStream Queue Value Cursor) : Prop :=
  ∃ (i : Nat) (element own : StreamElement Value Cursor),
    s.handed[i]? = some element ∧ s.produced[i]? = some own ∧ element ≠ own

theorem Mispaired.not_paired {s : CallStream Queue Value Cursor} (h : s.Mispaired) : ¬s.Paired := by
  intro hpaired
  obtain ⟨i, element, own, hhanded, hproduced, hne⟩ := h
  have hsame : s.produced[i]? = some element := getElem?_of_prefix hpaired.handed hhanded
  exact hne (Option.some.inj (hsame.symm.trans hproduced))

theorem Step.grows {s s' : CallStream Queue Value Cursor} {l : CursorStep Value Cursor}
    (hstep : Step queue s l s') : s.handed <+: s'.handed ∧ s.produced <+: s'.produced := by
  cases hstep with
  | emit _ => exact ⟨List.prefix_rfl, List.prefix_rfl⟩
  | produce => exact ⟨List.prefix_rfl, List.prefix_append _ _⟩
  | request => exact ⟨List.prefix_rfl, List.prefix_rfl⟩
  | @take element rest _ _ _ =>
    refine ⟨?_, List.prefix_rfl⟩
    show s.delivered ++ s.mapped <+: s.delivered ++ (s.mapped ++ [transform queue s.cursors element])
    rw [← List.append_assoc]
    exact List.prefix_append _ _
  | @deliver element rest hmapped =>
    refine ⟨?_, List.prefix_rfl⟩
    have hsame : s.delivered ++ s.mapped = s.delivered ++ [element] ++ rest := by
      rw [hmapped, List.append_assoc, List.singleton_append]
    exact ⟨[], (List.append_nil _).trans hsame⟩
  | stop => exact ⟨List.prefix_rfl, List.prefix_rfl⟩

theorem Mispaired.step {s s' : CallStream Queue Value Cursor} {l : CursorStep Value Cursor}
    (h : s.Mispaired) (hstep : Step queue s l s') : s'.Mispaired := by
  obtain ⟨i, element, own, hhanded, hproduced, hne⟩ := h
  obtain ⟨hmore, hproduces⟩ := hstep.grows
  exact ⟨i, element, own, getElem?_of_prefix hmore hhanded, getElem?_of_prefix hproduces hproduced, hne⟩

theorem Aligned.mispaired {s s' : CallStream Queue Value Cursor} {l : CursorStep Value Cursor}
    (h : Aligned queue s) (hstep : Step queue s l s') (hout : ¬InStep queue s l) : s'.Mispaired := by
  cases hstep with
  | emit _ => exact absurd trivial hout
  | produce => exact absurd trivial hout
  | request => exact absurd trivial hout
  | @take element rest _ _ hbuffered =>
    have helement : s.buffered.head? = some element := by rw [hbuffered, List.head?_cons]
    have hplain : element.cursor = none := by
      by_contra hcursor
      refine hout fun element' helement' hplain => ?_
      obtain rfl := Option.some.inj (helement.symm.trans helement')
      exact absurd hplain hcursor
    have hnonempty : queue.contents s.cursors ≠ [] := fun hempty => hout fun _ _ _ => hempty
    refine ⟨s.handed.length, transform queue s.cursors element, element, ?_, ?_, ?_⟩
    · show (s.delivered ++ (s.mapped ++ [transform queue s.cursors element]))[s.handed.length]? = _
      rw [← List.append_assoc]
      exact List.getElem?_concat_length
    · show s.produced[s.handed.length]? = some element
      rw [h.elements, List.getElem?_append_right (Nat.le_refl _), Nat.sub_self, hbuffered]
      rfl
    · intro heq
      have hcursor : (queue.dequeueCursor s.cursors).1 = none := (congrArg StreamElement.cursor heq).trans hplain
      rw [queue.dequeueCursor_fst] at hcursor
      exact hnonempty (List.head?_eq_none_iff.mp hcursor)
  | deliver _ => exact absurd trivial hout
  | stop => exact absurd trivial hout

theorem paired_iff {s : CallStream Queue Value Cursor} {ls : List (CursorStep Value Cursor)}
    (hrun : Run (Step queue) (new queue) ls s) :
    s.Paired ↔ Run (Restrict (Step queue) (InStep queue)) (new queue) ls s := by
  constructor
  · intro hpaired
    have hgeneral {s₀ : CallStream Queue Value Cursor} (haligned : Aligned queue s₀)
        (hrun : Run (Step queue) s₀ ls s) : Run (Restrict (Step queue) (InStep queue)) s₀ ls s := by
      clear * - hpaired haligned hrun
      induction hrun with
      | nil s => exact .nil s
      | @cons s₀ s₁ s l ls hone hrest ih =>
        by_cases hin : InStep queue s₀ l
        · exact .cons ⟨hone, hin⟩ (ih hpaired (haligned.step hone hin))
        · -- the wrong cursor stays with its element until the end of the run
          have hwrong : s.Mispaired :=
            hrest.invariant (I := Mispaired) (fun _ _ _ h hstep => h.step hstep) (haligned.mispaired hone hin)
          exact absurd hpaired hwrong.not_paired
    exact hgeneral (aligned_new queue) hrun
  · intro hin
    have haligned : Aligned queue s :=
      hin.invariant (fun _ _ _ h hstep => h.step hstep.1 hstep.2) (aligned_new queue)
    exact haligned.paired

/-! ## Handlers in step -/

end CallStream

end Bebop.Rpc

/-!
## The cursor queues of the two runtimes

`enqueueCursor` and `dequeueCursor` of `rpc/context.ts` push and shift an array.
`emitCursor` and `dequeueCursor` of `RpcContext.swift` keep the index of the next cursor,
and cut the array when enough of it is used. `mapStream` of `rpc/router.ts` and
`BebopStreams.map` with the closures of `GenerateService.swift` are the stages.
-/

namespace Bebop.TypeScript.Rpc

/-- `RpcContext.cursors`; a cursor is a bigint. -/
abbrev Cursors := List Int

namespace Cursors

def enqueueCursor (cursors : Cursors) (cursor : Int) : Cursors := cursors ++ [cursor]

def dequeueCursor : Cursors → Option Int × Cursors
  | [] => (none, [])
  | cursor :: cursors => (some cursor, cursors)

def queue : Bebop.Rpc.CursorQueue Cursors Int where
  empty := []
  emitCursor := enqueueCursor
  dequeueCursor := dequeueCursor
  contents := id
  contents_empty := rfl
  contents_emitCursor _ _ := rfl
  dequeueCursor_fst cursors := by cases cursors <;> rfl
  dequeueCursor_snd cursors := by cases cursors <;> rfl

end Cursors

end Bebop.TypeScript.Rpc

namespace Bebop.Swift.Rpc

/-- `cursorQueue` and `cursorIndex`. -/
abbrev CursorState := DropQueue UInt64

namespace CursorState

variable (state : CursorState)

def emitCursor (value : UInt64) : CursorState := state.push value

/-- `removeFirst(cursorIndex)`, once that is worth it. -/
def compacted : CursorState :=
  if 64 ≤ state.head ∧ state.values.length / 2 ≤ state.head then
    ⟨state.values.drop state.head, 0, Nat.zero_le _⟩
  else state

def dequeueCursor : Option UInt64 × CursorState :=
  if h : state.head < state.values.length then
    (some (state.front h), compacted ⟨state.values, state.head + 1, h⟩)
  else (none, state)

theorem live_compacted : (compacted state).live = state.live := by
  unfold compacted
  split
  · rfl
  · rfl

theorem dequeueCursor_fst : (dequeueCursor state).1 = state.live.head? := by
  unfold dequeueCursor
  split
  case isTrue h => rw [DropQueue.live_eq_cons h, List.head?_cons]
  case isFalse h =>
    have hempty : state.live = [] := not_not.mp (DropQueue.head_lt_iff.not.mp h)
    rw [hempty, List.head?_nil]

theorem dequeueCursor_snd : (dequeueCursor state).2.live = state.live.tail := by
  unfold dequeueCursor
  split
  case isTrue h =>
    show (compacted ⟨state.values, state.head + 1, h⟩).live = state.live.tail
    rw [live_compacted, DropQueue.live, DropQueue.live, List.tail_drop]
  case isFalse h =>
    have hempty : state.live = [] := not_not.mp (DropQueue.head_lt_iff.not.mp h)
    rw [hempty, List.tail_nil]

def queue : Bebop.Rpc.CursorQueue CursorState UInt64 where
  empty := DropQueue.empty
  emitCursor := emitCursor
  dequeueCursor := dequeueCursor
  contents := DropQueue.live
  contents_empty := rfl
  contents_emitCursor := DropQueue.live_push
  dequeueCursor_fst := dequeueCursor_fst
  dequeueCursor_snd := dequeueCursor_snd

end CursorState

end Bebop.Swift.Rpc

namespace Bebop.Rpc

open Transition
open CallStream

/-- A cursor for the second response, emitted before the first is taken. -/
def runsAhead {Cursor : Type} (cursor : Cursor) : List (CursorStep String Cursor) :=
  [.produce "first", .emit cursor, .produce "second", .request, .take, .deliver]

theorem runsAhead_delivers {Queue Cursor : Type} (queue : CursorQueue Queue Cursor) (cursor : Cursor) :
    ∃ s : CallStream Queue String Cursor, Run (Step queue) (new queue) (runsAhead cursor) s ∧
      s.delivered = [⟨"first", some cursor⟩] ∧ s.produced = [⟨"first", none⟩, ⟨"second", some cursor⟩] := by
  have hcursor : (queue.dequeueCursor (queue.emitCursor queue.empty cursor)).1 = some cursor := by
    rw [queue.dequeueCursor_fst, queue.contents_emitCursor, queue.contents_empty]
    rfl
  refine ⟨_, .cons .produce (.cons (.emit rfl) (.cons .produce (.cons .request
    (.cons (.take rfl Nat.zero_lt_one rfl) (.cons (.deliver rfl) (.nil _)))))), ?_, rfl⟩
  show [transform queue (queue.emitCursor queue.empty cursor) ⟨"first", none⟩] = _
  rw [transform, hcursor]

/-- The call after the consumer has asked for an element. -/
def asked {Queue Cursor : Type} (queue : CursorQueue Queue Cursor) : CallStream Queue String Cursor :=
  { new queue with requests := 1 }

end Bebop.Rpc
