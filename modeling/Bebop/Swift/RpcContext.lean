import Bebop.Rpc.Router

/-!
# Bebop — call contexts in Swift

`RpcContext` of `RpcContext.swift`, with what the router does to contexts on the way to a
batch entry. None of them keeps a link to the context it starts from. A context is an
object, here its place in a list (`ContextWorld`); the steps are the calls that make or
change one, in any order. Of the attachments the peer information is modelled.
-/

set_option linter.unusedSectionVars false

namespace Bebop.Swift.Rpc

open Bebop.Rpc
open Transition

variable {Text Peer Limits : Type} [DecidableEq Text] [Inhabited Limits]

structure RpcContext (Text Peer Limits : Type) where
  methodId : UInt32
  metadata : Metadata Text
  deadline : Option Int
  cursor : UInt64
  cancelled : Bool
  decodeLimits : Limits
  peer : Option Peer

namespace RpcContext

/-- `init`; without a method the first argument is 0. -/
def new (methodId : UInt32) (metadata : Metadata Text) (deadline : Option Int) (cursor : UInt64) :
    RpcContext Text Peer Limits :=
  ⟨methodId, metadata, deadline, cursor, false, default, none⟩

variable (context : RpcContext Text Peer Limits)

def setDecodeLimits (limits : Limits) : RpcContext Text Peer Limits :=
  { context with decodeLimits := limits }

/-- `deriving(appending:)` -/
def derivingAppending (extra : Metadata Text) : RpcContext Text Peer Limits :=
  (new 0 (context.metadata.merge extra) context.deadline context.cursor).setDecodeLimits
    context.decodeLimits

def forwarding : RpcContext Text Peer Limits :=
  (new 0 context.metadata context.deadline context.cursor).setDecodeLimits context.decodeLimits

def binding (methodId : UInt32) : RpcContext Text Peer Limits :=
  (new methodId context.metadata context.deadline context.cursor).setDecodeLimits
    context.decodeLimits

def makeBatchContext (methodId : UInt32)
    (upstreamMetadata : Metadata Text) : RpcContext Text Peer Limits :=
  (new methodId (context.metadata.merge upstreamMetadata) context.deadline 0).setDecodeLimits
    context.decodeLimits

/-- `innerCtx` of `handleDispatch` -/
def dispatched (methodId : UInt32)
    (metadata : Option (Metadata Text)) (deadline : Option Int) : RpcContext Text Peer Limits :=
  let innerContext : RpcContext Text Peer Limits :=
    new methodId (context.metadata.merge (metadata.getD ∅)) deadline 0
  { innerContext with peer := context.peer }

def facts : ContextFacts Text Peer :=
  ⟨context.metadata, context.deadline, context.peer⟩

end RpcContext

/-! ## Chains -/

/-- The ways a handler has to make the context of a downstream call of its own. -/
inductive Derivation (Text : Type) where
  | derivingAppending (extra : Metadata Text)
  | forwarding

def RpcContext.derive (context : RpcContext Text Peer Limits) :
    Derivation Text → RpcContext Text Peer Limits
  | .derivingAppending extra => context.derivingAppending extra
  | .forwarding => context.forwarding

theorem deadline_derive (chain : List (Derivation Text)) (context : RpcContext Text Peer Limits) :
    (chain.foldl RpcContext.derive context).deadline = context.deadline := by
  induction chain generalizing context with
  | nil => rfl
  | cons step chain ih =>
    rw [List.foldl_cons, ih]
    cases step <;> rfl

/-! ## Runs -/

/-- A call of `handleBatch`: its context, the one derived, and the metadata. -/
structure RunningBatch (Text : Type) where
  enclosing : Nat
  context : Nat
  metadata : Metadata Text

structure ContextWorld (Text Peer Limits : Type) where
  contexts : List (RpcContext Text Peer Limits)
  batches : List (RunningBatch Text)
  entries : List (BatchEntry Text Peer)

inductive ContextEvent (Text Peer Limits : Type) where
  | new (context : RpcContext Text Peer Limits)
  | attach (context : Nat) (peer : Option Peer)
  | setDecodeLimits (context : Nat) (limits : Limits)
  | derive (context : Nat) (step : Derivation Text)
  | binding (context : Nat) (methodId : UInt32)
  | dispatch (context : Nat) (methodId : UInt32) (metadata : Option (Metadata Text))
      (deadline : Option Int)
  | batch (context : Nat) (metadata : Metadata Text)
  | entry (batch : RunningBatch Text) (methodId : UInt32) (upstreamMetadata : Metadata Text)
  | cancel (context : Nat)

namespace ContextWorld

def init : ContextWorld Text Peer Limits := ⟨[], [], []⟩

variable (world : ContextWorld Text Peer Limits)

def isCancelled (context : Nat) : Bool :=
  (world.contexts[context]?).any (·.cancelled)

def push (context : RpcContext Text Peer Limits) : ContextWorld Text Peer Limits :=
  { world with contexts := world.contexts ++ [context] }

def update (context : Nat) (change : RpcContext Text Peer Limits → RpcContext Text Peer Limits) :
    ContextWorld Text Peer Limits :=
  { world with contexts := world.contexts.modify context change }

/-- `handleBatch` derives the context of the batch. -/
def startBatch (enclosing : Nat)
    (context : RpcContext Text Peer Limits) (metadata : Metadata Text) :
    ContextWorld Text Peer Limits :=
  { world.push (context.derivingAppending metadata) with
    batches := ⟨enclosing, world.contexts.length, metadata⟩ :: world.batches }

/-- `executeBatchCall` makes the context of a call's handler. -/
def startEntry (batch : RunningBatch Text)
    (enclosing context : RpcContext Text Peer Limits) (methodId : UInt32)
    (upstreamMetadata : Metadata Text) : ContextWorld Text Peer Limits :=
  let callContext := context.makeBatchContext methodId upstreamMetadata
  { world.push callContext with
    entries := ⟨batch.enclosing, world.contexts.length, batch.metadata, upstreamMetadata,
      enclosing.facts, callContext.facts⟩ :: world.entries }

end ContextWorld

open ContextWorld

inductive ContextStep : ContextWorld Text Peer Limits → ContextEvent Text Peer Limits →
    ContextWorld Text Peer Limits → Prop
  | new {world} (methodId metadata deadline cursor) :
      ContextStep world (.new (.new methodId metadata deadline cursor))
        (world.push (.new methodId metadata deadline cursor))
  | attach {world} (context peer) :
      ContextStep world (.attach context peer) (world.update context ({ · with peer }))
  | setDecodeLimits {world} (context limits) :
      ContextStep world (.setDecodeLimits context limits)
        (world.update context (·.setDecodeLimits limits))
  | derive {world self} (context step) : world.contexts[context]? = some self →
      ContextStep world (.derive context step) (world.push (self.derive step))
  | binding {world self} (context methodId) : world.contexts[context]? = some self →
      ContextStep world (.binding context methodId) (world.push (self.binding methodId))
  | dispatch {world self} (context methodId metadata deadline) :
      world.contexts[context]? = some self →
      ContextStep world (.dispatch context methodId metadata deadline)
        (world.push (self.dispatched methodId metadata deadline))
  | batch {world self} (context metadata) : world.contexts[context]? = some self →
      ContextStep world (.batch context metadata) (world.startBatch context self metadata)
  | entry {world enclosing self} (batch methodId upstreamMetadata) : batch ∈ world.batches →
      world.contexts[batch.enclosing]? = some enclosing →
      world.contexts[batch.context]? = some self →
      ContextStep world (.entry batch methodId upstreamMetadata)
        (world.startEntry batch enclosing self methodId upstreamMetadata)
  | cancel {world} (context) :
      ContextStep world (.cancel context) (world.update context ({ · with cancelled := true }))

/-! ## What a run keeps -/

variable {world world' : ContextWorld Text Peer Limits} {event : ContextEvent Text Peer Limits}

namespace ContextWorld

variable (world) in
/-- The steps that lose nothing of an enclosing context: an entry starts where
there is no peer information and no cancellation, and no context is cancelled
that has an entry which is not. -/
def KeepsEntries : ContextEvent Text Peer Limits → Prop
  | .entry batch _ _ => ∀ enclosing, world.contexts[batch.enclosing]? = some enclosing →
      enclosing.peer = none ∧ enclosing.cancelled = false
  | .cancel context => ∀ entry ∈ world.entries, entry.enclosing = context →
      world.isCancelled entry.context
  | _ => True

def Extends (world world' : ContextWorld Text Peer Limits) : Prop :=
  ∀ (i : Nat) (context : RpcContext Text Peer Limits), world.contexts[i]? = some context →
    ∃ context' : RpcContext Text Peer Limits, world'.contexts[i]? = some context' ∧
      context'.metadata = context.metadata ∧ context'.deadline = context.deadline

/-- A batch context tells what was derived for it. -/
structure Derived (world : ContextWorld Text Peer Limits) : Prop where
  batches : ∀ batch ∈ world.batches, ∃ enclosing context,
    world.contexts[batch.enclosing]? = some enclosing ∧
    world.contexts[batch.context]? = some context ∧
    context.metadata = enclosing.metadata.merge batch.metadata ∧
    context.deadline = enclosing.deadline
  entries : ∀ entry ∈ world.entries,
    entry.enclosing < entry.context ∧ entry.context < world.contexts.length

variable (world) in
theorem extends_push (context : RpcContext Text Peer Limits) :
    world.Extends (world.push context) := by
  intro i context' h
  refine ⟨context', ?_, rfl, rfl⟩
  rw [push, List.getElem?_append_left (List.getElem?_eq_some_iff.mp h).1]
  exact h

variable (world) in
theorem extends_update (context : Nat)
    {change : RpcContext Text Peer Limits → RpcContext Text Peer Limits}
    (hchange : ∀ c, (change c).metadata = c.metadata ∧ (change c).deadline = c.deadline) :
    world.Extends (world.update context change) := by
  intro i context' h
  simp only [update, List.getElem?_modify, h, Option.map_eq_map, Option.map_some]
  by_cases hi : context = i
  · exact ⟨_, by rw [if_pos hi], hchange _⟩
  · exact ⟨_, by rw [if_neg hi], rfl, rfl⟩

theorem Extends.length_le (h : world.Extends world') :
    world.contexts.length ≤ world'.contexts.length := by
  by_contra hlt
  have hin : world'.contexts.length < world.contexts.length := by omega
  obtain ⟨context', hcontext', -⟩ := h _ _ (List.getElem?_eq_getElem hin)
  exact absurd (List.getElem?_eq_some_iff.mp hcontext').1 (lt_irrefl _)

theorem Extends.derived (h : world.Extends world') (hd : world.Derived)
    (hbatches : world'.batches = world.batches) (hentries : world'.entries = world.entries) :
    world'.Derived := by
  constructor
  · rw [hbatches]
    intro batch hbatch
    obtain ⟨enclosing, context, henclosing, hcontext, hmetadata, hdeadline⟩ := hd.batches batch hbatch
    obtain ⟨enclosing', henclosing', hm, ht⟩ := h _ _ henclosing
    obtain ⟨context', hcontext', hm', ht'⟩ := h _ _ hcontext
    exact ⟨enclosing', context', henclosing', hcontext', by rw [hm', hmetadata, hm],
      by rw [ht', hdeadline, ht]⟩
  · rw [hentries]
    intro entry hentry
    have hle := h.length_le
    have hlt := hd.entries entry hentry
    omega

variable (world) in
theorem getElem?_push_self (context : RpcContext Text Peer Limits) :
    (world.push context).contexts[world.contexts.length]? = some context := by
  simp [push]

theorem isCancelled_push {context : RpcContext Text Peer Limits} {i : Nat}
    (hi : i < world.contexts.length) : (world.push context).isCancelled i = world.isCancelled i := by
  simp only [isCancelled, push, List.getElem?_append_left hi]

theorem isCancelled_update {context : Nat}
    {change : RpcContext Text Peer Limits → RpcContext Text Peer Limits}
    (hchange : ∀ c, (change c).cancelled = c.cancelled) (i : Nat) :
    (world.update context change).isCancelled i = world.isCancelled i := by
  simp only [isCancelled, update, List.getElem?_modify, Option.map_eq_map]
  cases world.contexts[i]? with
  | none => rfl
  | some c =>
    by_cases hi : context = i
    · simp [hi, hchange]
    · simp [hi]

theorem isCancelled_cancel {context i : Nat} (hi : i < world.contexts.length) :
    (world.update context ({ · with cancelled := true })).isCancelled i =
      (decide (i = context) || world.isCancelled i) := by
  simp only [isCancelled, update, List.getElem?_modify, Option.map_eq_map,
    List.getElem?_eq_getElem hi, Option.map_some, Option.any_some]
  by_cases h : context = i
  · simp [h]
  · simp [h, Ne.symm h]

end ContextWorld

theorem contextsKept_congr {isCancelled isCancelled' : Nat → Bool} {length : Nat}
    {entries : List (BatchEntry Text Peer)}
    (hin : ∀ entry ∈ entries, entry.enclosing < entry.context ∧ entry.context < length)
    (h : ∀ i < length, isCancelled' i = isCancelled i) :
    ContextsKept isCancelled' entries ↔ ContextsKept isCancelled entries := by
  unfold ContextsKept
  refine forall₂_congr fun entry hentry => ?_
  obtain ⟨henclosing, hcontext⟩ := hin entry hentry
  rw [h _ (henclosing.trans hcontext), h _ hcontext]

theorem derived_step (h : ContextStep world event world') (hd : world.Derived) : world'.Derived := by
  cases h with
  | new methodId metadata deadline cursor => exact (extends_push world _).derived hd rfl rfl
  | attach context peer =>
    refine (extends_update world context ?_).derived hd rfl rfl
    exact fun _ => ⟨rfl, rfl⟩
  | setDecodeLimits context limits =>
    refine (extends_update world context ?_).derived hd rfl rfl
    exact fun _ => ⟨rfl, rfl⟩
  | derive context step hself => exact (extends_push world _).derived hd rfl rfl
  | binding context methodId hself => exact (extends_push world _).derived hd rfl rfl
  | dispatch context methodId metadata deadline hself =>
    exact (extends_push world _).derived hd rfl rfl
  | cancel context =>
    refine (extends_update world context ?_).derived hd rfl rfl
    exact fun _ => ⟨rfl, rfl⟩
  | @batch self context metadata hself =>
    have hpush := (extends_push world (self.derivingAppending metadata)).derived hd rfl rfl
    refine ⟨fun batch hbatch => ?_, hpush.entries⟩
    rcases List.mem_cons.mp hbatch with rfl | hold
    · obtain ⟨enclosing', henclosing', hm, ht⟩ := extends_push world _ _ _ hself
      exact ⟨enclosing', _, henclosing', world.getElem?_push_self _, by rw [hm]; rfl, by rw [ht]; rfl⟩
    · exact hpush.batches batch hold
  | @entry enclosing self batch methodId upstreamMetadata hbatch henclosing hself =>
    have hpush := (extends_push world (self.makeBatchContext methodId upstreamMetadata)).derived hd
      rfl rfl
    refine ⟨hpush.batches, fun entry hentry => ?_⟩
    rcases List.mem_cons.mp hentry with rfl | hold
    · have hlt := (List.getElem?_eq_some_iff.mp henclosing).1
      simp only [startEntry, push, List.length_append, List.length_singleton]
      exact ⟨hlt, Nat.lt_succ_self _⟩
    · exact hpush.entries entry hold

variable (world) in
def ContextWorld.Kept : Prop :=
  ContextsKept world.isCancelled world.entries

theorem carries_iff {enclosing context : RpcContext Text Peer Limits} {batch dependency : Metadata Text}
    (methodId : UInt32) (hmetadata : context.metadata = enclosing.metadata.merge batch)
    (hdeadline : context.deadline = enclosing.deadline) :
    Carries enclosing.facts (context.makeBatchContext methodId dependency).facts batch dependency ↔
      enclosing.peer = none := by
  constructor
  · intro h
    exact h.peer.symm
  · intro hpeer
    refine ⟨hpeer.symm, fun key => ?_, ?_⟩
    · show (context.metadata.merge dependency).lookup key = _
      rw [hmetadata, OrderedMap.lookup_merge, OrderedMap.lookup_merge]
      rfl
    · show NoLater context.deadline enclosing.deadline
      rw [hdeadline]
      exact .refl _

theorem kept_step_iff (h : ContextStep world event world') (hd : world.Derived) (hkept : world.Kept) :
    world'.Kept ↔ world.KeepsEntries event := by
  have hpush (context) : (world.push context).Kept ↔ True :=
    iff_of_true ((contextsKept_congr hd.entries fun i hi => isCancelled_push hi).mpr hkept) trivial
  cases h with
  | new methodId metadata deadline cursor => exact hpush _
  | derive context step hself => exact hpush _
  | binding context methodId hself => exact hpush _
  | dispatch context methodId metadata deadline hself => exact hpush _
  | batch context metadata hself => exact hpush _
  | attach context peer =>
    refine iff_of_true ((contextsKept_congr hd.entries fun i _ => isCancelled_update ?_ i).mpr hkept)
      trivial
    exact fun _ => rfl
  | setDecodeLimits context limits =>
    refine iff_of_true ((contextsKept_congr hd.entries fun i _ => isCancelled_update ?_ i).mpr hkept)
      trivial
    exact fun _ => rfl
  | cancel context =>
    -- An entry of another context is as before.
    unfold Kept ContextsKept KeepsEntries
    refine forall₂_congr fun entry hentry => ?_
    obtain ⟨hbefore, hcontext⟩ := hd.entries entry hentry
    obtain ⟨hcarries, hold⟩ := hkept entry hentry
    have hother : entry.context ≠ context ∨ entry.enclosing ≠ context := by omega
    rw [isCancelled_cancel (hbefore.trans hcontext), isCancelled_cancel hcontext]
    simp only [hcarries, true_and, Bool.or_eq_true, decide_eq_true_eq]
    constructor
    · intro h heq
      exact (h (.inl heq)).resolve_left (hother.resolve_right (not_not.mpr heq))
    · rintro h (heq | hcancelled)
      · exact .inr (h heq)
      · exact .inr (hold hcancelled)
  | @entry enclosing self batch methodId upstreamMetadata hbatch henclosing hself =>
    obtain ⟨_, _, henclosing', hself', hmetadata, hdeadline⟩ := hd.batches batch hbatch
    obtain rfl := Option.some.inj (henclosing.symm.trans henclosing')
    obtain rfl := Option.some.inj (hself.symm.trans hself')
    have hin := (List.getElem?_eq_some_iff.mp henclosing).1
    have hfirst : (world.startEntry batch enclosing self methodId upstreamMetadata).isCancelled
        batch.enclosing = enclosing.cancelled := by
      rw [isCancelled, startEntry, push, List.getElem?_append_left hin, henclosing]
      rfl
    have hnew : (world.startEntry batch enclosing self methodId upstreamMetadata).isCancelled
        world.contexts.length = false := by
      rw [isCancelled]
      exact congrArg (Option.any _) (world.getElem?_push_self _)
    have hrest : ContextsKept (world.startEntry batch enclosing self methodId upstreamMetadata).isCancelled
        world.entries := (hpush (self.makeBatchContext methodId upstreamMetadata)).mpr trivial
    unfold Kept KeepsEntries
    rw [show (world.startEntry batch enclosing self methodId upstreamMetadata).entries = _ from rfl]
    constructor
    · intro h _ henclosing'
      obtain rfl := Option.some.inj (henclosing.symm.trans henclosing')
      obtain ⟨hcarries, hcancelled⟩ := h _ (List.mem_cons_self ..)
      dsimp only at hcarries hcancelled
      rw [hfirst, hnew] at hcancelled
      exact ⟨(carries_iff methodId hmetadata hdeadline).mp hcarries, by simpa using hcancelled⟩
    · intro h entry hentry
      obtain ⟨hpeer, hcancelled⟩ := h enclosing henclosing
      rcases List.mem_cons.mp hentry with rfl | hold
      · refine ⟨(carries_iff methodId hmetadata hdeadline).mpr hpeer, ?_⟩
        dsimp only
        rw [hfirst, hcancelled]
        exact nofun
      · exact hrest entry hold

theorem run_kept_iff {events : List (ContextEvent Text Peer Limits)} :
    Run (Restrict ContextStep KeepsEntries) init events world ↔
      Run (fun world event world' => ContextStep world event world' ∧ world'.Kept) init events world := by
  refine Run.congr (I := fun world : ContextWorld Text Peer Limits => world.Derived ∧ world.Kept)
    ?_ ?_ ?_
  · rintro w l w' ⟨hd, hkept⟩ ⟨hone, hallowed⟩
    exact ⟨derived_step hone hd, (kept_step_iff hone hd hkept).mpr hallowed⟩
  · rintro w l w' ⟨hd, hkept⟩
    exact and_congr_right fun hone => (kept_step_iff hone hd hkept).symm
  · exact ⟨⟨fun _ h => absurd h List.not_mem_nil, fun _ h => absurd h List.not_mem_nil⟩,
      fun _ h => absurd h List.not_mem_nil⟩

end Bebop.Swift.Rpc
