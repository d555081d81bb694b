import Bebop.Rpc.Router

/-!
# Bebop — call contexts in TypeScript

`RpcContext` of `rpc/context.ts`, with what the router does to contexts on the way to a
batch entry. The listeners of a signal run at once (`abortFrom`). A context is an object,
here its place in a list, and its signal is named by the same place; the signal of a caller
outside is that of a context nobody uses. Of the attachments the peer information is
modelled.
-/

set_option linter.unusedSectionVars false

namespace Bebop.TypeScript.Rpc

open Bebop.Rpc
open Transition

variable {Text Peer : Type} [DecidableEq Text]

structure RpcContextOptions (Text : Type) where
  metadata : Option (Metadata Text)
  deadline : Option Int
  signal : Option Nat

/-- `source` is the signal that the context follows. -/
structure RpcContext (Text Peer : Type) where
  metadata : Metadata Text
  deadline : Option Int
  source : Option Nat
  aborted : Bool
  peer : Option Peer

namespace RpcContext

/-- The constructor. `expired` says whether the deadline has passed. -/
def new (options : RpcContextOptions Text) (aborted expired : Bool) : RpcContext Text Peer :=
  ⟨options.metadata.getD ∅, options.deadline, options.signal,
    aborted || (options.deadline.isSome && expired), none⟩

/-- What `fork` hands to the constructor; `self` names the signal of the context. -/
def fork (context : RpcContext Text Peer) (self : Nat) (overrides : RpcContextOptions Text) :
    RpcContextOptions Text :=
  { metadata := some (overrides.metadata.getD context.metadata)
    deadline := overrides.deadline.or context.deadline
    signal := some (overrides.signal.getD self) }

/-- `innerContext` of `handleDispatch` -/
def dispatched (context : RpcContext Text Peer) (metadata : Option (Metadata Text))
    (deadline : Option Int) : RpcContextOptions Text :=
  { metadata := some (mergeMetadata context.metadata (metadata.getD ∅)), deadline, signal := none }

/-- The fork of a call; `upstreamMetadata` is that of the dependency. -/
def entryOptions (context : RpcContext Text Peer) (self : Nat) (batch : Metadata Text)
    (upstreamMetadata : Option (Metadata Text)) : RpcContextOptions Text :=
  let batchMetadata := mergeMetadata context.metadata batch
  context.fork self
    { metadata := some
        (match upstreamMetadata with
        | none => batchMetadata
        | some metadata => mergeMetadata batchMetadata metadata)
      deadline := none
      signal := none }

def facts (context : RpcContext Text Peer) : ContextFacts Text Peer :=
  ⟨context.metadata, context.deadline, context.peer⟩

end RpcContext

/-! ## Runs -/

structure ContextWorld (Text Peer : Type) where
  contexts : List (RpcContext Text Peer)
  entries : List (BatchEntry Text Peer)

inductive ContextEvent (Text Peer : Type) where
  | new (options : RpcContextOptions Text) (expired : Bool)
  | attach (context : Nat) (peer : Option Peer)
  | fork (context : Nat) (overrides : RpcContextOptions Text) (expired : Bool)
  | dispatch (context : Nat) (metadata : Option (Metadata Text)) (deadline : Option Int)
      (expired : Bool)
  | entry (context : Nat) (batch : Metadata Text) (upstreamMetadata : Option (Metadata Text))
      (expired : Bool)
  | abort (context : Nat)

/-- The contexts `rest` behind `before`, after the abort of one of them. -/
def abortFrom (context : Nat) (before : List (RpcContext Text Peer)) :
    List (RpcContext Text Peer) → List (RpcContext Text Peer)
  | [] => before
  | c :: rest =>
    let reached := before.length = context ∨ c.source.any fun s => (before[s]?).any (·.aborted)
    abortFrom context (before ++ [{ c with aborted := c.aborted || reached }]) rest

namespace ContextWorld

def init : ContextWorld Text Peer := ⟨[], []⟩

variable (world : ContextWorld Text Peer)

def isAborted (context : Nat) : Bool :=
  (world.contexts[context]?).any (·.aborted)

def create (options : RpcContextOptions Text) (expired : Bool) : RpcContext Text Peer :=
  .new options (options.signal.any world.isAborted) expired

def push (context : RpcContext Text Peer) : ContextWorld Text Peer :=
  { world with contexts := world.contexts ++ [context] }

/-- `handleDispatch` makes the context of the future and hands the peer on. -/
def dispatched (context : RpcContext Text Peer)
    (metadata : Option (Metadata Text)) (deadline : Option Int) (expired : Bool) :
    ContextWorld Text Peer :=
  world.push { world.create (context.dispatched metadata deadline) expired with peer := context.peer }

/-- `handleBatch` forks the context of a call's handler. -/
def startEntry (self : Nat) (context : RpcContext Text Peer)
    (batch : Metadata Text) (upstreamMetadata : Option (Metadata Text)) (expired : Bool) :
    ContextWorld Text Peer :=
  let callContext := world.create (context.entryOptions self batch upstreamMetadata) expired
  { world.push callContext with
    entries := ⟨self, world.contexts.length, batch, upstreamMetadata.getD ∅, context.facts,
      callContext.facts⟩ :: world.entries }

/-- `cancel`, the end of a `using` block or a deadline timer. -/
def abort (context : Nat) : ContextWorld Text Peer :=
  { world with contexts := abortFrom context [] world.contexts }

/-- A signal that is handed over belongs to some context. -/
def HasSignal (options : RpcContextOptions Text) : Prop :=
  ∀ signal, options.signal = some signal → signal < world.contexts.length

end ContextWorld

open ContextWorld

inductive ContextStep : ContextWorld Text Peer → ContextEvent Text Peer → ContextWorld Text Peer → Prop
  | new {world} (options expired) : world.HasSignal options →
      ContextStep world (.new options expired) (world.push (world.create options expired))
  | attach {world} (context peer) :
      ContextStep world (.attach context peer)
        { world with contexts := world.contexts.modify context ({ · with peer }) }
  | fork {world self} (context overrides expired) : world.contexts[context]? = some self →
      world.HasSignal overrides →
      ContextStep world (.fork context overrides expired)
        (world.push (world.create (self.fork context overrides) expired))
  | dispatch {world self} (context metadata deadline expired) :
      world.contexts[context]? = some self →
      ContextStep world (.dispatch context metadata deadline expired)
        (world.dispatched self metadata deadline expired)
  | entry {world self} (context batch upstreamMetadata expired) :
      world.contexts[context]? = some self →
      ContextStep world (.entry context batch upstreamMetadata expired)
        (world.startEntry context self batch upstreamMetadata expired)
  | abort {world} (context) : ContextStep world (.abort context) (world.abort context)

/-! ## An abort -/

/-- What becomes of a context when another aborts. -/
def abortOne (context : Nat) (after : List (RpcContext Text Peer)) (i : Nat)
    (c : RpcContext Text Peer) : RpcContext Text Peer :=
  { c with
    aborted := c.aborted ||
      (i = context ∨ c.source.any fun s => s < i ∧ (after[s]?).any (·.aborted)) }

theorem abortFrom_spec (context : Nat) (before rest : List (RpcContext Text Peer)) :
    ∃ after, abortFrom context before rest = before ++ after ∧ after.length = rest.length ∧
      ∀ k c, rest[k]? = some c →
        (before ++ after)[before.length + k]? =
          some (abortOne context (before ++ after) (before.length + k) c) := by
  induction rest generalizing before with
  | nil => exact ⟨[], (List.append_nil _).symm, rfl, fun k c h => by simp at h⟩
  | cons c rest ih =>
    let c' : RpcContext Text Peer := { c with
      aborted := c.aborted || (before.length = context ∨
        c.source.any fun s => (before[s]?).any (·.aborted)) }
    obtain ⟨after, hall, hlength, hrest⟩ := ih (before ++ [c'])
    rw [List.append_assoc, List.singleton_append] at hall
    refine ⟨c' :: after, hall, by rw [List.length_cons, hlength, List.length_cons], fun k d h => ?_⟩
    cases k with
    | zero =>
      rw [List.getElem?_cons_zero] at h
      obtain rfl := Option.some.inj h
      -- Only contexts in front of this one are looked at.
      have hlook (s : Nat) : (before[s]?).any (·.aborted) =
          decide (s < before.length ∧ ((before ++ c' :: after)[s]?).any (·.aborted)) := by
        by_cases hs : s < before.length
        · simp [List.getElem?_append_left hs, hs]
        · simp [hs]
      simp only [abortOne, Nat.add_zero, List.getElem?_append_right (le_refl _), Nat.sub_self,
        List.getElem?_cons_zero, ← hlook, c']
    | succ k =>
      rw [List.getElem?_cons_succ] at h
      have hk := hrest k d h
      rw [List.append_assoc, List.singleton_append, List.length_append, List.length_singleton] at hk
      rwa [Nat.add_assoc, Nat.add_comm 1 k] at hk

theorem getElem?_abort {world : ContextWorld Text Peer} {context i : Nat} {c : RpcContext Text Peer}
    (h : world.contexts[i]? = some c) :
    (world.abort context).contexts[i]? =
      some (abortOne context (world.abort context).contexts i c) := by
  obtain ⟨after, hall, -, hafter⟩ := abortFrom_spec context [] world.contexts
  have hi := hafter i c h
  rw [List.length_nil, Nat.zero_add, ← hall] at hi
  exact hi

theorem length_abort (world : ContextWorld Text Peer) (context : Nat) :
    (world.abort context).contexts.length = world.contexts.length := by
  obtain ⟨after, hall, hlength, -⟩ := abortFrom_spec context [] world.contexts
  rw [abort, hall, List.nil_append, hlength]

/-! ## What a run keeps -/

variable {world world' : ContextWorld Text Peer} {event : ContextEvent Text Peer}

namespace ContextWorld

/-- A context aborts with the one it follows, an entry's with the batch's. -/
structure Linked (world : ContextWorld Text Peer) : Prop where
  sources : ∀ (i : Nat) (c : RpcContext Text Peer) (s : Nat), world.contexts[i]? = some c →
    c.source = some s → s < i ∧ (world.isAborted s → c.aborted)
  entries : ∀ entry ∈ world.entries, ∃ c : RpcContext Text Peer,
    world.contexts[entry.context]? = some c ∧ c.source = some entry.enclosing

variable (world) in
/-- An entry starts where there is no peer information. -/
def KeepsEntries : ContextEvent Text Peer → Prop
  | .entry context _ _ _ => ∀ enclosing, world.contexts[context]? = some enclosing →
      enclosing.peer = none
  | _ => True

variable (world) in
def Kept : Prop := ContextsKept world.isAborted world.entries

theorem Linked.kept_iff (h : world.Linked) : world.Kept ↔ ∀ entry ∈ world.entries,
      Carries entry.before entry.received entry.batch entry.dependency := by
  refine forall₂_congr fun entry hentry => and_iff_left fun haborted => ?_
  obtain ⟨c, hc, hsource⟩ := h.entries entry hentry
  rw [isAborted, hc]
  exact (h.sources _ c _ hc hsource).2 haborted

theorem getElem?_push_of_lt {context : RpcContext Text Peer} {i : Nat}
    (hi : i < world.contexts.length) : (world.push context).contexts[i]? = world.contexts[i]? :=
  List.getElem?_append_left hi

theorem getElem?_push_self (context : RpcContext Text Peer) :
    (world.push context).contexts[world.contexts.length]? = some context := by
  simp [push]

theorem Linked.push (h : world.Linked) (options : RpcContextOptions Text)
    (hsignal : world.HasSignal options) {context : RpcContext Text Peer} (hsource : context.source = options.signal)
    (haborted : options.signal.any world.isAborted → context.aborted) : (world.push context).Linked := by
  have hbelow {i : Nat} (hi : i < world.contexts.length) :
      (world.push context).isAborted i = world.isAborted i := by
    rw [isAborted, getElem?_push_of_lt hi, isAborted]
  refine ⟨fun i c s hc hs => ?_, fun entry hentry => ?_⟩
  · rcases Nat.lt_or_ge i world.contexts.length with hi | hi
    · rw [getElem?_push_of_lt hi] at hc
      obtain ⟨hlt, hkeeps⟩ := h.sources i c s hc hs
      rw [hbelow (hlt.trans hi)]
      exact ⟨hlt, hkeeps⟩
    · have hlast : i = world.contexts.length := by
        have hlt := (List.getElem?_eq_some_iff.mp hc).1
        simp only [ContextWorld.push, List.length_append, List.length_singleton] at hlt
        omega
      subst hlast
      rw [getElem?_push_self] at hc
      obtain rfl := Option.some.inj hc
      rw [hsource] at hs
      have hlt := hsignal s hs
      rw [hbelow hlt]
      exact ⟨hlt, fun hone => haborted (by rw [hs]; exact hone)⟩
  · obtain ⟨c, hc, hs⟩ := h.entries entry hentry
    refine ⟨c, ?_, hs⟩
    rw [getElem?_push_of_lt (List.getElem?_eq_some_iff.mp hc).1]
    exact hc

theorem create_source (options : RpcContextOptions Text) (expired : Bool) :
    (world.create options expired).source = options.signal := rfl

theorem create_aborted {options : RpcContextOptions Text} {expired : Bool}
    (h : options.signal.any world.isAborted) : (world.create options expired).aborted := by
  simp [create, RpcContext.new, h]

end ContextWorld

theorem hasSignal_of_none {options : RpcContextOptions Text} (h : options.signal = none) :
    world.HasSignal options := by
  intro signal hsignal
  rw [h] at hsignal
  cases hsignal

theorem hasSignal_fork {self : RpcContext Text Peer} {context : Nat}
    {overrides : RpcContextOptions Text} (hself : world.contexts[context]? = some self)
    (h : world.HasSignal overrides) : world.HasSignal (self.fork context overrides) := by
  intro signal hsignal
  obtain rfl := Option.some.inj hsignal
  cases hone : overrides.signal with
  | none => exact (List.getElem?_eq_some_iff.mp hself).1
  | some signal => exact h signal hone

theorem linked_entry (hlinked : world.Linked) {self : RpcContext Text Peer} {context : Nat}
    (hself : world.contexts[context]? = some self) (batch : Metadata Text)
    (upstreamMetadata : Option (Metadata Text)) (expired : Bool) :
    (world.startEntry context self batch upstreamMetadata expired).Linked := by
  have hpush : (world.push (world.create (self.entryOptions context batch upstreamMetadata)
      expired)).Linked :=
    hlinked.push _ (hasSignal_fork hself (hasSignal_of_none rfl)) (create_source _ _) create_aborted
  refine ⟨hpush.sources, fun entry hentry => ?_⟩
  rcases List.mem_cons.mp hentry with rfl | hold
  · exact ⟨_, getElem?_push_self _, rfl⟩
  · exact hpush.entries entry hold

theorem linked_abort (hlinked : world.Linked) (context : Nat) : (world.abort context).Linked := by
  refine ⟨fun i c s hc hs => ?_, fun entry hentry => ?_⟩
  · have hi := (List.getElem?_eq_some_iff.mp hc).1
    rw [length_abort] at hi
    have hafter : (world.abort context).contexts[i]? =
        some (abortOne context (world.abort context).contexts i world.contexts[i]) :=
      getElem?_abort (List.getElem?_eq_getElem hi)
    obtain rfl := Option.some.inj (hc.symm.trans hafter)
    have hlt := (hlinked.sources i _ s (List.getElem?_eq_getElem hi) hs).1
    refine ⟨hlt, fun haborted => ?_⟩
    have hsource : (world.contexts[i]).source = some s := hs
    have haborted' : ((world.abort context).contexts[s]?).any (·.aborted) = true := haborted
    simp [abortOne, hsource, hlt, haborted']
  · obtain ⟨c, hc, hs⟩ := hlinked.entries entry hentry
    exact ⟨_, getElem?_abort hc, hs⟩

theorem linked_attach (hlinked : world.Linked) (context : Nat) (peer : Option Peer) :
    ({ world with contexts := world.contexts.modify context ({ · with peer }) } :
      ContextWorld Text Peer).Linked := by
  let world' : ContextWorld Text Peer :=
    { world with contexts := world.contexts.modify context ({ · with peer }) }
  -- Neither sources nor aborts change.
  have hget (i : Nat) : ∃ change : RpcContext Text Peer → RpcContext Text Peer,
      world'.contexts[i]? = (world.contexts[i]?).map change ∧
        ∀ c, (change c).source = c.source ∧ (change c).aborted = c.aborted := by
    refine ⟨fun c => if context = i then { c with peer } else c, ?_, fun c => ?_⟩
    · simp only [world', List.getElem?_modify, Option.map_eq_map]
    · dsimp only
      split <;> exact ⟨rfl, rfl⟩
  have haborted (i : Nat) : world'.isAborted i = world.isAborted i := by
    obtain ⟨change, hchange, hsame⟩ := hget i
    rw [isAborted, hchange, isAborted]
    cases world.contexts[i]? with
    | none => rfl
    | some c => exact (hsame c).2
  refine ⟨fun i c s hc hs => ?_, fun entry hentry => ?_⟩
  · obtain ⟨change, hchange, hsame⟩ := hget i
    obtain ⟨c₀, hc₀, rfl⟩ := Option.map_eq_some_iff.mp (hchange.symm.trans hc)
    rw [(hsame c₀).1] at hs
    rw [(hsame c₀).2, show ContextWorld.isAborted _ s = _ from haborted s]
    exact hlinked.sources i c₀ s hc₀ hs
  · obtain ⟨c, hc, hs⟩ := hlinked.entries entry hentry
    obtain ⟨change, hchange, hsame⟩ := hget entry.context
    refine ⟨change c, ?_, (hsame c).1.trans hs⟩
    rw [hchange, hc, Option.map_some]

theorem linked_step (h : ContextStep world event world') (hlinked : world.Linked) : world'.Linked := by
  cases h with
  | new options expired hsignal => exact hlinked.push _ hsignal (create_source _ _) create_aborted
  | fork context overrides expired hself hsignal =>
    exact hlinked.push _ (hasSignal_fork hself hsignal) (create_source _ _) create_aborted
  | @dispatch self context metadata deadline expired hself =>
    exact hlinked.push (self.dispatched metadata deadline) (hasSignal_of_none rfl) rfl
      fun h => nomatch h
  | attach context peer => exact linked_attach hlinked context peer
  | entry context batch upstreamMetadata expired hself =>
    exact linked_entry hlinked hself batch upstreamMetadata expired
  | abort context => exact linked_abort hlinked context

variable (world) in
theorem carries_iff (self : RpcContext Text Peer) (context : Nat)
    (batch : Metadata Text) (upstreamMetadata : Option (Metadata Text)) (expired : Bool) :
    Carries self.facts (world.create (self.entryOptions context batch upstreamMetadata) expired).facts
      batch (upstreamMetadata.getD ∅) ↔ self.peer = none := by
  constructor
  · intro h
    exact h.peer.symm
  · intro hpeer
    refine ⟨hpeer.symm, fun key => ?_, .refl _⟩
    cases upstreamMetadata with
    | none =>
      show (self.metadata.merge batch).lookup key = _
      rw [OrderedMap.lookup_merge]
      rfl
    | some metadata =>
      show ((self.metadata.merge batch).merge metadata).lookup key = _
      rw [OrderedMap.lookup_merge, OrderedMap.lookup_merge]
      rfl

theorem kept_step_iff (h : ContextStep world event world') (hlinked : world.Linked) (hkept : world.Kept) :
    world'.Kept ↔ world.KeepsEntries event := by
  rw [(linked_step h hlinked).kept_iff]
  have hold := hlinked.kept_iff.mp hkept
  cases h with
  | new options expired hsignal => exact iff_of_true hold trivial
  | fork context overrides expired hself hsignal => exact iff_of_true hold trivial
  | dispatch context metadata deadline expired hself => exact iff_of_true hold trivial
  | attach context peer => exact iff_of_true hold trivial
  | abort context => exact iff_of_true hold trivial
  | @entry self context batch upstreamMetadata expired hself =>
    have hcarries := carries_iff world self context batch upstreamMetadata expired
    constructor
    · intro h _ hself'
      obtain rfl := Option.some.inj (hself.symm.trans hself')
      exact hcarries.mp (h _ (List.mem_cons_self ..))
    · intro h entry hentry
      rcases List.mem_cons.mp hentry with rfl | hmem
      · exact hcarries.mpr (h self hself)
      · exact hold entry hmem

theorem run_kept_iff {events : List (ContextEvent Text Peer)} :
    Run (Restrict ContextStep KeepsEntries) init events world ↔
      Run (fun world event world' => ContextStep world event world' ∧ world'.Kept) init events world := by
  refine Run.congr (I := fun world : ContextWorld Text Peer => world.Linked ∧ world.Kept) ?_ ?_ ?_
  · rintro w l w' ⟨hl, hkept⟩ ⟨hone, hallowed⟩
    exact ⟨linked_step hone hl, (kept_step_iff hone hl hkept).mpr hallowed⟩
  · rintro w l w' ⟨hl, hkept⟩
    exact and_congr_right fun hone => (kept_step_iff hone hl hkept).symm
  · refine ⟨⟨fun i c s hc => ?_, fun _ h => absurd h List.not_mem_nil⟩,
      fun _ h => absurd h List.not_mem_nil⟩
    simp [init] at hc

/-! ## Chains of forks -/

/-- A call of `fork`: the context, whether it is aborted, whether expired. -/
structure ForkCall (Text : Type) where
  self : Nat
  overrides : RpcContextOptions Text
  aborted : Bool
  expired : Bool

def RpcContext.forkAll (context : RpcContext Text Peer) (calls : List (ForkCall Text)) :
    RpcContext Text Peer :=
  calls.foldl (fun context call =>
    .new (context.fork call.self call.overrides) call.aborted call.expired) context

theorem deadline_forkAll (context : RpcContext Text Peer) (calls : List (ForkCall Text)) :
    (context.forkAll calls).deadline =
      ((calls.filterMap (·.overrides.deadline)).getLast?).or context.deadline := by
  unfold RpcContext.forkAll
  induction calls generalizing context with
  | nil => rfl
  | cons call calls ih =>
    rw [List.foldl_cons, ih, show (RpcContext.new (context.fork call.self call.overrides) call.aborted call.expired :
      RpcContext Text Peer).deadline = call.overrides.deadline.or context.deadline from rfl]
    cases hoverride : call.overrides.deadline with
    | none => simp only [List.filterMap_cons, hoverride, Option.none_or]
    | some instant =>
      simp only [List.filterMap_cons, hoverride, List.getLast?_cons]
      cases (calls.filterMap (·.overrides.deadline)).getLast? <;> rfl

theorem noLater_forkAll_iff (context : RpcContext Text Peer) (calls : List (ForkCall Text)) :
    NoLater (context.forkAll calls).deadline context.deadline ↔
      ∀ override, (calls.filterMap (·.overrides.deadline)).getLast? = some override →
        NoLater (some override) context.deadline := by
  rw [deadline_forkAll]
  cases (calls.filterMap (·.overrides.deadline)).getLast? with
  | none => exact iff_of_true (.refl _) nofun
  | some override =>
    constructor
    · rintro h _ heq
      obtain rfl := Option.some.inj heq
      exact h
    · exact fun h => h override rfl

end Bebop.TypeScript.Rpc
