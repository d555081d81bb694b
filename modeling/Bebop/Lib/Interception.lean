import Bebop.Lib.Transition
import Mathlib.Logic.Function.Basic

/-!
# Interceptor chains

A server runs a piece of `Code` for every call, which may put an operation behind a chain
of interceptors (`Code.guarded`). An interceptor is any program: it calls `proceed` as
often as it likes, and each time the next one is entered, or behind the last one the
operation starts. All that ever started is in one table (`World`), which only grows.

Either what matters is in the operation, or it follows the chain in the code that ran it
(`Design`). `Confined` is the invariant of both.
-/

namespace Interception

open Transition

/-- What a call does, up to the points where others have a say. -/
inductive Code (Req Op Err Val : Type) where
  | ret (value : Val)
  | throw (error : Err)
  /-- A check of what is outside: it passes, or fails with one of the errors. -/
  | poll (errors : Err → Prop) (next : Code Req Op Err Val)
  /-- An answer is waited for, of a call that was made. -/
  | await (next : Val → Code Req Op Err Val)
  /-- Something that matters happens. It may throw. -/
  | perform (op : Op) (next : Val → Code Req Op Err Val)
  /-- The operation runs behind the interceptors. -/
  | guarded (operation : Code Req Op Err Val) (next : Val → Code Req Op Err Val)
  /-- The server is called. What the call is may depend on a value that is known
  only then. -/
  | call (req : Val → Req) (next : Code Req Op Err Val)
  /-- Work is left to run later, or at the same time. -/
  | later (work next : Code Req Op Err Val)

inductive Origin where
  /-- a call of the server -/
  | call
  /-- the chain that `starter` runs -/
  | chain (starter : Nat)
  /-- a `proceed` of the interceptor `starter` -/
  | proceed (starter : Nat)
  /-- work that `starter` left -/
  | later (starter : Nat)

def Origin.starter : Origin → Option Nat
  | call => none
  | chain starter => some starter
  | proceed starter => some starter
  | later starter => some starter

/-- What stays of something that started: the first number of its call, and its origin. -/
structure Frame where
  call : Nat
  origin : Origin

inductive Status (Req Op Err Val : Type) where
  | absent
  | running (code : Code Req Op Err Val)
  | waiting (chain : Nat) (next : Val → Code Req Op Err Val)
  /-- An interceptor keeps its `proceed`, also when it has an outcome. -/
  | interceptor (level : Nat) (operation : Code Req Op Err Val) (outcome : Option (Except Err Val))

structure World (Req Op Err Val : Type) where
  frames : List Frame
  status : Nat → Status Req Op Err Val
  performed : List (Nat × Op)
  /-- The calls of `proceed` that came back: the interceptor, and what it had
  started. -/
  returned : List (Nat × Nat)

inductive Event (Req Op Err Val : Type) where
  | arrive (req : Req)
  | resume (t : Nat)
  | perform (t : Nat) (op : Op)
  | guard (t : Nat)
  | proceed (t : Nat)
  | back (t started : Nat)
  | finish (t : Nat) (outcome : Except Err Val)
  | result (t : Nat)
  | call (t : Nat)
  | later (t : Nat)

variable {Req Op Err Val : Type}

namespace Code

def outcome : Code Req Op Err Val → Option (Except Err Val)
  | ret value => some (.ok value)
  | throw error => some (.error error)
  | _ => none

/-- The code goes on with a value, or an error is thrown. -/
def after (next : Val → Code Req Op Err Val) : Except Err Val → Code Req Op Err Val
  | .ok value => next value
  | .error error => throw error

inductive Resumes : Code Req Op Err Val → Code Req Op Err Val → Prop
  | passed (errors next) : Resumes (poll errors next) next
  | refused (errors next) (error) : errors error → Resumes (poll errors next) (throw error)
  | answered (next) (value) : Resumes (await next) (next value)

end Code

def Status.outcome : Status Req Op Err Val → Option (Except Err Val)
  | running code => code.outcome
  | interceptor _ _ outcome => outcome
  | _ => none

namespace World

def init : World Req Op Err Val := ⟨[], fun _ => .absent, [], []⟩

def start (w : World Req Op Err Val) (frame : Frame) (status : Status Req Op Err Val) :
    World Req Op Err Val :=
  { w with
    frames := w.frames ++ [frame]
    status := Function.update w.status w.frames.length status }

def become (w : World Req Op Err Val) (t : Nat) (status : Status Req Op Err Val) :
    World Req Op Err Val :=
  { w with status := Function.update w.status t status }

end World

/-- What starts at a level of a chain of `n` interceptors. -/
def stage (n level : Nat) (operation : Code Req Op Err Val) : Status Req Op Err Val :=
  if level < n then .interceptor level operation none else .running operation

/-- One step of a server with `n` interceptors. -/
inductive Step (n : Nat) (serve : Req → Code Req Op Err Val) :
    World Req Op Err Val → Event Req Op Err Val → World Req Op Err Val → Prop
  | arrive {w} (req) :
      Step n serve w (.arrive req) (w.start ⟨w.frames.length, .call⟩ (.running (serve req)))
  | resume {w t code code'} : w.status t = .running code → code.Resumes code' →
      Step n serve w (.resume t) (w.become t (.running code'))
  | perform {w t op next} (answer) : w.status t = .running (.perform op next) →
      Step n serve w (.perform t op)
        { w.become t (.running (.after next answer)) with performed := (t, op) :: w.performed }
  | guard {w t frame operation next} : w.frames[t]? = some frame →
      w.status t = .running (.guarded operation next) →
      Step n serve w (.guard t)
        ((w.start ⟨frame.call, .chain t⟩ (stage n 0 operation)).become t
          (.waiting w.frames.length next))
  | proceed {w t frame level operation outcome} : w.frames[t]? = some frame →
      w.status t = .interceptor level operation outcome →
      Step n serve w (.proceed t)
        (w.start ⟨frame.call, .proceed t⟩ (stage n (level + 1) operation))
  | back {w t s frame outcome} : w.frames[s]? = some frame → frame.origin = .proceed t →
      (w.status s).outcome = some outcome →
      Step n serve w (.back t s) { w with returned := (t, s) :: w.returned }
  | finish {w t level operation} (outcome) : w.status t = .interceptor level operation none →
      Step n serve w (.finish t outcome) (w.become t (.interceptor level operation (some outcome)))
  | result {w t s next outcome} : w.status t = .waiting s next →
      (w.status s).outcome = some outcome →
      Step n serve w (.result t) (w.become t (.running (.after next outcome)))
  | call {w t req next} (value) : w.status t = .running (.call req next) →
      Step n serve w (.call t)
        ((w.start ⟨w.frames.length, .call⟩ (.running (serve (req value)))).become t (.running next))
  | later {w t frame work next} : w.frames[t]? = some frame →
      w.status t = .running (.later work next) →
      Step n serve w (.later t)
        ((w.start ⟨frame.call, .later t⟩ (.running work)).become t (.running next))

/-! ## Who was entered before -/

/-- `t` is stage `level` of a chain that `root` ran, back to its first interceptor. -/
inductive Reached (frames : List Frame) (root : Nat) : Nat → Nat → Prop
  | entered {t frame} : frames[t]? = some frame → frame.origin = .chain root →
      Reached frames root 0 t
  | proceeded {level s t frame} : Reached frames root level s → frames[t]? = some frame →
      frame.origin = .proceed s → Reached frames root (level + 1) t

inductive Design where
  /-- What matters is in the operation. -/
  | around
  /-- What matters follows the chain. -/
  | before
  deriving DecidableEq

/-- The place behind all `n` interceptors: that of the operation, or of one that
ran a chain in which the operation was reached; and of all that starts there. -/
inductive Placed (d : Design) (n : Nat) (frames : List Frame) : Nat → Prop
  | operation {root t} : d = .around → Reached frames root n t → Placed d n frames t
  | behind {t s} : d = .before → Reached frames t n s → Placed d n frames t
  | started {t s frame} : frames[t]? = some frame → frame.origin.starter = some s →
      Placed d n frames s → Placed d n frames t

/-- At the level, an interceptor of the call called `proceed`. -/
def Proceeded (frames : List Frame) (call level : Nat) : Prop :=
  ∃ (root s t : Nat) (frame frame' : Frame), Reached frames root level s ∧
    frames[s]? = some frame ∧ frame.call = call ∧
    frames[t]? = some frame' ∧ frame'.origin = .proceed s

structure Guards (d : Design) (n : Nat) (w : World Req Op Err Val) : Prop where
  /-- Whoever performs something does it behind all interceptors. -/
  place : n ≠ 0 → ∀ t op, (t, op) ∈ w.performed → Placed d n w.frames t
  /-- A `proceed` that came back had an outcome to come back with. -/
  returned : ∀ t s, (t, s) ∈ w.returned → ∃ (frame : Frame) (outcome : Except Err Val),
    w.frames[s]? = some frame ∧ frame.origin = .proceed t ∧ (w.status s).outcome = some outcome
  /-- Where at one level nobody proceeded, nothing is performed. -/
  shortCircuit : ∀ call level, level < n → ¬Proceeded w.frames call level →
    ∀ t op, (t, op) ∈ w.performed → ∀ frame, w.frames[t]? = some frame → frame.call ≠ call

section

variable {frames frames' : List Frame} {root level n t s : Nat} {frame : Frame} {d : Design}

theorem getElem?_grow (hgrow : frames <+: frames') (h : frames[t]? = some frame) :
    frames'[t]? = some frame := by
  obtain ⟨more, rfl⟩ := hgrow
  rw [List.getElem?_append_left (List.getElem?_eq_some_iff.mp h).1]
  exact h

theorem Reached.mono (hgrow : frames <+: frames') (h : Reached frames root level t) :
    Reached frames' root level t := by
  induction h with
  | entered hframe horigin => exact .entered (getElem?_grow hgrow hframe) horigin
  | proceeded _ hframe horigin ih =>
    exact .proceeded ih (getElem?_grow hgrow hframe) horigin

theorem Placed.mono (hgrow : frames <+: frames') (h : Placed d n frames t) :
    Placed d n frames' t := by
  induction h with
  | operation hd hreached => exact .operation hd (hreached.mono hgrow)
  | behind hd hreached => exact .behind hd (hreached.mono hgrow)
  | started hframe hstarter _ ih => exact .started (getElem?_grow hgrow hframe) hstarter ih

/-- A stage has one level and one root. -/
theorem Reached.unique {root' level' : Nat} (h : Reached frames root level t)
    (h' : Reached frames root' level' t) : root = root' ∧ level = level' := by
  induction h generalizing root' level' with
  | entered hframe horigin =>
    cases h' with
    | entered hframe' horigin' =>
      obtain rfl := Option.some.inj (hframe.symm.trans hframe')
      cases horigin.symm.trans horigin'
      exact ⟨rfl, rfl⟩
    | proceeded _ hframe' horigin' =>
      obtain rfl := Option.some.inj (hframe.symm.trans hframe')
      cases horigin.symm.trans horigin'
  | proceeded _ hframe horigin ih =>
    cases h' with
    | entered hframe' horigin' =>
      obtain rfl := Option.some.inj (hframe.symm.trans hframe')
      cases horigin.symm.trans horigin'
    | proceeded hbefore hframe' horigin' =>
      obtain rfl := Option.some.inj (hframe.symm.trans hframe')
      cases horigin.symm.trans horigin'
      obtain ⟨rfl, rfl⟩ := ih hbefore
      exact ⟨rfl, rfl⟩

def OneCall (frames : List Frame) : Prop :=
  ∀ (t : Nat) (frame : Frame), frames[t]? = some frame → ∀ s, frame.origin.starter = some s →
    ∃ starter : Frame, frames[s]? = some starter ∧ starter.call = frame.call

theorem Reached.proceeds (hcalls : OneCall frames) (h : Reached frames root level t)
    (hframe : frames[t]? = some frame) {k : Nat} (hk : k < level) :
    Proceeded frames frame.call k := by
  induction h generalizing frame with
  | entered => exact absurd hk (Nat.not_lt_zero k)
  | @proceeded level s t _ hbefore hstage horigin ih =>
    obtain rfl := Option.some.inj (hframe.symm.trans hstage)
    obtain ⟨starter, hstarter, hcall⟩ := hcalls _ _ hframe s (by rw [horigin]; rfl)
    rcases Nat.lt_succ_iff_lt_or_eq.mp hk with hlt | rfl
    · rw [← hcall]
      exact ih hstarter hlt
    · exact ⟨_, s, t, starter, frame, hbefore, hstarter, hcall, hframe, horigin⟩

theorem Reached.call_root (hcalls : OneCall frames) (h : Reached frames root level t)
    (hframe : frames[t]? = some frame) :
    ∃ starter, frames[root]? = some starter ∧ starter.call = frame.call := by
  induction h generalizing frame with
  | entered hstage horigin =>
    obtain rfl := Option.some.inj (hframe.symm.trans hstage)
    exact hcalls _ _ hframe root (by rw [horigin]; rfl)
  | @proceeded level s t _ _ hstage horigin ih =>
    obtain rfl := Option.some.inj (hframe.symm.trans hstage)
    obtain ⟨starter, hstarter, hcall⟩ := hcalls _ _ hframe s (by rw [horigin]; rfl)
    obtain ⟨first, hfirst, hsame⟩ := ih hstarter
    exact ⟨first, hfirst, hsame.trans hcall⟩

theorem Reached.exists_frame (h : Reached frames root level t) : ∃ frame, frames[t]? = some frame := by
  cases h with
  | entered hframe _ => exact ⟨_, hframe⟩
  | proceeded _ hframe _ => exact ⟨_, hframe⟩

/-- Behind the interceptors, they have proceeded at every level. -/
theorem Placed.proceeds (hcalls : OneCall frames) (h : Placed d n frames t)
    (hframe : frames[t]? = some frame) {k : Nat} (hk : k < n) : Proceeded frames frame.call k := by
  induction h generalizing frame with
  | operation _ hreached => exact hreached.proceeds hcalls hframe hk
  | behind _ hreached =>
    obtain ⟨last, hlast⟩ := hreached.exists_frame
    obtain ⟨starter, hstarter, hcall⟩ := hreached.call_root hcalls hlast
    obtain rfl := Option.some.inj (hframe.symm.trans hstarter)
    rw [hcall]
    exact hreached.proceeds hcalls hlast hk
  | started hstage hstarter _ ih =>
    obtain rfl := Option.some.inj (hframe.symm.trans hstage)
    obtain ⟨starter, hstarter, hcall⟩ := hcalls _ _ hframe _ hstarter
    rw [← hcall]
    exact ih hstarter

end

/-! ## Code that waits for a chain -/

/-- The code performs nothing before it has its place: with one design nothing
outside of the operations, with the other nothing in front of a chain or in it. -/
def Code.Waits (d : Design) : Code Req Op Err Val → Prop
  | .ret _ => True
  | .throw _ => True
  | .poll _ next => next.Waits d
  | .await next => ∀ value, (next value).Waits d
  | .perform _ _ => False
  | .guarded operation next =>
    match d with
    | .around => ∀ value, (next value).Waits d
    | .before => operation.Waits d
  | .call _ next => next.Waits d
  | .later work next => work.Waits d ∧ next.Waits d

theorem Code.Waits.resumes {d : Design} {code code' : Code Req Op Err Val} (h : code.Waits d)
    (hresumes : code.Resumes code') : code'.Waits d := by
  cases hresumes with
  | passed errors next => exact h
  | refused errors next error herror => trivial
  | answered next value => exact h value

/-- A place is kept when the table grows, and given on to all that is started. -/
structure Placement (d : Design) (n : Nat) (P : List Frame → Nat → Prop) : Prop where
  mono : ∀ {frames frames' t}, frames <+: frames' → P frames t → P frames' t
  started : ∀ {frames : List Frame} {t s : Nat} {frame : Frame}, frames[t]? = some frame →
    frame.origin.starter = some s → P frames s → P frames t
  operation : ∀ {frames root t}, d = .around → Reached frames root n t → P frames t

theorem placement_placed (d : Design) (n : Nat) : Placement d n (Placed d n) :=
  ⟨Placed.mono, .started, .operation⟩

theorem placement_none (n : Nat) : Placement .before n fun _ _ => False :=
  ⟨fun _ h => h, fun _ _ h => h, nofun⟩

/-- What the status of `t` says of its code and its place. -/
def Suits (d : Design) (n : Nat) (P : List Frame → Nat → Prop) (frames : List Frame) (t : Nat) :
    Status Req Op Err Val → Prop
  | .absent => False
  | .running code =>
    (∀ root level, Reached frames root level t → level = n) ∧ (P frames t ∨ code.Waits d)
  | .waiting s next =>
    (∀ root level, Reached frames root level t → level = n) ∧ Reached frames t 0 s ∧
      (d = .around → P frames t ∨ ∀ value, (next value).Waits d)
  | .interceptor level operation _ =>
    level < n ∧ (∃ root, Reached frames root level t) ∧
      (d = .before → P frames t ∨ operation.Waits d)

/-- The invariant: `P` says who has a place. -/
structure Confined (d : Design) (n : Nat) (P : List Frame → Nat → Prop) (w : World Req Op Err Val) :
    Prop where
  known : ∀ t, w.frames.length ≤ t → w.status t = .absent
  calls : OneCall w.frames
  suits : ∀ t < w.frames.length, Suits d n P w.frames t (w.status t)
  performed : ∀ t op, (t, op) ∈ w.performed → P w.frames t
  returned : ∀ t s, (t, s) ∈ w.returned → ∃ (frame : Frame) (outcome : Except Err Val),
    w.frames[s]? = some frame ∧ frame.origin = .proceed t ∧ (w.status s).outcome = some outcome

theorem confined_init (d : Design) (n : Nat) (P : List Frame → Nat → Prop) :
    Confined d n P (World.init : World Req Op Err Val) :=
  ⟨fun _ _ => rfl, fun t frame h => by simp [World.init] at h, nofun, nofun, nofun⟩

section

variable {d : Design} {n t : Nat} {P : List Frame → Nat → Prop} {frames : List Frame} {frame : Frame}
  {status : Status Req Op Err Val} {w w' : World Req Op Err Val}

theorem Reached.of_append {root level : Nat} (hcalls : OneCall frames)
    (h : Reached (frames ++ [frame]) root level t) (ht : t < frames.length) :
    Reached frames root level t := by
  induction h with
  | entered hframe horigin =>
    rw [List.getElem?_append_left ht] at hframe
    exact .entered hframe horigin
  | proceeded _ hframe horigin ih =>
    rw [List.getElem?_append_left ht] at hframe
    obtain ⟨starter, hstarter, -⟩ := hcalls _ _ hframe _ (by rw [horigin]; rfl)
    exact .proceeded (ih (List.getElem?_eq_some_iff.mp hstarter).1) hframe horigin

theorem OneCall.append (hcalls : OneCall frames)
    (hstarter : ∀ s, frame.origin.starter = some s →
      ∃ starter : Frame, frames[s]? = some starter ∧ starter.call = frame.call) :
    OneCall (frames ++ [frame]) := by
  intro t frame' h s hs
  have hgrow : frames <+: frames ++ [frame] := List.prefix_append _ _
  by_cases ht : t < frames.length
  · rw [List.getElem?_append_left ht] at h
    obtain ⟨starter, hget, hcall⟩ := hcalls t frame' h s hs
    exact ⟨starter, getElem?_grow hgrow hget, hcall⟩
  · rw [List.getElem?_append_right (Nat.le_of_not_lt ht)] at h
    obtain rfl := List.mem_singleton.mp (List.mem_of_getElem? h)
    obtain ⟨starter, hget, hcall⟩ := hstarter s hs
    exact ⟨starter, getElem?_grow hgrow hget, hcall⟩

theorem Suits.append (hP : Placement d n P) (hcalls : OneCall frames) (ht : t < frames.length)
    (h : Suits d n P frames t status) : Suits d n P (frames ++ [frame]) t status := by
  have hgrow : frames <+: frames ++ [frame] := List.prefix_append _ _
  cases status with
  | absent => exact h
  | running code =>
    exact ⟨fun root level hreached => h.1 root level (hreached.of_append hcalls ht),
      h.2.imp_left (hP.mono hgrow)⟩
  | waiting s next =>
    exact ⟨fun root level hreached => h.1 root level (hreached.of_append hcalls ht),
      h.2.1.mono hgrow, fun hd => (h.2.2 hd).imp_left (hP.mono hgrow)⟩
  | interceptor level operation outcome =>
    obtain ⟨hlevel, ⟨root, hreached⟩, hoperation⟩ := h
    exact ⟨hlevel, ⟨root, hreached.mono hgrow⟩,
      fun hd => (hoperation hd).imp_left (hP.mono hgrow)⟩

theorem Confined.lt_of_status (h : Confined d n P w) (ht : w.status t ≠ .absent) :
    t < w.frames.length :=
  Nat.lt_of_not_le fun hle => ht (h.known t hle)

theorem Confined.start (hP : Placement d n P) (h : Confined d n P w)
    (hstarter : ∀ s, frame.origin.starter = some s →
      ∃ starter : Frame, w.frames[s]? = some starter ∧ starter.call = frame.call)
    (hsuits : Suits d n P (w.frames ++ [frame]) w.frames.length status) :
    Confined d n P (w.start frame status) := by
  have hgrow : w.frames <+: w.frames ++ [frame] := List.prefix_append _ _
  refine ⟨fun t ht => ?_, h.calls.append hstarter, fun t ht => ?_, fun t op hmem => ?_,
    fun t s hmem => ?_⟩
  · rw [World.start, List.length_append, List.length_singleton] at ht
    show Function.update w.status w.frames.length status t = .absent
    rw [Function.update_of_ne (by omega)]
    exact h.known t (by omega)
  · rw [World.start, List.length_append, List.length_singleton] at ht
    show Suits d n P (w.frames ++ [frame]) t (Function.update w.status w.frames.length status t)
    rcases Nat.lt_succ_iff_lt_or_eq.mp ht with hlt | rfl
    · rw [Function.update_of_ne (by omega)]
      exact (h.suits t hlt).append hP h.calls hlt
    · rw [Function.update_self]
      exact hsuits
  · exact hP.mono hgrow (h.performed t op hmem)
  · obtain ⟨frame', outcome, hframe, horigin, houtcome⟩ := h.returned t s hmem
    refine ⟨frame', outcome, getElem?_grow hgrow hframe, horigin, ?_⟩
    have hlt := (List.getElem?_eq_some_iff.mp hframe).1
    show (Function.update w.status w.frames.length status s).outcome = some outcome
    rw [Function.update_of_ne (by omega)]
    exact houtcome

theorem Confined.become (h : Confined d n P w) (ht : t < w.frames.length)
    (hopen : (w.status t).outcome = none) (hsuits : Suits d n P w.frames t status) :
    Confined d n P (w.become t status) := by
  refine ⟨fun t' ht' => ?_, h.calls, fun t' ht' => ?_, h.performed, fun t' s hmem => ?_⟩
  · have hne : t' ≠ t := fun heq => absurd ht' (Nat.not_le_of_lt (heq ▸ ht))
    show Function.update w.status t status t' = .absent
    rw [Function.update_of_ne hne]
    exact h.known t' ht'
  · show Suits d n P w.frames t' (Function.update w.status t status t')
    by_cases heq : t' = t
    · subst heq
      rw [Function.update_self]
      exact hsuits
    · rw [Function.update_of_ne heq]
      exact h.suits t' ht'
  · obtain ⟨frame', outcome, hframe, horigin, houtcome⟩ := h.returned t' s hmem
    have hne : s ≠ t := by
      rintro rfl
      rw [hopen] at houtcome
      cases houtcome
    refine ⟨frame', outcome, hframe, horigin, ?_⟩
    show (Function.update w.status t status s).outcome = some outcome
    rw [Function.update_of_ne hne]
    exact houtcome

theorem suits_stage {root level : Nat} {operation : Code Req Op Err Val} (hP : Placement d n P)
    (hlevel : level ≤ n) (hreached : Reached frames root level t)
    (hoperation : d = .before → P frames t ∨ operation.Waits d) :
    Suits d n P frames t (stage n level operation) := by
  unfold stage
  split
  · rename_i hlt
    exact ⟨hlt, ⟨root, hreached⟩, hoperation⟩
  · obtain rfl : level = n := by omega
    refine ⟨fun root' level' h => (h.unique hreached).2, ?_⟩
    cases d with
    | around => exact .inl (hP.operation rfl hreached)
    | before => exact hoperation rfl

theorem getElem?_snoc (frames : List Frame) (frame : Frame) :
    (frames ++ [frame])[frames.length]? = some frame := by
  rw [List.getElem?_append_right (Nat.le_refl _), Nat.sub_self, List.getElem?_cons_zero]

variable {e : Event Req Op Err Val} {serve : Req → Code Req Op Err Val}

theorem Confined.suits_of (h : Confined d n P w) (hstatus : w.status t = status)
    (hpresent : status ≠ .absent) : t < w.frames.length ∧ Suits d n P w.frames t status := by
  have ht : t < w.frames.length := h.lt_of_status (hstatus ▸ hpresent)
  exact ⟨ht, hstatus ▸ h.suits t ht⟩

theorem Placement.snoc (hP : Placement d n P) (hstarter : frame.origin.starter = some t)
    (h : P frames t) : P (frames ++ [frame]) frames.length :=
  hP.started (getElem?_snoc frames frame) hstarter (hP.mono (List.prefix_append _ _) h)

theorem not_reached_snoc {root level : Nat} (hchain : ∀ s, frame.origin ≠ .chain s)
    (hproceed : ∀ s, frame.origin ≠ .proceed s) :
    ¬Reached (frames ++ [frame]) root level frames.length := by
  intro h
  cases h with
  | entered hframe horigin =>
    rw [getElem?_snoc] at hframe
    obtain rfl := Option.some.inj hframe
    exact hchain _ horigin
  | proceeded _ hframe horigin =>
    rw [getElem?_snoc] at hframe
    obtain rfl := Option.some.inj hframe
    exact hproceed _ horigin

theorem Confined.startCall (hP : Placement d n P) (hserve : ∀ req, (serve req).Waits d)
    (h : Confined d n P w) (req : Req) :
    Confined d n P (w.start ⟨w.frames.length, .call⟩ (.running (serve req))) :=
  h.start hP nofun
    ⟨fun _ _ hreached => absurd hreached (not_reached_snoc nofun nofun), .inr (hserve req)⟩

theorem Confined.goOn {status' : Status Req Op Err Val}
    (hstart : Confined d n P (w.start frame status')) (ht : t < w.frames.length)
    (hopen : (w.status t).outcome = none) (hsuits : Suits d n P (w.frames ++ [frame]) t status) :
    Confined d n P ((w.start frame status').become t status) := by
  refine hstart.become (Nat.lt_of_lt_of_le ht (List.prefix_append _ _).length_le) ?_ hsuits
  show (Function.update w.status w.frames.length status' t).outcome = none
  rw [Function.update_of_ne (Nat.ne_of_lt ht)]
  exact hopen

/-- Every step keeps the invariant, if the return of a chain gives a place. -/
theorem Confined.step (hP : Placement d n P) (hserve : ∀ req, (serve req).Waits d)
    (hresult : d = .before → ∀ t s next value, w.status t = .waiting s next →
      (w.status s).outcome = some (.ok value) → P w.frames t)
    (h : Confined d n P w) (hstep : Step n serve w e w') : Confined d n P w' := by
  have hgrows (frame : Frame) : w.frames <+: w.frames ++ [frame] := List.prefix_append _ _
  cases hstep with
  | arrive req => exact h.startCall hP hserve req
  | @resume t code code' hstatus hresumes =>
    obtain ⟨ht, hlevel, hcode⟩ := h.suits_of hstatus nofun
    refine h.become ht ?_ (And.intro hlevel (hcode.imp_right (·.resumes hresumes)))
    rw [hstatus]
    cases hresumes <;> rfl
  | @perform t op next answer hstatus =>
    obtain ⟨ht, hlevel, hcode⟩ := h.suits_of hstatus nofun
    -- Code that waits performs nothing, so `t` has its place.
    have hplace : P w.frames t := hcode.resolve_right id
    have hsuits : Suits d n P w.frames t (.running (.after next answer)) := ⟨hlevel, .inl hplace⟩
    have hnext := h.become ht (by rw [hstatus]; rfl) hsuits
    refine ⟨hnext.known, hnext.calls, hnext.suits, fun t' op' hmem => ?_, hnext.returned⟩
    rcases List.mem_cons.mp hmem with heq | hmem
    · cases heq
      exact hplace
    · exact h.performed t' op' hmem
  | @guard t frame operation next hframe hstatus =>
    obtain ⟨ht, hlevel, hcode⟩ := h.suits_of hstatus nofun
    have hentered : Reached (w.frames ++ [⟨frame.call, .chain t⟩]) t 0 w.frames.length :=
      .entered (getElem?_snoc _ _) rfl
    have hstart : Confined d n P (w.start ⟨frame.call, .chain t⟩ (stage n 0 operation)) := by
      refine h.start hP (fun s hs => ?_) (suits_stage hP (Nat.zero_le n) hentered fun hd => ?_)
      · cases hs
        exact ⟨frame, hframe, rfl⟩
      · subst hd
        exact hcode.imp_left fun hplace => hP.snoc rfl hplace
    refine hstart.goOn ht (by rw [hstatus]; rfl)
      (And.intro (fun root level hreached => hlevel root level (hreached.of_append h.calls ht))
        ⟨hentered, fun hd => ?_⟩)
    subst hd
    exact hcode.imp_left (hP.mono (hgrows _))
  | @proceed t frame level operation outcome hframe hstatus =>
    obtain ⟨ht, hlevel, ⟨root, hreached⟩, hoperation⟩ := h.suits_of hstatus nofun
    refine h.start hP (fun s hs => ?_) ?_
    · cases hs
      exact ⟨frame, hframe, rfl⟩
    · refine suits_stage hP hlevel
        (.proceeded (hreached.mono (hgrows _)) (getElem?_snoc _ _) rfl) fun hd => ?_
      exact (hoperation hd).imp_left fun hplace => hP.snoc rfl hplace
  | @back t s frame outcome hframe horigin houtcome =>
    refine ⟨h.known, h.calls, h.suits, h.performed, fun t' s' hmem => ?_⟩
    rcases List.mem_cons.mp hmem with heq | hmem
    · cases heq
      exact ⟨frame, outcome, hframe, horigin, houtcome⟩
    · exact h.returned t' s' hmem
  | @finish t level operation outcome hstatus =>
    obtain ⟨ht, hsuits⟩ := h.suits_of hstatus nofun
    exact h.become ht (by rw [hstatus]; rfl) hsuits
  | @result t s next outcome hstatus houtcome =>
    obtain ⟨ht, hlevel, -, hnext⟩ := h.suits_of hstatus nofun
    refine h.become ht (by rw [hstatus]; rfl) (And.intro hlevel ?_)
    cases outcome with
    | error error => exact .inr trivial
    | ok value =>
      cases d with
      | around => exact (hnext rfl).imp_right (· value)
      | before => exact .inl (hresult rfl t s next value hstatus houtcome)
  | @call t req next value hstatus =>
    obtain ⟨ht, hlevel, hcode⟩ := h.suits_of hstatus nofun
    exact (h.startCall hP hserve (req value)).goOn ht (by rw [hstatus]; rfl)
      (And.intro (fun root level hreached => hlevel root level (hreached.of_append h.calls ht))
        (hcode.imp_left (hP.mono (hgrows _))))
  | @later t frame work next hframe hstatus =>
    obtain ⟨ht, hlevel, hcode⟩ := h.suits_of hstatus nofun
    have hstart : Confined d n P (w.start ⟨frame.call, .later t⟩ (.running work)) := by
      refine h.start hP (fun s hs => ?_)
        (And.intro (fun _ _ hreached => absurd hreached (not_reached_snoc nofun nofun)) ?_)
      · cases hs
        exact ⟨frame, hframe, rfl⟩
      · exact hcode.imp (hP.snoc rfl) (·.1)
    exact hstart.goOn ht (by rw [hstatus]; rfl)
      (And.intro (fun root level hreached => hlevel root level (hreached.of_append h.calls ht))
        (hcode.imp (hP.mono (hgrows _)) (·.2)))

theorem Step.frames_grow (hstep : Step n serve w e w') : w.frames <+: w'.frames := by
  cases hstep with
  | arrive | guard | proceed | call | later => exact List.prefix_append _ _
  | resume | perform | back | finish | result => exact List.prefix_refl _

theorem Step.finished {level : Nat} {operation : Code Req Op Err Val} {outcome : Except Err Val}
    (hstep : Step n serve w e w')
    (h : w'.status t = .interceptor level operation (some outcome)) :
    w.status t = .interceptor level operation (some outcome) ∨
      e = .finish t outcome ∧ w.status t = .interceptor level operation none := by
  have hstart {w : World Req Op Err Val} {frame : Frame} {status : Status Req Op Err Val}
      (h : (w.start frame status).status t = .interceptor level operation (some outcome))
      (hstatus : status ≠ .interceptor level operation (some outcome)) :
      w.status t = .interceptor level operation (some outcome) := by
    change Function.update w.status w.frames.length status t = _ at h
    by_cases ht : t = w.frames.length
    · subst ht
      rw [Function.update_self] at h
      exact absurd h hstatus
    · rwa [Function.update_of_ne ht] at h
  have hbecome {w : World Req Op Err Val} {t' : Nat} {status : Status Req Op Err Val}
      (h : (w.become t' status).status t = .interceptor level operation (some outcome))
      (hstatus : status ≠ .interceptor level operation (some outcome)) :
      w.status t = .interceptor level operation (some outcome) := by
    change Function.update w.status t' status t = _ at h
    by_cases ht : t = t'
    · subst ht
      rw [Function.update_self] at h
      exact absurd h hstatus
    · rwa [Function.update_of_ne ht] at h
  have hstage (level' : Nat) (operation' : Code Req Op Err Val) :
      stage n level' operation' ≠ .interceptor level operation (some outcome) := by
    unfold stage
    split <;> simp
  cases hstep with
  | arrive req => exact .inl (hstart h nofun)
  | resume hstatus hresumes => exact .inl (hbecome h nofun)
  | perform answer hstatus => exact .inl (hbecome h nofun)
  | guard hframe hstatus => exact .inl (hstart (hbecome h nofun) (hstage _ _))
  | proceed hframe hstatus => exact .inl (hstart h (hstage _ _))
  | back hframe horigin houtcome => exact .inl h
  | @finish t' level' operation' outcome' hstatus =>
    by_cases ht : t = t'
    · subst ht
      change Function.update w.status t _ t = _ at h
      rw [Function.update_self] at h
      cases h
      exact .inr ⟨rfl, hstatus⟩
    · change Function.update w.status t' _ t = _ at h
      rw [Function.update_of_ne ht] at h
      exact .inl h
  | result hstatus houtcome => exact .inl (hbecome h nofun)
  | call value hstatus => exact .inl (hstart (hbecome h nofun) nofun)
  | later hframe hstatus => exact .inl (hstart (hbecome h nofun) nofun)

/-! ## Runs -/

theorem Confined.guards (h : Confined d n (Placed d n) w) : Guards d n w := by
  refine ⟨fun _ => h.performed, h.returned, fun call level hlevel hnone t op hmem frame hframe => ?_⟩
  rintro rfl
  exact hnone ((h.performed t op hmem).proceeds h.calls hframe hlevel)

theorem guards_around {events : List (Event Req Op Err Val)}
    (hserve : ∀ req, (serve req).Waits .around) (h : Run (Step n serve) .init events w) :
    Guards .around n w := by
  have hconfined : Confined .around n (Placed .around n) w :=
    h.invariant (fun _ _ _ hI hstep => hI.step (placement_placed _ n) hserve nofun hstep)
      (confined_init ..)
  exact hconfined.guards

/-- The stage that a chain came back from, or its operation. -/
theorem Confined.stage_cases {root level : Nat} {outcome : Except Err Val}
    (h : Confined d n P w) (hreached : Reached w.frames root level t)
    (houtcome : (w.status t).outcome = some outcome) :
    level = n ∨ ∃ operation, w.status t = .interceptor level operation (some outcome) := by
  obtain ⟨frame, hframe⟩ := hreached.exists_frame
  have hsuits := h.suits t (List.getElem?_eq_some_iff.mp hframe).1
  cases hstatus : w.status t with
  | absent => rw [hstatus] at houtcome; cases houtcome
  | waiting s next => rw [hstatus] at houtcome; cases houtcome
  | running code =>
    rw [hstatus] at hsuits
    exact .inl (hsuits.1 root level hreached)
  | interceptor level' operation outcome' =>
    rw [hstatus] at hsuits houtcome
    obtain ⟨root', hreached'⟩ := hsuits.2.1
    obtain ⟨-, rfl⟩ := hreached.unique hreached'
    exact .inr ⟨operation, by rw [show outcome' = some outcome from houtcome]⟩

/-- The outermost interceptor of a chain does not return. -/
def OutermostThrows (w : World Req Op Err Val) : Event Req Op Err Val → Prop
  | .finish t (.ok _) => ∀ operation outcome, w.status t ≠ .interceptor 0 operation outcome
  | _ => True

/-- An interceptor returns only after a `proceed` without an error. -/
def ReturnsAfterProceed (w : World Req Op Err Val) : Event Req Op Err Val → Prop
  | .finish t (.ok _) => ∃ s value, (t, s) ∈ w.returned ∧ (w.status s).outcome = some (.ok value)
  | _ => True

theorem guards_of_outermostThrows {events : List (Event Req Op Err Val)}
    (hserve : ∀ req, (serve req).Waits .before)
    (h : Run (Restrict (Step n serve) OutermostThrows) .init events w) : Guards .around n w := by
  by_cases hn : n = 0
  · -- With no interceptors there is nothing to guard.
    subst hn
    have hconfined : Confined .before 0 (Placed .before 0) w := by
      refine h.invariant (fun w _ _ hI hstep => hI.step (placement_placed _ 0) hserve ?_ hstep.1)
        (confined_init ..)
      intro _ t s next value hstatus _
      obtain ⟨-, -, hreached, -⟩ := hI.suits_of hstatus nofun
      exact .behind rfl hreached
    exact ⟨fun hne => absurd rfl hne, hconfined.returned, fun _ _ hlt => absurd hlt (Nat.not_lt_zero _)⟩
  · have hinvariant : Confined .before n (fun _ _ => False) w ∧
        ∀ t operation value, w.status t ≠ .interceptor 0 operation (some (.ok value)) := by
      refine h.invariant (I := fun w => Confined .before n (fun _ _ => False) w ∧
          ∀ t operation value, w.status t ≠ .interceptor 0 operation (some (.ok value)))
        (fun w e w' hI hstep => ⟨?_, fun t operation value hstatus => ?_⟩) ⟨confined_init .., nofun⟩
      · refine hI.1.step (placement_none n) hserve (fun _ t s next value hstatus houtcome => ?_) hstep.1
        obtain ⟨-, -, hreached, -⟩ := hI.1.suits_of hstatus nofun
        rcases hI.1.stage_cases hreached houtcome with heq | ⟨operation, hstage⟩
        · exact hn heq.symm
        · exact hI.2 _ _ _ hstage
      · rcases hstep.1.finished hstatus with hstatus | ⟨rfl, hstatus⟩
        · exact hI.2 _ _ _ hstatus
        · exact hstep.2 _ _ hstatus
    obtain ⟨hconfined, -⟩ := hinvariant
    exact ⟨fun _ t op hmem => absurd (hconfined.performed t op hmem) id, hconfined.returned,
      fun _ _ _ _ t op hmem => absurd (hconfined.performed t op hmem) id⟩

/-- What follows a chain is behind them, if none returns before. -/
theorem guards_of_returnsAfterProceed {events : List (Event Req Op Err Val)}
    (hserve : ∀ req, (serve req).Waits .before)
    (h : Run (Restrict (Step n serve) ReturnsAfterProceed) .init events w) : Guards .before n w := by
  -- Behind an interceptor that returned, the end of the chain was reached.
  have hinvariant : Confined .before n (Placed .before n) w ∧
      ∀ t level operation value, w.status t = .interceptor level operation (some (.ok value)) →
        ∃ root s, Reached w.frames root level t ∧ Reached w.frames root n s := by
    refine h.invariant (I := fun w => Confined .before n (Placed .before n) w ∧
        ∀ t level operation value, w.status t = .interceptor level operation (some (.ok value)) →
          ∃ root s, Reached w.frames root level t ∧ Reached w.frames root n s)
      (fun w e w' hI hstep => ⟨?_, fun t level operation value hstatus => ?_⟩)
      ⟨confined_init .., nofun⟩
    · refine hI.1.step (placement_placed _ n) hserve (fun _ t s next value hstatus houtcome => ?_)
        hstep.1
      obtain ⟨-, -, hreached, -⟩ := hI.1.suits_of hstatus nofun
      rcases hI.1.stage_cases hreached houtcome with rfl | ⟨operation, hstage⟩
      · exact .behind rfl hreached
      · obtain ⟨root, last, hreached', hlast⟩ := hI.2 _ _ _ _ hstage
        obtain ⟨rfl, -⟩ := hreached.unique hreached'
        exact .behind rfl hlast
    · have hgrow := hstep.1.frames_grow
      rcases hstep.1.finished hstatus with hstatus | ⟨rfl, hstatus⟩
      · obtain ⟨root, last, hreached, hlast⟩ := hI.2 _ _ _ _ hstatus
        exact ⟨root, last, hreached.mono hgrow, hlast.mono hgrow⟩
      · obtain ⟨s, value', hback, houtcome⟩ := hstep.2
        obtain ⟨frame, -, hframe, horigin, -⟩ := hI.1.returned _ _ hback
        obtain ⟨-, -, ⟨root, hreached⟩, -⟩ := hI.1.suits_of hstatus nofun
        have hnext : Reached w.frames root (level + 1) s := .proceeded hreached hframe horigin
        rcases hI.1.stage_cases hnext houtcome with hlevel | ⟨operation', hstage⟩
        · exact ⟨root, s, hreached.mono hgrow, (hlevel ▸ hnext).mono hgrow⟩
        · obtain ⟨root', last, hnext', hlast⟩ := hI.2 _ _ _ _ hstage
          obtain ⟨rfl, -⟩ := hnext.unique hnext'
          exact ⟨root, last, hreached.mono hgrow, hlast.mono hgrow⟩
  exact hinvariant.1.guards

end

end Interception
