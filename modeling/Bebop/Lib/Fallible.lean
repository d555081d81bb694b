import Mathlib.Tactic.Common

/-!
# Programs that read and write a state, and may fail

`wp m Q s` says that the program `m`, begun in the state `s`, does not fail and ends in a
value and a state of which `Q` holds. There is one rule for each way to put programs
together, and `wp_loop` for a loop. `Keeps` is for programs that keep an invariant and
move the state along an order, `Along` for those that may fail.
-/

namespace Fallible

variable {σ ε α β γ : Type}

/-- From a state the program ends, in a value and a state of which `Q` holds. -/
def wp (m : StateT σ (Except ε) α) (Q : α → σ → Prop) (s : σ) : Prop :=
  ∃ a s', m s = .ok (a, s') ∧ Q a s'

variable {m : StateT σ (Except ε) α} {f : α → StateT σ (Except ε) β} {Q Q' : α → σ → Prop} {s : σ}

theorem wp_mono (h : wp m Q s) (hpost : ∀ a s', Q a s' → Q' a s') : wp m Q' s := by
  obtain ⟨a, s', hrun, hQ⟩ := h
  exact ⟨a, s', hrun, hpost a s' hQ⟩

theorem wp_pure {a : α} (h : Q a s) : wp (pure a : StateT σ (Except ε) α) Q s := ⟨a, s, rfl, h⟩

theorem wp_bind {Q : β → σ → Prop} (h : wp m (fun a => wp (f a) Q) s) : wp (m >>= f) Q s := by
  obtain ⟨a, s₁, hrun, b, s₂, hrun', hQ⟩ := h
  refine ⟨b, s₂, ?_, hQ⟩
  show (m s >>= fun r => f r.1 r.2) = _
  rw [hrun]
  exact hrun'

theorem wp_get {Q : σ → σ → Prop} (h : Q s s) : wp (get : StateT σ (Except ε) σ) Q s := ⟨s, s, rfl, h⟩

theorem wp_modify {g : σ → σ} {Q : PUnit → σ → Prop} (h : Q ⟨⟩ (g s)) :
    wp (modify g : StateT σ (Except ε) PUnit) Q s := ⟨⟨⟩, g s, rfl, h⟩

theorem wp_ite {p : Prop} [Decidable p] {m m' : StateT σ (Except ε) α} (h : p → wp m Q s)
    (h' : ¬p → wp m' Q s) : wp (if p then m else m') Q s := by
  by_cases hp : p
  · rw [if_pos hp]
    exact h hp
  · rw [if_neg hp]
    exact h' hp

/-! ## Programs that may end without a result -/

section Optional

variable {x : OptionT (StateT σ (Except ε)) α} {g : α → OptionT (StateT σ (Except ε)) β}

theorem wp_runPure {Q : Option α → σ → Prop} {a : α} (h : Q (some a) s) :
    wp (pure a : OptionT (StateT σ (Except ε)) α).run Q s := wp_pure h

theorem wp_runFailure {Q : Option α → σ → Prop} (h : Q none s) :
    wp (failure : OptionT (StateT σ (Except ε)) α).run Q s := wp_pure h

theorem wp_runBind {Q : Option β → σ → Prop}
    (h : wp x.run (fun r s' => (∀ a, r = some a → wp (g a).run Q s') ∧ (r = none → Q none s')) s) :
    wp (x >>= g).run Q s := by
  rw [OptionT.run_bind]
  refine wp_bind (wp_mono h fun r s' ⟨hsome, hnone⟩ => ?_)
  cases r with
  | none => exact wp_pure (hnone rfl)
  | some a => exact hsome a rfl

theorem wp_runLift {Q : Option β → σ → Prop} {g : α → OptionT (StateT σ (Except ε)) β}
    (h : wp m (fun a => wp (g a).run Q) s) : wp (liftM m >>= g).run Q s := by
  show wp (OptionT.lift m >>= g).run Q s
  rw [OptionT.run_bind_lift]
  exact wp_bind h

theorem wp_runLiftEnd {Q : Option α → σ → Prop} (h : wp m (fun a => Q (some a)) s) :
    wp (liftM m : OptionT (StateT σ (Except ε)) α).run Q s := by
  show wp (m >>= fun a => pure (some a)) Q s
  exact wp_bind (wp_mono h fun _ _ hQ => wp_pure hQ)

theorem wp_runIte {Q : Option α → σ → Prop} {p : Prop} [Decidable p] {x x' : OptionT (StateT σ (Except ε)) α}
    (h : p → wp x.run Q s) (h' : ¬p → wp x'.run Q s) : wp (if p then x else x').run Q s := by
  by_cases hp : p
  · rw [if_pos hp]
    exact h hp
  · rw [if_neg hp]
    exact h' hp

end Optional

/-! ## What a program did that ended -/

theorem run_bind_ok {b : β} {s' : σ} :
    (m >>= f) s = .ok (b, s') ↔ ∃ a t, m s = .ok (a, t) ∧ f a t = .ok (b, s') := by
  show (m s >>= fun r => f r.1 r.2) = _ ↔ _
  constructor
  · intro h
    cases hm : m s with
    | error e => rw [hm] at h; cases h
    | ok r => rw [hm] at h; exact ⟨r.1, r.2, rfl, h⟩
  · rintro ⟨a, t, hm, hf⟩
    rw [hm]
    exact hf

theorem run_bind_of_ok {a : α} {t : σ} (h : m s = .ok (a, t)) : (m >>= f) s = f a t := by
  show (m s >>= fun r => f r.1 r.2) = _
  rw [h]
  rfl

theorem run_bind_of_error {e : ε} (h : m s = .error e) : (m >>= f) s = .error e := by
  show (m s >>= fun r => f r.1 r.2) = _
  rw [h]
  rfl

theorem run_get_bind {f : σ → StateT σ (Except ε) β} : (get >>= f) s = f s s := rfl

theorem run_pure_ok {a b : α} {s' : σ} : (pure a : StateT σ (Except ε) α) s = .ok (b, s') ↔ a = b ∧ s = s' := by
  show Except.ok (a, s) = .ok (b, s') ↔ _
  rw [Except.ok.injEq, Prod.mk.injEq]

section Optional

variable {x : OptionT (StateT σ (Except ε)) α} {g : α → OptionT (StateT σ (Except ε)) β}

theorem runBind_some {b : β} {s' : σ} : (x >>= g).run s = .ok (some b, s') ↔
    ∃ a t, x.run s = .ok (some a, t) ∧ (g a).run t = .ok (some b, s') := by
  rw [OptionT.run_bind]
  refine run_bind_ok.trans ?_
  constructor
  · rintro ⟨r, t, hx, hg⟩
    cases r with
    | none => cases hg
    | some a => exact ⟨a, t, hx, hg⟩
  · rintro ⟨a, t, hx, hg⟩
    exact ⟨some a, t, hx, hg⟩

theorem runPure_some {a b : α} {s' : σ} :
    (pure a : OptionT (StateT σ (Except ε)) α).run s = .ok (some b, s') ↔ a = b ∧ s = s' := by
  refine run_pure_ok.trans ?_
  rw [Option.some_inj]

theorem runFailure_some {a : α} {s' : σ} :
    ¬(failure : OptionT (StateT σ (Except ε)) α).run s = .ok (some a, s') := by
  intro h
  cases h

theorem runLift_some {a : α} {s' : σ} :
    (liftM m : OptionT (StateT σ (Except ε)) α).run s = .ok (some a, s') ↔ m s = .ok (a, s') := by
  show (m >>= fun a => pure (some a)) s = _ ↔ _
  rw [run_bind_ok]
  constructor
  · rintro ⟨a', t, hm, hpure⟩
    obtain ⟨ha, rfl⟩ := run_pure_ok.mp hpure
    rw [hm, Option.some.inj ha]
  · exact fun hm => ⟨a, s', hm, rfl⟩

theorem runLiftBind_some {b : β} {s' : σ} {g : α → OptionT (StateT σ (Except ε)) β} :
    (liftM m >>= g).run s = .ok (some b, s') ↔ ∃ a t, m s = .ok (a, t) ∧ (g a).run t = .ok (some b, s') := by
  rw [runBind_some]
  refine exists_congr fun a => exists_congr fun t => and_congr_left fun _ => runLift_some

end Optional

/-! ## Loops -/

/-- A bounded loop: a round ends it with a result, or hands on what the next begins with. -/
def loop (outOfFuel : ε) (body : β → StateT σ (Except ε) (β ⊕ γ)) : Nat → β → StateT σ (Except ε) γ
  | 0, _ => fun _ => .error outOfFuel
  | fuel + 1, b => do
    match ← body b with
    | .inl b => loop outOfFuel body fuel b
    | .inr c => pure c

section Rounds

variable {outOfFuel : ε} {body : β → StateT σ (Except ε) (β ⊕ γ)} {fuel : Nat} {b : β} {s' : σ}

theorem loop_goes_on {b' : β} (h : body b s = .ok (.inl b', s')) :
    loop outOfFuel body (fuel + 1) b s = loop outOfFuel body fuel b' s' := by
  show (body b s >>= _) = _
  rw [h]
  rfl

theorem loop_ends {c : γ} (h : body b s = .ok (.inr c, s')) : loop outOfFuel body (fuel + 1) b s = .ok (c, s') := by
  show (body b s >>= _) = _
  rw [h]
  rfl

end Rounds

/-- A loop whose rounds keep an invariant and make a measure smaller comes to its end. -/
theorem wp_loop {outOfFuel : ε} {body : β → StateT σ (Except ε) (β ⊕ γ)} {Q : γ → σ → Prop}
    (inv : β → σ → Prop) (measure : β → σ → Nat)
    (hbody : ∀ b s, inv b s → wp (body b) (fun r s' =>
      (∀ b', r = .inl b' → inv b' s' ∧ measure b' s' < measure b s) ∧ ∀ c, r = .inr c → Q c s') s)
    {fuel : Nat} {b : β} {s : σ} (hinv : inv b s) (hfuel : measure b s < fuel) :
    wp (loop outOfFuel body fuel b) Q s := by
  induction fuel generalizing b s with
  | zero => exact absurd hfuel (Nat.not_lt_zero _)
  | succ fuel ih =>
    refine wp_bind (wp_mono (hbody b s hinv) fun r s' hr => ?_)
    cases r with
    | inl b' =>
      obtain ⟨hinv', hless⟩ := hr.1 b' rfl
      exact ih hinv' (by omega)
    | inr c => exact wp_pure (hr.2 c rfl)

/-! ## Programs that keep an invariant -/

/-- An invariant, and an order along which a rank grows, below a limit that it keeps. -/
structure Progress (σ : Type) where
  inv : σ → Prop
  le : σ → σ → Prop
  rank : σ → Nat
  limit : σ → Nat
  refl : ∀ s, le s s
  trans : ∀ {s s' s''}, le s s' → le s' s'' → le s s''
  rank_le : ∀ {s s'}, le s s' → rank s ≤ rank s'
  limit_eq : ∀ {s s'}, le s s' → limit s' = limit s
  rank_lt : ∀ {s}, inv s → rank s < limit s

/-- Where the invariant holds the program does not fail; it keeps it, and goes along the order. -/
class Keeps (P : Progress σ) (m : StateT σ (Except ε) α) : Prop where
  runs : ∀ s, P.inv s → wp m (fun _ s' => P.inv s' ∧ P.le s s') s

/-- A program that keeps the invariant, and where it ends so, has made the rank greater. -/
structure Gains (P : Progress σ) (m : StateT σ (Except ε) α) (so : α → σ → Prop) : Prop where
  runs : ∀ s, P.inv s → wp m (fun a s' => P.inv s' ∧ P.le s s' ∧ (so a s' → P.rank s < P.rank s')) s

section Keeps

variable {P : Progress σ}

theorem wp_keeps [h : Keeps P m] (hs : P.inv s) (hpost : ∀ a s', P.inv s' → P.le s s' → Q a s') : wp m Q s :=
  wp_mono (h.runs s hs) fun a s' ⟨hs', hle⟩ => hpost a s' hs' hle

theorem Keeps.wp (h : Keeps P m) (hs : P.inv s) (hpost : ∀ a s', P.inv s' → P.le s s' → Q a s') : wp m Q s :=
  wp_keeps hs hpost

instance Keeps.pure (a : α) : Keeps P (Pure.pure a : StateT σ (Except ε) α) :=
  ⟨fun s hs => wp_pure ⟨hs, P.refl s⟩⟩

instance Keeps.bind [h : Keeps P m] [h' : ∀ a, Keeps P (f a)] : Keeps P (m >>= f) := by
  refine ⟨fun s hs => wp_bind (h.wp hs fun a s₁ hs₁ hle₁ => ?_)⟩
  exact (h' a).wp hs₁ fun b s₂ hs₂ hle₂ => ⟨hs₂, P.trans hle₁ hle₂⟩

theorem Keeps.after [Keeps P m] (h : ∀ a, Keeps P (f a)) : Keeps P (m >>= f) := inferInstance

instance Keeps.ite {p : Prop} [Decidable p] {m m' : StateT σ (Except ε) α} [h : Keeps P m] [h' : Keeps P m'] :
    Keeps P (if p then m else m') := by
  split
  · exact h
  · exact h'

instance Keeps.get : Keeps P (get : StateT σ (Except ε) σ) := ⟨fun s hs => wp_get ⟨hs, P.refl s⟩⟩

theorem Keeps.modify {g : σ → σ} (h : ∀ s, P.inv s → P.inv (g s) ∧ P.le s (g s)) :
    Keeps P (modify g : StateT σ (Except ε) PUnit) := ⟨fun s hs => wp_modify (h s hs)⟩

theorem Gains.keeps {so : α → σ → Prop} (h : Gains P m so) : Keeps P m :=
  ⟨fun s hs => wp_mono (h.runs s hs) fun _ _ ⟨hs', hle, _⟩ => ⟨hs', hle⟩⟩

/-! ## Programs that make the rank greater -/

section Gains

variable {so : β → σ → Prop}

theorem Gains.wp {so : α → σ → Prop} (h : Gains P m so) (hs : P.inv s)
    (hpost : ∀ a s', P.inv s' → P.le s s' → (so a s' → P.rank s < P.rank s') → Q a s') : wp m Q s :=
  wp_mono (h.runs s hs) fun a s' ⟨hs', hle, hlt⟩ => hpost a s' hs' hle hlt

theorem Gains.pure {b : β} (h : ∀ s, ¬so b s) : Gains P (Pure.pure b : StateT σ (Except ε) β) so :=
  ⟨fun s hs => wp_pure ⟨hs, P.refl s, fun hso => absurd hso (h s)⟩⟩

theorem Gains.ite {p : Prop} [Decidable p] {m m' : StateT σ (Except ε) β} (h : p → Gains P m so)
    (h' : ¬p → Gains P m' so) : Gains P (if p then m else m') so := by
  split
  · exact h ‹_›
  · exact h' ‹_›

/-- What comes first gains, or else what comes next does. -/
theorem Gains.bind {first : α → Prop} (h : Gains P m fun a _ => first a) (hkeeps : ∀ a, first a → Keeps P (f a))
    (hgains : ∀ a, ¬first a → Gains P (f a) so) : Gains P (m >>= f) so := by
  refine ⟨fun s hs => wp_bind (h.wp hs fun a s₁ hs₁ hle₁ hlt₁ => ?_)⟩
  by_cases ha : first a
  · refine (hkeeps a ha).wp hs₁ fun b s₂ hs₂ hle₂ => ⟨hs₂, P.trans hle₁ hle₂, fun _ => ?_⟩
    exact Nat.lt_of_lt_of_le (hlt₁ ha) (P.rank_le hle₂)
  · refine (hgains a ha).wp hs₁ fun b s₂ hs₂ hle₂ hlt₂ => ⟨hs₂, P.trans hle₁ hle₂, fun hb => ?_⟩
    exact Nat.lt_of_le_of_lt (P.rank_le hle₁) (hlt₂ hb)

theorem Gains.after [h : Keeps P m] (hgains : ∀ a, Gains P (f a) so) : Gains P (m >>= f) so := by
  refine ⟨fun s hs => wp_bind (h.wp hs fun a s₁ hs₁ hle₁ => ?_)⟩
  refine (hgains a).wp hs₁ fun b s₂ hs₂ hle₂ hlt₂ => ⟨hs₂, P.trans hle₁ hle₂, fun hb => ?_⟩
  exact Nat.lt_of_le_of_lt (P.rank_le hle₁) (hlt₂ hb)

theorem wp_loop_gains {outOfFuel : ε} {body : β → StateT σ (Except ε) (β ⊕ γ)}
    (hbody : ∀ b, Gains P (body b) fun r _ => r.isLeft) {fuel : Nat} {b : β} (hs : P.inv s)
    (hfuel : P.limit s < fuel + P.rank s) :
    wp (loop outOfFuel body fuel b) (fun _ s' => P.inv s' ∧ P.le s s') s := by
  have hround : ∀ (b : β) (s₁ : σ), P.inv s₁ ∧ P.le s s₁ → wp (body b) (fun r s' =>
      (∀ b', r = .inl b' → (P.inv s' ∧ P.le s s') ∧ P.limit s - P.rank s' < P.limit s - P.rank s₁) ∧
        ∀ c, r = .inr c → P.inv s' ∧ P.le s s') s₁ := by
    intro b s₁ ⟨hs₁, hle₁⟩
    refine (hbody b).wp hs₁ fun r s' hs' hle' hlt => ?_
    have hle : P.le s s' := P.trans hle₁ hle'
    constructor
    · rintro b' rfl
      have hless := hlt rfl
      have hlimit := P.rank_lt hs'
      rw [P.limit_eq hle] at hlimit
      exact ⟨⟨hs', hle⟩, by omega⟩
    · rintro c rfl
      exact ⟨hs', hle⟩
  refine wp_loop (fun _ s' => P.inv s' ∧ P.le s s') (fun _ s' => P.limit s - P.rank s') hround ⟨hs, P.refl s⟩ ?_
  show P.limit s - P.rank s < fuel
  have hrank := P.rank_lt hs
  omega

end Gains

/-! ## Programs that may end without a result -/

section Optional

variable {x : OptionT (StateT σ (Except ε)) α} {g : α → OptionT (StateT σ (Except ε)) β}

instance Keeps.runPure (a : α) : Keeps P (Pure.pure a : OptionT (StateT σ (Except ε)) α).run := Keeps.pure (some a)

instance Keeps.runFailure : Keeps P (failure : OptionT (StateT σ (Except ε)) α).run := Keeps.pure none

instance Keeps.runLift [h : Keeps P m] : Keeps P (liftM m : OptionT (StateT σ (Except ε)) α).run := by
  show Keeps P (m >>= fun a => Pure.pure (some a))
  infer_instance

theorem wp_runFails [h : Keeps P m] {Q : Option β → σ → Prop} (hs : P.inv s)
    (hpost : ∀ s', P.inv s' → P.le s s' → Q none s') :
    wp (liftM m >>= fun _ => failure : OptionT (StateT σ (Except ε)) β).run Q s :=
  wp_runLift (wp_keeps hs fun _ s' hs' hle => wp_runFailure (hpost s' hs' hle))

instance Keeps.runMk {m : StateT σ (Except ε) (Option α)} [h : Keeps P m] : Keeps P (OptionT.mk m).run := h

instance Keeps.runBind [h : Keeps P x.run] [h' : ∀ a, Keeps P (g a).run] : Keeps P (x >>= g).run := by
  refine ⟨fun s hs => wp_runBind (h.wp hs fun r s₁ hs₁ hle₁ => ⟨fun a _ => ?_, fun _ => ⟨hs₁, hle₁⟩⟩)⟩
  exact (h' a).wp hs₁ fun _ s₂ hs₂ hle₂ => ⟨hs₂, P.trans hle₁ hle₂⟩

theorem Keeps.runAfter [Keeps P x.run] (h : ∀ a, Keeps P (g a).run) : Keeps P (x >>= g).run := inferInstance

instance Keeps.runIte {p : Prop} [Decidable p] {x x' : OptionT (StateT σ (Except ε)) α} [h : Keeps P x.run]
    [h' : Keeps P x'.run] : Keeps P (if p then x else x').run := by
  split
  · exact h
  · exact h'

theorem Gains.runFailure {so : Option α → σ → Prop} (h : ∀ s, ¬so none s) :
    Gains P (failure : OptionT (StateT σ (Except ε)) α).run so := Gains.pure h

theorem Gains.runBind {so : Option α → σ → Prop} {so' : Option β → σ → Prop} (h : Gains P x.run so)
    (hsome : ∀ a s, so (some a) s) (hnone : ∀ s, so' none s → so none s) [hkeeps : ∀ a, Keeps P (g a).run] :
    Gains P (x >>= g).run so' := by
  refine ⟨fun s hs => wp_runBind (h.wp hs fun r s₁ hs₁ hle₁ hlt₁ => ⟨?_, ?_⟩)⟩
  · rintro a rfl
    refine (hkeeps a).wp hs₁ fun b s₂ hs₂ hle₂ => ⟨hs₂, P.trans hle₁ hle₂, fun _ => ?_⟩
    exact Nat.lt_of_lt_of_le (hlt₁ (hsome a s₁)) (P.rank_le hle₂)
  · rintro rfl
    exact ⟨hs₁, hle₁, fun hso => hlt₁ (hnone s₁ hso)⟩

theorem Gains.runLift {so : Option β → σ → Prop} [h : Keeps P m] {g : α → OptionT (StateT σ (Except ε)) β}
    (hgains : ∀ a, Gains P (g a).run so) : Gains P (liftM m >>= g).run so := by
  refine ⟨fun s hs => wp_runLift (h.wp hs fun a s₁ hs₁ hle₁ => ?_)⟩
  refine (hgains a).wp hs₁ fun b s₂ hs₂ hle₂ hlt₂ => ⟨hs₂, P.trans hle₁ hle₂, fun hb => ?_⟩
  exact Nat.lt_of_le_of_lt (P.rank_le hle₁) (hlt₂ hb)

end Optional

end Keeps

/-! ## Programs that may fail -/

/-- Where the program ends, it has moved its state along a relation. -/
class Along (R : σ → σ → Prop) (m : StateT σ (Except ε) α) : Prop where
  ends : ∀ s a s', m s = .ok (a, s') → R s s'

section Along

variable {R : σ → σ → Prop}

instance Along.pure [Std.Refl R] (a : α) : Along R (Pure.pure a : StateT σ (Except ε) α) := by
  refine ⟨fun s b s' hrun => ?_⟩
  obtain ⟨-, rfl⟩ := run_pure_ok.mp hrun
  exact Std.Refl.refl s

instance Along.bind [IsTrans σ R] [h : Along R m] [h' : ∀ a, Along R (f a)] : Along R (m >>= f) := by
  refine ⟨fun s b s' hrun => ?_⟩
  obtain ⟨a, t, hm, hf⟩ := run_bind_ok.mp hrun
  exact IsTrans.trans _ _ _ (h.ends s a t hm) ((h' a).ends t b s' hf)

theorem Along.after [IsTrans σ R] [Along R m] (h : ∀ a, Along R (f a)) : Along R (m >>= f) := inferInstance

instance Along.ite {p : Prop} [Decidable p] {m m' : StateT σ (Except ε) α} [h : Along R m] [h' : Along R m'] :
    Along R (if p then m else m') := by
  split
  · exact h
  · exact h'

instance Along.get [Std.Refl R] : Along R (get : StateT σ (Except ε) σ) := by
  refine ⟨fun s a s' hrun => ?_⟩
  cases hrun
  exact Std.Refl.refl s

instance Along.lift [Std.Refl R] (x : Except ε α) : Along R (liftM x : StateT σ (Except ε) α) := by
  refine ⟨fun s a s' hrun => ?_⟩
  cases x with
  | error e => cases hrun
  | ok b =>
    cases hrun
    exact Std.Refl.refl s

end Along

end Fallible
