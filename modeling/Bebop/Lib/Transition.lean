import Mathlib.Data.List.Basic

/-!
# Labelled transition systems

A system is a step relation whose labels say what an observer sees of a step, a `Run` a
sequence of steps. What holds of runs follows from what one step does (`Run.invariant`,
`Run.labels`). `Restrict` keeps the steps that meet a condition. `Inevitable` is what
happens whichever steps are taken.
-/

namespace Transition

variable {σ ℓ : Type*}

inductive Run (step : σ → ℓ → σ → Prop) : σ → List ℓ → σ → Prop
  | nil (s : σ) : Run step s [] s
  | cons {s s' s'' : σ} {l : ℓ} {ls : List ℓ} :
      step s l s' → Run step s' ls s'' → Run step s (l :: ls) s''

/-- The steps that meet a condition on the state before them and the label. -/
def Restrict (step : σ → ℓ → σ → Prop) (allowed : σ → ℓ → Prop) (s : σ) (l : ℓ) (s' : σ) : Prop :=
  step s l s' ∧ allowed s l

def Reaches (step : σ → ℓ → σ → Prop) (s s' : σ) : Prop := ∃ ls, Run step s ls s'

/-- Whichever steps are taken, the property holds after finitely many of them. -/
inductive Inevitable (step : σ → ℓ → σ → Prop) (P : σ → Prop) : σ → Prop
  | now {s : σ} : P s → Inevitable step P s
  | later {s : σ} : (∃ l s', step s l s') → (∀ l s', step s l s' → Inevitable step P s') →
      Inevitable step P s

variable {step : σ → ℓ → σ → Prop} {allowed : σ → ℓ → Prop} {s s' s'' : σ} {l : ℓ} {ls ls' : List ℓ}

theorem Run.single (h : step s l s') : Run step s [l] s' := .cons h (.nil s')

theorem Run.append (h : Run step s ls s') (h' : Run step s' ls' s'') :
    Run step s (ls ++ ls') s'' := by
  induction h with
  | nil _ => exact h'
  | cons hstep _ ih => exact .cons hstep (ih h')

theorem Run.split (h : Run step s (ls ++ ls') s'') :
    ∃ s', Run step s ls s' ∧ Run step s' ls' s'' := by
  induction ls generalizing s with
  | nil => exact ⟨s, .nil s, h⟩
  | cons l ls ih =>
    cases h with
    | cons hstep hrest =>
      obtain ⟨s', hleft, hright⟩ := ih hrest
      exact ⟨s', .cons hstep hleft, hright⟩

/-- What every step keeps holds at the end of a run it holds at the start of. -/
theorem Run.invariant {I : σ → Prop} (hstep : ∀ s l s', I s → step s l s' → I s')
    (hs : I s) (h : Run step s ls s') : I s' := by
  induction h with
  | nil _ => exact hs
  | cons hone _ ih => exact ih (hstep _ _ _ hs hone)

/-- Systems with the same steps in an invariant have the same runs from there. -/
theorem Run.congr {step' : σ → ℓ → σ → Prop} {I : σ → Prop}
    (hkeep : ∀ s l s', I s → step s l s' → I s') (hsame : ∀ s l s', I s → (step s l s' ↔ step' s l s'))
    (hs : I s) : Run step s ls s' ↔ Run step' s ls s' := by
  constructor
  · intro h
    induction h with
    | nil s => exact .nil s
    | cons hone _ ih => exact .cons ((hsame _ _ _ hs).mp hone) (ih (hkeep _ _ _ hs hone))
  · intro h
    induction h with
    | nil s => exact .nil s
    | cons hone _ ih =>
      have hone' := (hsame _ _ _ hs).mpr hone
      exact .cons hone' (ih (hkeep _ _ _ hs hone'))

/-- What every step from the invariant shows is shown by all of a run. -/
theorem Run.labels {I : σ → Prop} {P : ℓ → Prop}
    (hstep : ∀ s l s', I s → step s l s' → I s' ∧ P l) (hs : I s) (h : Run step s ls s') :
    ∀ l ∈ ls, P l := by
  induction h with
  | nil _ => nofun
  | cons hone _ ih =>
    obtain ⟨hs', hlabel⟩ := hstep _ _ _ hs hone
    intro l hl
    rcases List.mem_cons.mp hl with rfl | hl
    · exact hlabel
    · exact ih hs' l hl

theorem Run.restrict {P : ℓ → Prop} (h : Run step s ls s') (hlabels : ∀ l ∈ ls, P l) :
    Run (Restrict step fun _ l => P l) s ls s' := by
  induction h with
  | nil s => exact .nil s
  | cons hone _ ih =>
    exact .cons ⟨hone, hlabels _ (List.mem_cons_self ..)⟩
      (ih fun l hl => hlabels l (List.mem_cons_of_mem _ hl))

/-- A part does what it sees of a step, and is not affected by the others. -/
theorem Run.part {τ : Type*} {step' : τ → ℓ → τ → Prop} {R : σ → τ → Prop} {sees : ℓ → Prop}
    [DecidablePred sees]
    (hstep : ∀ s l s' t, R s t → step s l s' →
      if sees l then ∃ t', step' t l t' ∧ R s' t' else R s' t)
    {t : τ} (hs : R s t) (h : Run step s ls s') :
    ∃ t', Run step' t (ls.filter fun l => sees l) t' ∧ R s' t' := by
  induction h generalizing t with
  | nil s => exact ⟨t, .nil t, hs⟩
  | @cons s s' s'' l ls hone _ ih =>
    have hnext := hstep s l s' t hs hone
    by_cases hl : sees l
    · rw [if_pos hl] at hnext
      obtain ⟨t', hone', hs'⟩ := hnext
      obtain ⟨t'', hrest, hend⟩ := ih hs'
      refine ⟨t'', ?_, hend⟩
      rw [List.filter_cons, if_pos (decide_eq_true hl)]
      exact .cons hone' hrest
    · rw [if_neg hl] at hnext
      rw [List.filter_cons, if_neg (decide_eq_true_iff.not.mpr hl)]
      exact ih hnext

/-- The part of a label that the environment chooses decides the step. -/
def Deterministic {κ : Type*} (step : σ → ℓ → σ → Prop) (call : ℓ → κ) : Prop :=
  ∀ s l s₁ l' s₂, step s l s₁ → step s l' s₂ → call l = call l' → l = l' ∧ s₁ = s₂

theorem Deterministic.run {κ : Type*} {call : ℓ → κ} (hstep : Deterministic step call)
    {s₁ s₂ : σ} (h : Run step s ls s₁) (h' : Run step s ls' s₂) (hcalls : ls.map call = ls'.map call) :
    ls = ls' ∧ s₁ = s₂ := by
  induction h generalizing ls' with
  | nil s =>
    obtain rfl := List.map_eq_nil_iff.mp hcalls.symm
    cases h'
    exact ⟨rfl, rfl⟩
  | cons hone _ ih =>
    cases h' with
    | nil _ => cases hcalls
    | cons hone' hrest' =>
      obtain ⟨hcall, hothers⟩ := List.cons.inj hcalls
      obtain ⟨rfl, rfl⟩ := hstep _ _ _ _ _ hone hone' hcall
      obtain ⟨rfl, rfl⟩ := ih hrest' hothers
      exact ⟨rfl, rfl⟩

/-- Making the calls of these labels, and no others, shows these labels. -/
def Yields {κ : Type*} (step : σ → ℓ → σ → Prop) (call : ℓ → κ) (s : σ) (ls : List ℓ) : Prop :=
  (∃ s', Run step s ls s') ∧ ∀ ls' s', Run step s ls' s' → ls'.map call = ls.map call → ls' = ls

theorem Deterministic.yields {κ : Type*} {call : ℓ → κ} (hstep : Deterministic step call)
    (h : Run step s ls s') : Yields step call s ls :=
  ⟨⟨s', h⟩, fun _ _ h' hcalls => (hstep.run h' h hcalls).1⟩

theorem Inevitable.of_measure {I P : σ → Prop} (measure : σ → Nat)
    (hstep : ∀ s l s', I s → step s l s' → I s' ∧ measure s' < measure s)
    (hprogress : ∀ s, I s → ¬P s → ∃ l s', step s l s') (hs : I s) : Inevitable step P s := by
  induction hn : measure s using Nat.strongRecOn generalizing s with
  | ind n ih =>
    by_cases hP : P s
    · exact .now hP
    · refine .later (hprogress s hs hP) fun l s' hone => ?_
      obtain ⟨hs', hlt⟩ := hstep s l s' hs hone
      exact ih (measure s') (hn ▸ hlt) hs' rfl

end Transition
