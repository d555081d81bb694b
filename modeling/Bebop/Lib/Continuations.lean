import Mathlib.Data.List.Basic

/-!
# Calls that wait for a continuation

Calls that may be suspended, in the order they were made. The continuation of a call is
its place among them, and the log keeps every value one was resumed with. `Calls.Settled`
says that every call was resumed once, but for at most one that waits, and that the calls
after it gave nothing of interest: then what the calls gave grows only at its end.
-/

/-- A call and what its continuation was resumed with, each time. -/
structure SuspendedCall (α ρ : Type*) where
  argument : α
  resumed : List ρ

abbrev Calls (α ρ : Type*) := List (SuspendedCall α ρ)

namespace Calls

variable {α ρ β : Type*}

/-- A call is made; its continuation is `calls.length`. -/
def suspend (calls : Calls α ρ) (argument : α) : Calls α ρ := calls ++ [⟨argument, []⟩]

def resume (calls : Calls α ρ) (continuation : Nat) (result : ρ) : Calls α ρ :=
  calls.modify continuation fun call => { call with resumed := call.resumed ++ [result] }

def results (of : α → ρ → Option β) (calls : Calls α ρ) : List β :=
  calls.flatMap fun call => call.resumed.filterMap (of call.argument)

def Returned (calls : Calls α ρ) : Prop := ∀ call ∈ calls, call.resumed.length = 1

/-- All calls were resumed once, but the one that waits; later ones gave nothing. -/
def Settled (of : α → ρ → Option β) (calls : Calls α ρ) : Option (Nat × α) → Prop
  | none => calls.Returned
  | some (continuation, argument) => ∃ before after : Calls α ρ,
      calls = before ++ ⟨argument, []⟩ :: after ∧ before.length = continuation ∧
      before.Returned ∧ after.Returned ∧ results of after = []

variable {of : α → ρ → Option β} {calls before after : Calls α ρ} {waiting : Option (Nat × α)}

theorem results_append : results of (before ++ after) = results of before ++ results of after :=
  List.flatMap_append

theorem results_waiting {argument : α} : results of (⟨argument, []⟩ :: after) = results of after := rfl

theorem results_once {argument : α} {result : ρ} :
    results of (⟨argument, [result]⟩ :: after) = (of argument result).toList ++ results of after := by
  show List.filterMap (of argument) [result] ++ results of after = _
  cases hof : of argument result with
  | none => rw [List.filterMap_cons_none hof]; rfl
  | some value => rw [List.filterMap_cons_some hof]; rfl

theorem results_concat {argument : α} {result : ρ} :
    results of (calls ++ [⟨argument, [result]⟩]) = results of calls ++ (of argument result).toList := by
  rw [results_append, results_once]
  exact congrArg (results of calls ++ ·) (List.append_nil _)

theorem results_suspend {argument : α} : results of (calls.suspend argument) = results of calls := by
  rw [suspend, results_append, results_waiting]
  exact List.append_nil _

theorem resume_suspend {argument : α} {result : ρ} :
    (calls.suspend argument).resume calls.length result = calls ++ [⟨argument, [result]⟩] := by
  unfold resume suspend
  rw [List.modify_eq_set_getElem?, List.getElem?_concat_length]
  exact List.set_append_right _ _ (Nat.le_refl _) |>.trans (by rw [Nat.sub_self]; rfl)

theorem resume_before {argument : α} {result : ρ} :
    resume (before ++ ⟨argument, []⟩ :: after) before.length result = before ++ ⟨argument, [result]⟩ :: after := by
  unfold resume
  have hget : (before ++ ⟨argument, []⟩ :: after)[before.length]? = some ⟨argument, []⟩ := by
    rw [List.getElem?_append_right (Nat.le_refl _), Nat.sub_self]
    rfl
  rw [List.modify_eq_set_getElem?, hget]
  exact List.set_append_right _ _ (Nat.le_refl _) |>.trans (by rw [Nat.sub_self]; rfl)

namespace Returned

theorem nil : Returned ([] : Calls α ρ) := fun _ h => (by cases h)

theorem append (hbefore : before.Returned) (hafter : after.Returned) : (before ++ after : Calls α ρ).Returned := by
  intro call hcall
  rcases List.mem_append.mp hcall with h | h
  · exact hbefore call h
  · exact hafter call h

theorem once {argument : α} {result : ρ} : Returned [⟨argument, [result]⟩] := by
  intro call hcall
  rw [List.mem_singleton.mp hcall]
  rfl

end Returned

namespace Settled

theorem nil : Settled of [] none := Returned.nil

theorem le_one (h : Settled of calls waiting) : ∀ call ∈ calls, call.resumed.length ≤ 1 := by
  intro call hcall
  cases waiting with
  | none => exact Nat.le_of_eq (h call hcall)
  | some waiting =>
    obtain ⟨before, after, rfl, -, hbefore, hafter, -⟩ := h
    rcases List.mem_append.mp hcall with hin | hin
    · exact Nat.le_of_eq (hbefore call hin)
    · rcases List.mem_cons.mp hin with rfl | hin
      · exact Nat.zero_le _
      · exact Nat.le_of_eq (hafter call hin)

theorem suspend (h : Settled of calls none) (argument : α) :
    Settled of (calls.suspend argument) (some (calls.length, argument)) :=
  ⟨calls, [], rfl, rfl, h, Returned.nil, rfl⟩

/-- A call is made and answered at once, with nothing while another one waits. -/
theorem answer (h : Settled of calls waiting) (argument : α) (result : ρ)
    (hquiet : waiting ≠ none → of argument result = none) :
    Settled of ((calls.suspend argument).resume calls.length result) waiting := by
  rw [resume_suspend]
  cases waiting with
  | none => exact Returned.append h Returned.once
  | some waiting =>
    obtain ⟨before, after, rfl, hlength, hbefore, hafter, hnone⟩ := h
    refine ⟨before, after ++ [⟨argument, [result]⟩], ?_, hlength, hbefore, hafter.append Returned.once, ?_⟩
    · rw [List.append_assoc, List.cons_append]
    · rw [results_concat, hnone, hquiet (Option.some_ne_none _)]
      rfl

theorem resume {continuation : Nat} {argument : α} (h : Settled of calls (some (continuation, argument)))
    (result : ρ) : Settled of (calls.resume continuation result) none := by
  obtain ⟨before, after, rfl, rfl, hbefore, hafter, -⟩ := h
  rw [resume_before]
  exact hbefore.append (Returned.once.append hafter)

theorem results_resume {continuation : Nat} {argument : α} (h : Settled of calls (some (continuation, argument)))
    (result : ρ) : results of (calls.resume continuation result) = results of calls ++ (of argument result).toList := by
  obtain ⟨before, after, rfl, rfl, -, -, hnone⟩ := h
  rw [resume_before, results_append, results_append, results_once, results_waiting, hnone, List.append_nil,
    List.append_nil]

theorem results_answer (argument : α) (result : ρ) :
    results of ((calls.suspend argument).resume calls.length result) =
      results of calls ++ (of argument result).toList := by
  rw [resume_suspend, results_concat]

end Settled

end Calls
