import Mathlib.Data.List.Chain
import Mathlib.Data.List.Nodup
import Mathlib.Logic.Relation

/-!
# A search for a cycle that keeps its trail

The search goes along one trail from its start, to which it adds a successor of the last node, or
from which it takes the last node off. A successor that is on the trail already closes a cycle;
when the trail is empty, no cycle can be reached from the start.
-/

namespace CycleTrail

open Relation

variable {α : Type} (edge : α → α → Prop)

/-- A walk of one edge or more that ends where it starts. -/
structure IsCycle (walk : List α) : Prop where
  chain : walk.IsChain edge
  length : 2 ≤ walk.length
  closed : walk.head? = walk.getLast?

def ReachesCycle (start : α) : Prop := ∃ a, ReflTransGen edge start a ∧ TransGen edge a a

/-- What holds of the trail and of the nodes that are done. -/
structure Sound (start : α) (trail : List α) (done : α → Prop) : Prop where
  chain : trail.IsChain edge
  nodup : trail.Nodup
  head : ∀ a, trail.head? = some a → a = start
  apart : ∀ a ∈ trail, ¬done a
  closed : ∀ a, done a → ∀ b, edge a b → done b
  acyclic : ∀ a, done a → ¬TransGen edge a a
  ended : trail = [] → done start

variable {edge} {start a b : α} {trail : List α} {done : α → Prop}

theorem Sound.first (start : α) : Sound edge start [start] fun _ => False where
  chain := List.isChain_singleton start
  nodup := List.nodup_singleton start
  head := by
    intro a ha
    cases ha
    rfl
  apart := fun _ _ => not_false
  closed := nofun
  acyclic := nofun
  ended := nofun

theorem Sound.push (h : Sound edge start trail done) (hlast : trail.getLast? = some a) (hedge : edge a b)
    (hnew : b ∉ trail) (hdone : ¬done b) : Sound edge start (trail ++ [b]) done where
  chain := by
    refine h.chain.append (List.isChain_singleton b) fun x hx y hy => ?_
    rw [hlast] at hx
    cases hx
    cases hy
    exact hedge
  nodup := List.nodup_append.mpr ⟨h.nodup, List.nodup_singleton b, fun x hx y hy heq => by
    rw [List.mem_singleton.mp hy] at heq
    exact hnew (heq ▸ hx)⟩
  head := by
    intro x hx
    cases trail with
    | nil => cases hlast
    | cons y trail => exact h.head x hx
  apart := by
    intro x hx
    rcases List.mem_append.mp hx with hx | hx
    · exact h.apart x hx
    · rw [List.mem_singleton.mp hx]
      exact hdone
  closed := h.closed
  acyclic := h.acyclic
  ended := fun hnil => absurd hnil (by simp)

theorem Sound.done_of_reaches (h : Sound edge start trail done) (ha : done a) (hab : ReflTransGen edge a b) :
    done b := by
  induction hab with
  | refl => exact ha
  | tail _ hedge ih => exact h.closed _ ih _ hedge

theorem Sound.pop (h : Sound edge start (trail ++ [a]) done) (hall : ∀ b, edge a b → done b) :
    Sound edge start trail fun b => done b ∨ b = a where
  chain := h.chain.left_of_append
  nodup := (List.nodup_append.mp h.nodup).1
  head := by
    intro x hx
    refine h.head x ?_
    rw [List.head?_append, hx]
    rfl
  apart := by
    rintro x hx (hdone | rfl)
    · exact h.apart x (List.mem_append_left _ hx) hdone
    · exact (List.nodup_append.mp h.nodup).2.2 x hx x List.mem_cons_self rfl
  closed := by
    rintro x (hx | rfl) y hxy
    · exact .inl (h.closed x hx y hxy)
    · exact .inl (hall y hxy)
  acyclic := by
    have hnot : ¬done a := h.apart a (by simp)
    rintro x (hx | rfl) hcycle
    · exact h.acyclic x hx hcycle
    · -- a cycle through the new node would come back from nodes that were done before
      obtain ⟨y, hxy, hyx⟩ := TransGen.head'_iff.mp hcycle
      exact hnot (h.done_of_reaches (hall y hxy) hyx)
  ended := by
    rintro rfl
    exact .inr (h.head a rfl).symm

theorem Sound.not_reachesCycle (h : Sound edge start [] done) : ¬ReachesCycle edge start := by
  rintro ⟨a, hreach, hcycle⟩
  exact h.acyclic a (h.done_of_reaches (h.ended rfl) hreach) hcycle

theorem reaches_of_chain {front : List α} (h : (front ++ [b]).IsChain edge)
    (hhead : (front ++ [b]).head? = some a) : ReflTransGen edge a b := by
  cases front with
  | nil =>
    cases hhead
    exact .refl
  | cons x front =>
    cases hhead
    exact List.relationReflTransGen_of_exists_isChain_cons (front ++ [b]) h (by simp)

/-- A successor of the last node that is on the trail closes a cycle. -/
theorem Sound.isCycle [DecidableEq α] (h : Sound edge start trail done) (hlast : trail.getLast? = some a)
    (hedge : edge a b) (hmem : b ∈ trail) :
    IsCycle edge (trail.dropWhile (· ≠ b) ++ [b]) ∧ ReachesCycle edge start := by
  obtain ⟨front, back, htrail, hb⟩ := List.eq_append_cons_of_mem hmem
  have hdrop : trail.dropWhile (· ≠ b) = b :: back := by
    have hfront : ∀ x ∈ front, decide (x ≠ b) = true := by
      intro x hx
      exact decide_eq_true fun heq => hb (heq ▸ hx)
    rw [htrail, List.dropWhile_append_of_pos hfront, List.dropWhile_cons_of_neg (by simp)]
  have hchain := h.chain
  rw [htrail] at hchain hlast
  have hlast' : (b :: back).getLast? = some a := by
    rwa [List.getLast?_append_of_ne_nil _ (List.cons_ne_nil b back)] at hlast
  have hwalk : ((b :: back) ++ [b]).IsChain edge := by
    refine hchain.right_of_append.append (List.isChain_singleton b) fun x hx y hy => ?_
    rw [hlast'] at hx
    cases hx
    cases hy
    exact hedge
  constructor
  · rw [hdrop]
    exact ⟨hwalk, by simp, List.getLast?_concat.symm⟩
  · refine ⟨b, ?_, ?_⟩
    · have hfront : (front ++ [b]).IsChain edge := by
        rw [List.append_cons] at hchain
        exact hchain.left_of_append
      obtain ⟨x, hx⟩ : ∃ x, (front ++ [b]).head? = some x := by cases front <;> exact ⟨_, rfl⟩
      have hstart := h.head x (by rw [htrail]; cases front <;> exact hx)
      rw [hstart] at hx
      exact reaches_of_chain hfront hx
    · obtain ⟨init, hinit⟩ := List.getLast?_eq_some_iff.mp hlast'
      have hright := hchain.right_of_append
      rw [hinit] at hright
      have hhead : (init ++ [a]).head? = some b := by rw [← hinit]; rfl
      exact .tail' (reaches_of_chain hright hhead) hedge

end CycleTrail
