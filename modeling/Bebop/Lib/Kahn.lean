import Mathlib.Data.Fintype.EquivFin
import Mathlib.Data.List.Perm.Subperm
import Mathlib.Logic.Function.Basic
import Mathlib.Logic.Relation
import Mathlib.Order.WellFounded

/-!
# Kahn's algorithm

A graph is a number of vertices and a list of edges. A vertex is taken once no edge into it
is left, and taking it removes the edges out of it. What is taken is in order
(`Sound.before`); if not every vertex is taken, the graph has a cycle (`exists_cycle`).
-/

namespace Kahn

def inDegree (edges : List (Nat × Nat)) (v : Nat) : Nat := edges.countP fun e => e.2 = v

def successors (edges : List (Nat × Nat)) (u : Nat) : List Nat :=
  edges.filterMap fun e => if e.1 = u then some e.2 else none

structure State where
  deg : Nat → Nat
  queue : List Nat
  sorted : List Nat

/-- Remove the edges to some vertices, and queue those that have none left. -/
def relax (deg : Nat → Nat) (queue : List Nat) : List Nat → (Nat → Nat) × List Nat
  | [] => (deg, queue)
  | v :: vs =>
    relax (Function.update deg v (deg v - 1)) (if deg v - 1 = 0 then queue ++ [v] else queue) vs

def step (edges : List (Nat × Nat)) (s : State) : State :=
  match s.queue with
  | [] => s
  | u :: queue =>
    let relaxed := relax s.deg queue (successors edges u)
    ⟨relaxed.1, relaxed.2, s.sorted ++ [u]⟩

def run (edges : List (Nat × Nat)) : Nat → State → State
  | 0, s => s
  | steps + 1, s => run edges steps (step edges s)

def start (n : Nat) (edges : List (Nat × Nat)) : State :=
  ⟨inDegree edges, (List.range n).filter fun v => inDegree edges v = 0, []⟩

/-- A vertex is taken at most once, so that `n` steps empty the queue. -/
def sort (n : Nat) (edges : List (Nat × Nat)) : State := run edges n (start n edges)

def edgesLeft (edges : List (Nat × Nat)) (sorted : List Nat) (v : Nat) : Nat :=
  edges.countP fun e => e.2 = v ∧ e.1 ∉ sorted

structure Sound (n : Nat) (edges : List (Nat × Nat)) (s : State) : Prop where
  nodup : (s.sorted ++ s.queue).Nodup
  lt : ∀ v ∈ s.sorted ++ s.queue, v < n
  deg : ∀ v, s.deg v = edgesLeft edges s.sorted v
  ready : ∀ v < n, v ∈ s.sorted ++ s.queue ↔ s.deg v = 0
  before : ∀ l v r, s.sorted = l ++ v :: r → ∀ e ∈ edges, e.2 = v → e.1 ∈ l

variable {n : Nat} {edges : List (Nat × Nat)} {s : State}

theorem relax_spec (vs : List Nat) (deg : Nat → Nat) (queue : List Nat) (hle : ∀ v, vs.count v ≤ deg v) :
    (∀ v, (relax deg queue vs).1 v = deg v - vs.count v) ∧
    ∃ added, (relax deg queue vs).2 = queue ++ added ∧ added.Nodup ∧
      ∀ v, v ∈ added ↔ 0 < deg v ∧ deg v = vs.count v := by
  induction vs generalizing deg queue with
  | nil =>
    refine ⟨fun v => rfl, [], (List.append_nil queue).symm, List.nodup_nil, fun v => ?_⟩
    rw [List.count_nil]
    exact ⟨nofun, fun h => absurd h.2 (Nat.ne_of_gt h.1)⟩
  | cons x vs ih =>
    have hcount (v : Nat) : (x :: vs).count v = vs.count v + if x = v then 1 else 0 := by
      rw [List.count_cons]
      simp only [beq_iff_eq]
    have hupdate (v : Nat) : Function.update deg x (deg x - 1) v = deg v - if x = v then 1 else 0 := by
      by_cases hv : x = v
      · rw [← hv, Function.update_self, if_pos rfl]
      · rw [Function.update_of_ne (Ne.symm hv), if_neg hv, Nat.sub_zero]
    have hle' (v : Nat) : vs.count v ≤ Function.update deg x (deg x - 1) v := by
      have h := hle v
      rw [hcount] at h
      rw [hupdate]
      omega
    obtain ⟨hdeg, added, hqueue, hnodup, hmem⟩ :=
      ih _ (if deg x - 1 = 0 then queue ++ [x] else queue) hle'
    rw [relax]
    refine ⟨fun v => ?_, (if deg x - 1 = 0 then [x] else []) ++ added, ?_, ?_, fun v => ?_⟩
    · rw [hdeg, hupdate, hcount]
      omega
    · rw [hqueue]
      split
      · rw [List.append_assoc]
      · rw [List.nil_append]
    · split
      · rename_i hzero
        refine List.nodup_cons.mpr ⟨fun hx => ?_, hnodup⟩
        have hpos := ((hmem x).mp hx).1
        rw [hupdate, if_pos rfl] at hpos
        omega
      · exact hnodup
    · have hx := hle x
      rw [hcount x, if_pos rfl] at hx
      rw [List.mem_append, hmem, hupdate, hcount]
      by_cases hv : x = v
      · subst hv
        rw [if_pos rfl]
        split
        · rename_i hzero
          rw [List.mem_singleton]
          refine ⟨fun _ => by omega, fun _ => .inl rfl⟩
        · rename_i hzero
          constructor
          · rintro (h | h)
            · cases h
            · omega
          · intro h
            exact .inr (by omega)
      · rw [if_neg hv]
        have hnot : v ∉ (if deg x - 1 = 0 then [x] else []) := by
          split
          · rw [List.mem_singleton]
            exact Ne.symm hv
          · exact List.not_mem_nil
        rw [or_iff_right hnot, Nat.sub_zero, Nat.add_zero]

theorem count_successors (edges : List (Nat × Nat)) (u v : Nat) :
    (successors edges u).count v = edges.countP fun e => e.1 = u ∧ e.2 = v := by
  unfold successors
  induction edges with
  | nil => rfl
  | cons e edges ih =>
    rw [List.filterMap_cons, List.countP_cons]
    by_cases hu : e.1 = u
    · rw [if_pos hu]
      dsimp only
      rw [List.count_cons, ih]
      simp only [hu, true_and, beq_iff_eq, decide_eq_true_eq]
    · rw [if_neg hu]
      simp only [hu, false_and, decide_false, Bool.false_eq_true, if_false, Nat.add_zero]
      exact ih

theorem edgesLeft_split (edges : List (Nat × Nat)) {sorted : List Nat} {u : Nat} (hu : u ∉ sorted) (v : Nat) :
    edgesLeft edges sorted v = edgesLeft edges (sorted ++ [u]) v + (successors edges u).count v := by
  rw [count_successors]
  unfold edgesLeft
  induction edges with
  | nil => rfl
  | cons e edges ih =>
    rw [List.countP_cons, List.countP_cons, List.countP_cons, ih]
    by_cases hv : e.2 = v
    · by_cases he : e.1 = u
      · simp [hv, he, hu]
        omega
      · by_cases hs : e.1 ∈ sorted
        · simp [hv, he, hs]
        · simp [hv, he, hs]
          omega
    · simp [hv]

theorem edgesLeft_eq_zero {sorted : List Nat} {v : Nat} :
    edgesLeft edges sorted v = 0 ↔ ∀ e ∈ edges, e.2 = v → e.1 ∈ sorted := by
  unfold edgesLeft
  rw [List.countP_eq_zero]
  refine forall₂_congr fun e _ => ?_
  rw [decide_eq_true_iff, not_and, not_not]

theorem sound_start (n : Nat) (edges : List (Nat × Nat)) : Sound n edges (start n edges) := by
  have hmem (v : Nat) : v ∈ (start n edges).sorted ++ (start n edges).queue ↔
      v < n ∧ inDegree edges v = 0 := by
    change v ∈ (List.range n).filter _ ↔ _
    rw [List.mem_filter, List.mem_range, decide_eq_true_iff]
  refine ⟨?_, fun v hv => ((hmem v).mp hv).1, fun v => ?_, fun v hv => ?_, fun l v r h => ?_⟩
  · exact List.nodup_range.filter _
  · refine List.countP_congr fun e _ => ?_
    simp only [start, List.not_mem_nil, not_false_iff, and_true]
  · rw [hmem]
    exact and_iff_right hv
  · cases l <;> cases h

theorem Sound.step (hedges : ∀ e ∈ edges, e.2 < n) (h : Sound n edges s) : Sound n edges (step edges s) := by
  unfold Kahn.step
  cases hqueue : s.queue with
  | nil => exact h
  | cons u queue =>
    dsimp only
    have hin : u ∈ s.sorted ++ s.queue := by
      rw [hqueue]
      exact List.mem_append_right _ List.mem_cons_self
    have hnodup := h.nodup
    rw [hqueue] at hnodup
    have hu : u ∉ s.sorted := fun hmem =>
      List.disjoint_of_nodup_append hnodup hmem List.mem_cons_self
    have hsplit (v : Nat) := edgesLeft_split edges hu v
    have hle (v : Nat) : (successors edges u).count v ≤ s.deg v := by
      rw [h.deg, hsplit]
      exact Nat.le_add_left _ _
    obtain ⟨hdeg, added, hadded, hnodup', hmem⟩ := relax_spec (successors edges u) s.deg queue hle
    rw [hadded]
    have hnew {v : Nat} (hv : v ∈ added) : v < n ∧ 0 < s.deg v := by
      obtain ⟨hpos, hall⟩ := (hmem v).mp hv
      rw [hall] at hpos
      rw [count_successors] at hpos
      obtain ⟨e, he, htarget⟩ := List.countP_pos_iff.mp hpos
      rw [decide_eq_true_iff] at htarget
      exact ⟨htarget.2 ▸ hedges e he, ((hmem v).mp hv).1⟩
    have hset (v : Nat) : v ∈ s.sorted ++ [u] ++ (queue ++ added) ↔ v ∈ s.sorted ++ s.queue ∨ v ∈ added := by
      rw [hqueue]
      simp only [List.mem_append, List.mem_cons, List.mem_singleton, List.not_mem_nil, or_false]
      tauto
    refine ⟨?_, fun v hv => ?_, fun v => ?_, fun v hv => ?_, fun l v r hsorted e he htarget => ?_⟩
    · have hold : (s.sorted ++ [u] ++ queue).Nodup := by
        rwa [List.append_assoc, List.singleton_append]
      rw [← List.append_assoc, List.nodup_append]
      refine ⟨hold, hnodup', fun v hv w hw heq => ?_⟩
      subst heq
      have hready : v ∈ s.sorted ++ s.queue := by
        rw [hqueue]
        rwa [List.append_assoc, List.singleton_append] at hv
      have hzero := (h.ready v (hnew hw).1).mp hready
      exact absurd hzero (Nat.ne_of_gt (hnew hw).2)
    · rcases (hset v).mp hv with hold | hadd
      · exact h.lt v hold
      · exact (hnew hadd).1
    · dsimp only
      rw [hdeg, h.deg, hsplit, Nat.add_sub_cancel]
    · dsimp only
      rw [hset, hdeg, h.ready v hv, hmem]
      have hcount := hle v
      omega
    · -- the vertex taken last has no edge left into it
      have hzero := (h.ready u (h.lt u hin)).mp hin
      rw [h.deg, edgesLeft_eq_zero] at hzero
      rcases List.eq_nil_or_concat r with rfl | ⟨r', w, rfl⟩
      · obtain ⟨rfl, hlast⟩ := List.append_inj' hsorted rfl
        obtain rfl := (List.cons.inj hlast).1
        exact hzero e he htarget
      · rw [List.concat_eq_append, ← List.cons_append, ← List.append_assoc] at hsorted
        obtain ⟨hfront, -⟩ := List.append_inj' hsorted rfl
        exact h.before l v r' hfront e he htarget

theorem Sound.run (hedges : ∀ e ∈ edges, e.2 < n) (h : Sound n edges s) (steps : Nat) :
    Sound n edges (run edges steps s) := by
  induction steps generalizing s with
  | zero => exact h
  | succ steps ih => exact ih (h.step hedges)

theorem run_cases (edges : List (Nat × Nat)) (steps : Nat) (s : State) :
    (run edges steps s).queue = [] ∨ (run edges steps s).sorted.length = s.sorted.length + steps := by
  induction steps generalizing s with
  | zero => exact .inr rfl
  | succ steps ih =>
    rw [run]
    cases hqueue : s.queue with
    | nil =>
      -- an empty queue stays empty
      have hsame : step edges s = s := by
        unfold step
        rw [hqueue]
      rw [hsame]
      have hstays (k : Nat) : run edges k s = s := by
        induction k with
        | zero => rfl
        | succ k ihk => rw [run, hsame, ihk]
      rw [hstays]
      exact .inl hqueue
    | cons u queue =>
      have hlength : (step edges s).sorted.length = s.sorted.length + 1 := by
        unfold step
        rw [hqueue]
        dsimp only
        rw [List.length_append, List.length_singleton]
      rcases ih (step edges s) with h | h
      · exact .inl h
      · refine .inr ?_
        rw [h, hlength]
        omega

theorem Sound.length_le (h : Sound n edges s) : (s.sorted ++ s.queue).length ≤ n := by
  have hsub : s.sorted ++ s.queue ⊆ List.range n := fun v hv => List.mem_range.mpr (h.lt v hv)
  have hle := (List.subperm_of_subset h.nodup hsub).length_le
  rwa [List.length_range] at hle

variable (hedges : ∀ e ∈ edges, e.1 < n ∧ e.2 < n)

include hedges

theorem sound_sort : Sound n edges (sort n edges) :=
  (sound_start n edges).run (fun e he => (hedges e he).2) n

theorem queue_sort : (sort n edges).queue = [] := by
  rcases run_cases edges n (start n edges) with h | h
  · exact h
  · have hle := (sound_sort hedges).length_le
    rw [List.length_append] at hle
    have hlength : (sort n edges).sorted.length = 0 + n := h
    exact List.length_eq_zero_iff.mp (by omega)

theorem sorted_perm (hlength : (sort n edges).sorted.length = n) :
    (sort n edges).sorted.Perm (List.range n) := by
  have hsound := sound_sort hedges
  have hnodup := hsound.nodup
  rw [queue_sort hedges, List.append_nil] at hnodup
  have hsub : (sort n edges).sorted ⊆ List.range n := fun v hv =>
    List.mem_range.mpr (hsound.lt v (List.mem_append_left _ hv))
  refine (List.subperm_of_subset hnodup hsub).perm_of_length_le ?_
  rw [List.length_range, hlength]

theorem exists_left {v : Nat} (hv : v < n) (hleft : v ∉ (sort n edges).sorted) :
    ∃ u < n, u ∉ (sort n edges).sorted ∧ (u, v) ∈ edges := by
  have hsound := sound_sort hedges
  have hdeg : (sort n edges).deg v ≠ 0 := by
    intro hzero
    have hmem := (hsound.ready v hv).mpr hzero
    rw [queue_sort hedges, List.append_nil] at hmem
    exact hleft hmem
  rw [hsound.deg, Ne, edgesLeft_eq_zero] at hdeg
  push_neg at hdeg
  obtain ⟨e, he, rfl, hsource⟩ := hdeg
  exact ⟨e.1, (hedges e he).1, hsource, he⟩

/-- If a vertex is not taken, there is a cycle. -/
theorem exists_cycle {v : Nat} (hv : v < n) (hleft : v ∉ (sort n edges).sorted) :
    ∃ u, Relation.TransGen (fun a b => (a, b) ∈ edges) u u := by
  by_contra hnone
  push_neg at hnone
  let reaches (a b : Fin n) : Prop := Relation.TransGen (fun a b => (a, b) ∈ edges) a.val b.val
  have htrans : IsTrans (Fin n) reaches := ⟨fun a b c => Relation.TransGen.trans⟩
  have hirrefl : Std.Irrefl reaches := ⟨fun a => hnone a.val⟩
  have hwf : WellFounded reaches := Finite.wellFounded_of_trans_of_irrefl reaches
  -- a vertex that is left with nothing left before it
  obtain ⟨m, hm, hmin⟩ := hwf.has_min {a : Fin n | a.val ∉ (sort n edges).sorted} ⟨⟨v, hv⟩, hleft⟩
  obtain ⟨u, hu, huleft, hedge⟩ := exists_left hedges m.isLt hm
  exact hmin ⟨u, hu⟩ huleft (.single hedge)

end Kahn
