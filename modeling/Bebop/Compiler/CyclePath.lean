import Bebop.Compiler.SortedDefinitions
import Bebop.Lib.CycleTrail
import Mathlib.Data.Finset.Card

/-!
# Bebop — the path of a cycle that is reported

`bebop__validate_find_cycle_path` of `bebop_validate.c` with its arrays, which have a place for
each definition. `findCycle` is the same search on lists (`run_spec`). The definition that the
search starts from is the first that was not sorted. It may only come after a cycle, and then
none is found (`cycleReported_iff`).
-/

namespace Bebop.Compiler

open CycleTrail
open ParseResult (Mark findCycle)

/-! ## `bebop__validate_find_cycle_path` -/

/-- The arrays of the search and how much of them is used. -/
structure CycleSearch where
  visited : List Mark
  path : List Nat
  path_len : Nat
  stack : List Nat
  stack_top : Nat

/-- A path and where its cycle starts, an empty stack, or a `goto fallback`. -/
inductive Outcome
  | cycle (path : List Nat) (cycle_start : Nat)
  | exhausted
  | full
  deriving DecidableEq

inductive Round
  | next (search : CycleSearch)
  | ends (outcome : Outcome)

/-- A write to an array; `none` outside it. -/
def setAt {α : Type} (array : List α) (i : Nat) (value : α) : Option (List α) :=
  if i < array.length then some (array.set i value) else none

/-- The first definition of an adjacency list that is not done. -/
def scanAdjacency (visited : List Mark) : List Nat → Option (Option Nat)
  | [] => some none
  | next :: adjacency => do
    let mark ← visited[next]?
    if mark = .done then scanAdjacency visited adjacency else some (some next)

namespace CycleSearch

/-- `visited[idx] = 1` and `path[path_len++] = idx` -/
def visit (search : CycleSearch) (idx : Nat) : Option CycleSearch := do
  let visited ← setAt search.visited idx .onPath
  let path ← setAt search.path search.path_len idx
  return { search with visited, path, path_len := search.path_len + 1 }

/-- The rest of a round: the first successor that is not done, or the end of the definition. -/
def advance (search : CycleSearch) (def_count idx : Nat) (adjacency : List Nat) : Option Round :=
  match scanAdjacency search.visited adjacency with
  | none => none
  | some none =>
    -- `path_len` would wrap around
    if search.path_len = 0 then none
    else (setAt search.visited idx .done).map fun visited =>
      .next { search with visited, path_len := search.path_len - 1, stack_top := search.stack_top - 1 }
  | some (some next) =>
    if search.visited[next]? = some .onPath then
      some (.ends (.cycle (search.path.take search.path_len) next))
    else if search.stack_top ≥ def_count then some (.ends .full)
    else (setAt search.stack search.stack_top next).map fun stack =>
      .next { search with stack, stack_top := search.stack_top + 1 }

/-- A round of the search; `none` where it would leave an array. -/
def round (adjacency : Nat → List Nat) (def_count : Nat) (search : CycleSearch) : Option Round := do
  let idx ← search.stack[search.stack_top - 1]?
  let mark ← search.visited[idx]?
  if mark = .unseen then
    if search.path_len ≥ def_count then some (.ends .full)
    else
      let search ← search.visit idx
      search.advance def_count idx (adjacency idx)
  else search.advance def_count idx (adjacency idx)

def run (adjacency : Nat → List Nat) (def_count : Nat) : Nat → CycleSearch → Option Outcome
  | 0, _ => none
  | rounds + 1, search =>
    if search.stack_top = 0 then some .exhausted
    else
      match search.round adjacency def_count with
      | none => none
      | some (.next search) => run adjacency def_count rounds search
      | some (.ends outcome) => some outcome

/-- The search before its first round; the arena's memory is zero. -/
def first (def_count start : Nat) : Option CycleSearch :=
  (setAt (List.replicate def_count 0) 0 start).map fun stack =>
    ⟨List.replicate def_count .unseen, List.replicate def_count 0, 0, stack, 1⟩

/-- The search. A definition goes on the stack once and off it once. -/
def search (adjacency : Nat → List Nat) (def_count start : Nat) : Option Outcome :=
  (first def_count start).bind (run adjacency def_count (2 * def_count + 1))

/-! ## The colours of the definitions -/

def Edge (next : Nat → List Nat) (i j : Nat) : Prop := j ∈ next i

/-- The stack is a trail of the search, and all of it is on the path. -/
structure Settled (next : Nat → List Nat) (n start : Nat) (visited : Nat → Mark) (stack : List Nat) :
    Prop where
  sound : Sound (Edge next) start stack.reverse fun i => visited i = .done
  lt : ∀ i ∈ stack, i < n
  onPath : ∀ i, visited i = .onPath ↔ i ∈ stack

/-- How far the definitions are: on the stack, or on it and off again. -/
def progress (n : Nat) (visited : Nat → Mark) (stack : List Nat) : Nat :=
  stack.length + 2 * ((Finset.range n).filter fun i => visited i = .done).card

variable {next : Nat → List Nat} {n start i : Nat} {visited : Nat → Mark} {path stack : List Nat}

theorem length_le_of_lt (hnodup : stack.Nodup) (hlt : ∀ i ∈ stack, i < n) : stack.length ≤ n := by
  have hsub : stack.toFinset ⊆ Finset.range n := by
    intro i hi
    exact Finset.mem_range.mpr (hlt i (List.mem_toFinset.mp hi))
  have hcard := Finset.card_le_card hsub
  rwa [List.toFinset_card_of_nodup hnodup, Finset.card_range] at hcard

namespace Settled

variable (h : Settled next n start visited stack)

include h

theorem nodup : stack.Nodup := List.nodup_reverse.mp h.sound.nodup

theorem progress_le : progress n visited stack ≤ 2 * n := by
  have hlength := length_le_of_lt h.nodup h.lt
  have hdisjoint : Disjoint stack.toFinset ((Finset.range n).filter fun i => visited i = .done) := by
    rw [Finset.disjoint_left]
    intro i hi hdone
    exact h.sound.apart i (List.mem_reverse.mpr (List.mem_toFinset.mp hi)) (Finset.mem_filter.mp hdone).2
  have hsub : stack.toFinset ∪ ((Finset.range n).filter fun i => visited i = .done) ⊆ Finset.range n := by
    intro i hi
    rcases Finset.mem_union.mp hi with hi | hi
    · exact Finset.mem_range.mpr (h.lt i (List.mem_toFinset.mp hi))
    · exact (Finset.mem_filter.mp hi).1
  have hcard := Finset.card_le_card hsub
  rw [Finset.card_union_of_disjoint hdisjoint, List.toFinset_card_of_nodup h.nodup, Finset.card_range]
    at hcard
  unfold progress
  omega

end Settled

theorem Settled.pop (h : Settled next n start visited (i :: stack))
    (hall : ∀ j ∈ next i, visited j = .done) :
    Settled next n start (Function.update visited i .done) stack ∧
      progress n (Function.update visited i .done) stack = progress n visited (i :: stack) + 1 := by
  have hnot : i ∉ stack := (List.nodup_cons.mp h.nodup).1
  have hdone (j : Nat) : Function.update visited i .done j = .done ↔ visited j = .done ∨ j = i := by
    by_cases hj : j = i
    · simp [hj]
    · simp [hj, Function.update_of_ne]
  have hopen : visited i ≠ .done := by
    rw [(h.onPath i).mpr List.mem_cons_self]
    decide
  have hsound := h.sound
  rw [List.reverse_cons] at hsound
  refine ⟨⟨?_, fun j hj => h.lt j (List.mem_cons_of_mem _ hj), fun j => ?_⟩, ?_⟩
  · simp only [hdone]
    exact hsound.pop hall
  · by_cases hj : j = i
    · simp [hj, hnot]
    · rw [Function.update_of_ne hj, h.onPath, List.mem_cons, or_iff_right hj]
  · have hset : ((Finset.range n).filter fun j => Function.update visited i .done j = .done) =
        insert i ((Finset.range n).filter fun j => visited j = .done) := by
      ext j
      rw [Finset.mem_insert, Finset.mem_filter, Finset.mem_filter, hdone, Finset.mem_range]
      have hi := h.lt i List.mem_cons_self
      constructor
      · rintro ⟨hlt, hj | hj⟩
        · exact .inr ⟨hlt, hj⟩
        · exact .inl hj
      · rintro (rfl | ⟨hlt, hj⟩)
        · exact ⟨hi, .inr rfl⟩
        · exact ⟨hlt, .inl hj⟩
    have hnew : i ∉ (Finset.range n).filter fun j => visited j = .done :=
      fun hmem => hopen (Finset.mem_filter.mp hmem).2
    unfold progress
    rw [hset, Finset.card_insert_of_notMem hnew, List.length_cons]
    omega

/-- The top of the stack may not have been visited yet. -/
inductive Coloured (next : Nat → List Nat) (n start : Nat) (visited : Nat → Mark) :
    List Nat → List Nat → Prop
  | settled {rest : List Nat} :
    Settled next n start visited rest → Coloured next n start visited rest.reverse rest
  | pushed {top : Nat} {rest : List Nat} :
    visited top = .unseen → Settled next n start (Function.update visited top .onPath) (top :: rest) →
      Coloured next n start visited rest.reverse (top :: rest)

theorem Settled.push (h : Settled next n start visited (i :: stack)) {j : Nat} (hj : j ∈ next i)
    (hlt : j < n) (hdone : visited j ≠ .done) (hpath : visited j ≠ .onPath) :
    Coloured next n start visited (i :: stack).reverse (j :: i :: stack) ∧
      progress n visited (j :: i :: stack) = progress n visited (i :: stack) + 1 := by
  have hunseen : visited j = .unseen := by
    cases hmark : visited j with
    | unseen => rfl
    | onPath => exact absurd hmark hpath
    | done => exact absurd hmark hdone
  have hnew : j ∉ i :: stack := fun hmem => hpath ((h.onPath j).mpr hmem)
  have hmarks (k : Nat) : Function.update visited j .onPath k = .done ↔ visited k = .done := by
    by_cases hk : k = j
    · simp [hk, hunseen]
    · rw [Function.update_of_ne hk]
  refine ⟨.pushed hunseen ⟨?_, List.forall_mem_cons.mpr ⟨hlt, h.lt⟩, fun k => ?_⟩, ?_⟩
  · have htrail : (j :: i :: stack).reverse = (i :: stack).reverse ++ [j] := List.reverse_cons
    rw [htrail]
    simp only [hmarks]
    refine h.sound.push (a := i) ?_ hj (fun hmem => hnew (List.mem_reverse.mp hmem)) hdone
    rw [List.reverse_cons, List.getLast?_concat]
  · by_cases hk : k = j
    · simp [hk]
    · have hcons : k ∈ j :: i :: stack ↔ k ∈ i :: stack := by rw [List.mem_cons, or_iff_right hk]
      rw [Function.update_of_ne hk, h.onPath, hcons]
  · unfold progress
    rw [List.length_cons]
    omega

theorem Settled.cycle (h : Settled next n start visited (i :: stack)) {j : Nat} (hj : j ∈ next i)
    (hpath : visited j = .onPath) :
    IsCycle (Edge next) ((i :: stack).reverse.dropWhile (· ≠ j) ++ [j]) ∧
      ReachesCycle (Edge next) start := by
  refine h.sound.isCycle (a := i) ?_ hj (List.mem_reverse.mpr ((h.onPath j).mp hpath))
  rw [List.reverse_cons, List.getLast?_concat]

theorem Coloured.visit (h : Coloured next n start visited path (i :: stack)) :
    ∃ visited', Settled next n start visited' (i :: stack) ∧
      (if visited i = .unseen then path ++ [i] else path) = (i :: stack).reverse ∧
      (if visited i = .unseen then Function.update visited i .onPath else visited) = visited' ∧
      progress n visited' (i :: stack) = progress n visited (i :: stack) := by
  cases h with
  | settled h =>
    have hmark : visited i ≠ .unseen := by
      rw [(h.onPath i).mpr List.mem_cons_self]
      decide
    exact ⟨visited, h, if_neg hmark, if_neg hmark, rfl⟩
  | pushed hmark h =>
    refine ⟨_, h, ?_, if_pos hmark, ?_⟩
    · rw [if_pos hmark, List.reverse_cons]
    · have hmarks (k : Nat) : Function.update visited i .onPath k = .done ↔ visited k = .done := by
        by_cases hk : k = i
        · simp [hk, hmark]
        · rw [Function.update_of_ne hk]
      unfold progress
      simp only [hmarks]

/-! ## The arrays -/

theorem setAt_eq {α : Type} {array : List α} {i : Nat} (h : i < array.length) (value : α) :
    setAt array i value = some (array.set i value) := if_pos h

theorem take_set {α : Type} {array : List α} {k : Nat} (h : k < array.length) (value : α) :
    (array.set k value).take (k + 1) = array.take k ++ [value] := by
  rw [List.take_add_one, List.take_set_of_le (Nat.le_refl k), List.getElem?_set_self h]
  rfl

/-- The arrays hold the marks, the path and the stack. -/
structure Synced (n : Nat) (search : CycleSearch) (visited : Nat → Mark) (path stack : List Nat) : Prop where
  visited_length : search.visited.length = n
  path_length : search.path.length = n
  stack_length : search.stack.length = n
  visited_eq : ∀ i < n, search.visited[i]? = some (visited i)
  path_len : search.path_len = path.length
  path_eq : search.path.take search.path_len = path
  stack_top : search.stack_top = stack.length
  stack_eq : search.stack.take search.stack_top = stack.reverse

namespace Synced

variable {search : CycleSearch}

theorem top (h : Synced n search visited path (i :: stack)) :
    search.stack[search.stack_top - 1]? = some i := by
  have htop := h.stack_top
  have hstack := h.stack_eq
  rw [List.length_cons] at htop
  rw [List.reverse_cons] at hstack
  have hlt : search.stack_top - 1 < search.stack_top := by omega
  have hindex : search.stack_top - 1 = stack.reverse.length := by
    rw [List.length_reverse]
    omega
  rw [← List.getElem?_take_of_lt hlt, hstack, hindex, List.getElem?_concat_length]

theorem visited_set (h : Synced n search visited path stack) (hi : i < n) (mark : Mark) :
    setAt search.visited i mark = some (search.visited.set i mark) ∧
      ∀ j < n, (search.visited.set i mark)[j]? = some (Function.update visited i mark j) := by
  rw [← h.visited_length] at hi
  refine ⟨setAt_eq hi mark, fun j hj => ?_⟩
  by_cases hji : j = i
  · rw [hji, List.getElem?_set_self hi, Function.update_self]
  · rw [List.getElem?_set_ne (Ne.symm hji), Function.update_of_ne hji, h.visited_eq j hj]

theorem visit (h : Synced n search visited path stack) (hi : i < n) (hroom : path.length < n) :
    ∃ search', search.visit i = some search' ∧
      Synced n search' (Function.update visited i .onPath) (path ++ [i]) stack := by
  obtain ⟨hvisited, hmarks⟩ := h.visited_set hi .onPath
  have hlen : search.path_len < search.path.length := by rw [h.path_len, h.path_length]; exact hroom
  have hvisit : search.visit i = some { search with
      visited := search.visited.set i .onPath
      path := search.path.set search.path_len i
      path_len := search.path_len + 1 } := by
    rw [CycleSearch.visit, hvisited, setAt_eq hlen]
    rfl
  refine ⟨_, hvisit, ?_⟩
  constructor
  · exact List.length_set.trans h.visited_length
  · exact List.length_set.trans h.path_length
  · exact h.stack_length
  · exact hmarks
  · simp [h.path_len]
  · rw [take_set hlen, h.path_eq]
  · exact h.stack_top
  · exact h.stack_eq

theorem scanAdjacency_eq (h : Synced n search visited path stack) {adjacency : List Nat}
    (hlt : ∀ j ∈ adjacency, j < n) :
    scanAdjacency search.visited adjacency = some (adjacency.find? fun j => visited j ≠ .done) := by
  induction adjacency with
  | nil => rfl
  | cons j adjacency ih =>
    obtain ⟨hj, hrest⟩ := List.forall_mem_cons.mp hlt
    rw [scanAdjacency, h.visited_eq j hj, Option.bind_eq_bind, Option.bind_some]
    by_cases hdone : visited j = .done
    · rw [if_pos hdone, ih hrest, List.find?_cons_of_neg (by simp [hdone])]
    · rw [if_neg hdone, List.find?_cons_of_pos (by simp [hdone])]

theorem pop (h : Synced n search visited path (i :: stack)) (hpath : path = (i :: stack).reverse)
    (hi : i < n) (hdone : ∀ j ∈ next i, j < n ∧ visited j = .done) :
    ∃ search', search.advance n i (next i) = some (.next search') ∧
      Synced n search' (Function.update visited i .done) stack.reverse stack := by
  obtain ⟨hvisited, hmarks⟩ := h.visited_set hi .done
  have hfind : (next i).find? (fun j => visited j ≠ .done) = none := by
    rw [List.find?_eq_none]
    intro j hj
    simp [(hdone j hj).2]
  have hpath_len : search.path_len = stack.length + 1 := by
    rw [h.path_len, hpath, List.length_reverse, List.length_cons]
  have hstack_top : search.stack_top = stack.length + 1 := h.stack_top
  have hadvance : search.advance n i (next i) = some (.next { search with
      visited := search.visited.set i .done
      path_len := search.path_len - 1
      stack_top := search.stack_top - 1 }) := by
    rw [CycleSearch.advance, h.scanAdjacency_eq fun j hj => (hdone j hj).1, hfind]
    simp only
    rw [if_neg (by omega), hvisited, Option.map_some]
  have htake {array : List Nat} (htake : array.take (stack.length + 1) = stack.reverse ++ [i]) :
      array.take stack.length = stack.reverse := by
    have hle := congrArg (List.take stack.length) htake
    rwa [List.take_take, Nat.min_eq_left (Nat.le_succ _), List.take_left' (List.length_reverse)] at hle
  have hpath_eq := h.path_eq
  have hstack_eq := h.stack_eq
  rw [hpath_len, hpath, List.reverse_cons] at hpath_eq
  rw [hstack_top, List.reverse_cons] at hstack_eq
  refine ⟨_, hadvance, ?_⟩
  constructor
  · exact List.length_set.trans h.visited_length
  · exact h.path_length
  · exact h.stack_length
  · exact hmarks
  · simp [hpath_len]
  · simp only [hpath_len, Nat.add_sub_cancel]
    exact htake hpath_eq
  · simp [hstack_top]
  · simp only [hstack_top, Nat.add_sub_cancel]
    exact htake hstack_eq

theorem push (h : Synced n search visited path stack) {j : Nat} (hlt : ∀ j ∈ next i, j < n)
    (hfind : (next i).find? (fun j => visited j ≠ .done) = some j) (hpath : visited j ≠ .onPath)
    (hroom : stack.length < n) :
    ∃ search', search.advance n i (next i) = some (.next search') ∧
      Synced n search' visited path (j :: stack) := by
  have hj := hlt j (List.mem_of_find?_eq_some hfind)
  have htop : search.stack_top < search.stack.length := by
    rw [h.stack_top, h.stack_length]
    exact hroom
  have hfull : ¬search.stack_top ≥ n := by
    rw [h.stack_top]
    omega
  have hadvance : search.advance n i (next i) = some (.next { search with
      stack := search.stack.set search.stack_top j
      stack_top := search.stack_top + 1 }) := by
    rw [CycleSearch.advance, h.scanAdjacency_eq hlt, hfind]
    simp only
    rw [h.visited_eq j hj, if_neg (by simpa using hpath), if_neg hfull, setAt_eq htop, Option.map_some]
  refine ⟨_, hadvance, ?_⟩
  constructor
  · exact h.visited_length
  · exact h.path_length
  · exact List.length_set.trans h.stack_length
  · exact h.visited_eq
  · exact h.path_len
  · exact h.path_eq
  · simp [h.stack_top]
  · rw [take_set htop, h.stack_eq, List.reverse_cons]

theorem closes (h : Synced n search visited path stack) {j : Nat} (hlt : ∀ j ∈ next i, j < n)
    (hfind : (next i).find? (fun j => visited j ≠ .done) = some j) (hpath : visited j = .onPath) :
    search.advance n i (next i) = some (.ends (.cycle path j)) := by
  have hj := hlt j (List.mem_of_find?_eq_some hfind)
  rw [CycleSearch.advance, h.scanAdjacency_eq hlt, hfind]
  simp only
  rw [h.visited_eq j hj, if_pos (by rw [hpath]), h.path_eq]

end Synced

/-! ## The search as a whole -/

/-- What the search comes to, with its arrays and on lists. -/
def Comes (next : Nat → List Nat) (start : Nat) (outcome : Option Outcome) (found : Option (List Nat × Nat)) :
    Prop :=
  match found with
  | some (path, i) => outcome = some (.cycle path i) ∧
      IsCycle (Edge next) (path.dropWhile (· ≠ i) ++ [i]) ∧ ReachesCycle (Edge next) start
  | none => outcome = some .exhausted ∧ ¬ReachesCycle (Edge next) start

theorem Coloured.progress_le (h : Coloured next n start visited path stack) :
    progress n visited stack ≤ 2 * n := by
  cases hstack : stack with
  | nil =>
    subst hstack
    cases h with
    | settled h => exact h.progress_le
  | cons i rest =>
    subst hstack
    obtain ⟨visited', hsettled, -, -, hprogress⟩ := h.visit
    rw [← hprogress]
    exact hsettled.progress_le

theorem Synced.round_eq {search : CycleSearch} (h : Synced n search visited path (i :: stack))
    {visited' : Nat → Mark} (hsettled : Settled next n start visited' (i :: stack))
    (hpath : (if visited i = .unseen then path ++ [i] else path) = (i :: stack).reverse)
    (hmarks : (if visited i = .unseen then Function.update visited i .onPath else visited) = visited') :
    ∃ search', Synced n search' visited' (i :: stack).reverse (i :: stack) ∧
      search.round next n = search'.advance n i (next i) := by
  have hi := hsettled.lt i List.mem_cons_self
  unfold CycleSearch.round
  rw [h.top, Option.bind_eq_bind, Option.bind_some, h.visited_eq i hi, Option.bind_eq_bind, Option.bind_some]
  by_cases hmark : visited i = .unseen
  · rw [if_pos hmark] at hpath hmarks ⊢
    have hroom : path.length < n := by
      have hlength := length_le_of_lt hsettled.nodup hsettled.lt
      have hsame := congrArg List.length hpath
      simp only [List.length_append, List.length_reverse, List.length_cons, List.length_nil] at hsame hlength
      omega
    obtain ⟨search', hvisit, hsynced⟩ := h.visit hi hroom
    rw [hpath, hmarks] at hsynced
    have hfull : ¬search.path_len ≥ n := by
      rw [h.path_len]
      omega
    refine ⟨search', hsynced, ?_⟩
    rw [if_neg hfull, hvisit]
    rfl
  · rw [if_neg hmark] at hpath hmarks ⊢
    rw [← hpath, ← hmarks]
    exact ⟨search, h, rfl⟩

theorem run_spec (hlt : ∀ i, ∀ j ∈ next i, j < n) {rounds : Nat} {search : CycleSearch}
    (hsynced : Synced n search visited path stack) (hcoloured : Coloured next n start visited path stack)
    (hrounds : 2 * n < rounds + progress n visited stack) :
    Comes next start (search.run next n rounds) (findCycle next rounds visited path stack) := by
  induction rounds generalizing search visited path stack with
  | zero =>
    have hle := hcoloured.progress_le
    omega
  | succ rounds ih =>
    cases stack with
    | nil =>
      have htop : search.stack_top = 0 := hsynced.stack_top
      rw [CycleSearch.run, if_pos htop]
      cases hcoloured with
      | settled h => exact ⟨rfl, h.sound.not_reachesCycle⟩
    | cons i stack =>
      obtain ⟨visited', hsettled, hpath, hmarks, hprogress⟩ := hcoloured.visit
      obtain ⟨search', hsynced', hround⟩ := hsynced.round_eq hsettled hpath hmarks
      have htop : search.stack_top ≠ 0 := by
        rw [hsynced.stack_top]
        exact Nat.succ_ne_zero _
      rw [← hprogress] at hrounds
      rw [CycleSearch.run, if_neg htop, hround, findCycle]
      simp only [hpath, hmarks]
      cases hfind : (next i).find? fun j => visited' j ≠ .done with
      | none =>
        have hall : ∀ j ∈ next i, visited' j = .done := by
          intro j hj
          simpa using List.find?_eq_none.mp hfind j hj
        obtain ⟨search'', hadvance, hsynced''⟩ := hsynced'.pop rfl (hsettled.lt i List.mem_cons_self)
          fun j hj => ⟨hlt i j hj, hall j hj⟩
        obtain ⟨hsettled'', hmore⟩ := hsettled.pop hall
        rw [hadvance, List.reverse_cons, List.dropLast_concat]
        exact ih hsynced'' (.settled hsettled'') (by omega)
      | some j =>
        have hj := List.mem_of_find?_eq_some hfind
        simp only
        by_cases hpathj : visited' j = .onPath
        · rw [if_pos hpathj, hsynced'.closes (hlt i) hfind hpathj]
          exact ⟨rfl, hsettled.cycle hj hpathj⟩
        · have hdone : visited' j ≠ .done := by simpa using List.find?_some hfind
          have hnew : j ∉ i :: stack := fun hmem => hpathj ((hsettled.onPath j).mpr hmem)
          have hroom := length_le_of_lt (List.nodup_cons.mpr ⟨hnew, hsettled.nodup⟩)
            (List.forall_mem_cons.mpr ⟨hlt i j hj, hsettled.lt⟩)
          obtain ⟨search'', hadvance, hsynced''⟩ := hsynced'.push (hlt i) hfind hpathj hroom
          obtain ⟨hcoloured'', hmore⟩ := hsettled.push hj (hlt i j hj) hdone hpathj
          rw [if_neg hpathj, hadvance]
          exact ih hsynced'' hcoloured'' (by omega)

theorem search_spec (hlt : ∀ i, ∀ j ∈ next i, j < n) (hstart : start < n) :
    Comes next start (search next n start) (findCycle next (2 * n + 1) (fun _ => .unseen) [] [start]) := by
  have hfirst : first n start = some
      ⟨List.replicate n .unseen, List.replicate n 0, 0, (List.replicate n 0).set 0 start, 1⟩ := by
    rw [first, setAt_eq (by rw [List.length_replicate]; omega)]
    rfl
  have hsynced : Synced n
      ⟨List.replicate n .unseen, List.replicate n 0, 0, (List.replicate n 0).set 0 start, 1⟩
      (fun _ => .unseen) [] [start] := by
    constructor
    · exact List.length_replicate
    · exact List.length_replicate
    · exact List.length_set.trans List.length_replicate
    · intro i hi
      exact List.getElem?_replicate_of_lt hi
    · rfl
    · rfl
    · rfl
    · exact take_set (by rw [List.length_replicate]; omega) start
  have hsettled : Settled next n start (Function.update (fun _ => .unseen) start .onPath) [start] := by
    refine ⟨?_, fun i hi => ?_, fun i => ?_⟩
    · have hdone (i : Nat) : ¬Function.update (fun _ => Mark.unseen) start .onPath i = .done := by
        by_cases hi : i = start <;> simp [hi, Function.update]
      simp only [hdone]
      exact Sound.first start
    · rw [List.mem_singleton.mp hi]
      exact hstart
    · by_cases hi : i = start <;> simp [hi, Function.update]
  rw [search, hfirst, Option.bind_some]
  refine run_spec hlt hsynced (.pushed rfl hsettled) ?_
  unfold progress
  simp only [reduceCtorEq, Finset.filter_false, Finset.card_empty, List.length_singleton]
  omega

end CycleSearch

/-! ## What is reported -/

/-- A result that cannot be sorted: its edges, and the first that has one left. -/
structure Unsorted where
  result : ParseResult
  edges : List (Nat × Nat)
  start : Nat
  edges_eq : result.dependencyEdges = some edges
  fewer : (Kahn.sort result.registered.length edges).sorted.length ≠ result.registered.length
  first : ((List.range result.registered.length).find? fun i =>
    (Kahn.sort result.registered.length edges).deg i > 0) = some start

namespace Unsorted

open CycleSearch

variable (u : Unsorted)

/-- The first definition has to come before the second. -/
def Adjacent (i j : Nat) : Prop := (i, j) ∈ u.edges

def search : Option Outcome :=
  CycleSearch.search (Kahn.successors u.edges) u.result.registered.length u.start

def cycle : Option (List Nat) :=
  match u.search with
  | some (.cycle path i) => some (path.dropWhile (· ≠ i) ++ [i])
  | _ => none

/-- The names of some definitions, as the error has them. -/
def pathText (cycle : List Nat) : Text :=
  " -> ".toList.intercalate
    (cycle.map fun i => ((u.result.registered[i]?.bind u.result.def?).map Def.name).getD [])

/-- The search leaves no array and finds none of them full. -/
def StaysInside : Prop := ∃ outcome, u.search = some outcome ∧ outcome ≠ .full

def CycleReported : Prop :=
  ∃ cycle, u.cycle = some cycle ∧ IsCycle u.Adjacent cycle ∧
    ∃ on, u.result.toposort = .cyclic on (u.pathText cycle)

variable {u}

theorem mem_successors {edges : List (Nat × Nat)} {i j : Nat} :
    j ∈ Kahn.successors edges i ↔ (i, j) ∈ edges := by
  unfold Kahn.successors
  rw [List.mem_filterMap]
  constructor
  · rintro ⟨⟨k, l⟩, hmem, h⟩
    split at h
    · next hk =>
      cases h
      rwa [← hk]
    · cases h
  · intro hmem
    exact ⟨(i, j), hmem, if_pos rfl⟩

theorem edge_eq : Edge (Kahn.successors u.edges) = u.Adjacent := by
  funext i j
  exact propext mem_successors

theorem search_comes : Comes (Kahn.successors u.edges) u.start u.search
    (ParseResult.findCycle (Kahn.successors u.edges) (2 * u.result.registered.length + 1)
      (fun _ => .unseen) [] [u.start]) := by
  refine search_spec (fun i j hj => ?_) (List.mem_range.mp (List.mem_of_find?_eq_some u.first))
  exact (ParseResult.edges_lt u.edges_eq (i, j) (mem_successors.mp hj)).2

theorem toposort_eq : ∃ on, u.result.toposort = .cyclic on (u.result.findCyclePath u.edges u.start) := by
  have hstart := List.mem_range.mp (List.mem_of_find?_eq_some u.first)
  refine ⟨u.result.registered[u.start], ?_⟩
  unfold ParseResult.toposort
  rw [u.edges_eq]
  simp only
  rw [if_neg u.fewer, u.first]
  simp only
  rw [List.getElem?_eq_getElem hstart]

/-- It stays in its arrays, and reports a cycle if its start comes before one on it. -/
theorem cycleReported_iff (u : Unsorted) :
    u.StaysInside ∧ (u.CycleReported ↔ ReachesCycle u.Adjacent u.start) := by
  have hcomes := u.search_comes
  obtain ⟨on, htoposort⟩ := u.toposort_eq
  unfold Comes at hcomes
  rw [edge_eq] at hcomes
  cases hfound : ParseResult.findCycle (Kahn.successors u.edges) (2 * u.result.registered.length + 1)
      (fun _ => .unseen) [] [u.start] with
  | some found =>
    rw [hfound] at hcomes
    obtain ⟨hsearch, hcycle, hreaches⟩ := hcomes
    refine ⟨⟨_, hsearch, nofun⟩, iff_of_true ⟨_, ?_, hcycle, on, ?_⟩ hreaches⟩
    · rw [cycle, hsearch]
    · rw [htoposort, ParseResult.findCyclePath, hfound]
      rfl
  | none =>
    rw [hfound] at hcomes
    obtain ⟨hsearch, hreaches⟩ := hcomes
    refine ⟨⟨_, hsearch, nofun⟩, iff_of_false ?_ hreaches⟩
    rintro ⟨cycle, hcycle, -⟩
    rw [Unsorted.cycle, hsearch] at hcycle
    cases hcycle

/-- `struct A { f: B; } struct B { f: C; } struct C { f: B; }` -/
def beforeCycle : ParseResult where
  schemas :=
    [.ofDefinitions none [] [Sample.record ['A'] [['B']] [], Sample.record ['B'] [['C']] [],
      Sample.record ['C'] [['B']] []] (by decide)]

/-- `A` only needs a definition that is on a cycle. -/
def downstream : Unsorted where
  result := beforeCycle.resolved
  edges := [(1, 0), (2, 1), (1, 2)]
  start := 0
  edges_eq := by decide
  fewer := by decide
  first := by decide

theorem downstream_not_reported : ¬∀ u : Unsorted, u.StaysInside ∧ u.CycleReported := by
  intro h
  obtain ⟨cycle, hcycle, -⟩ := (h downstream).2
  have hnone : downstream.cycle = none := by decide
  rw [hnone] at hcycle
  cases hcycle

end Unsorted

end Bebop.Compiler
