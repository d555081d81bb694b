import Mathlib.Data.List.Sort

/-!
# Binary search among equal keys

A list that is sorted by a key has all that have one key in a row, which `lowerBound` finds. A
sort that is not stable may put any member of a row first (`exists_sorted_first`).
-/

namespace SortedSearch

variable {β κ : Type}

/-- The first place of `[lo, hi)` with nothing below. -/
def lowerBound (below : β → Bool) (l : List β) (lo hi : Nat) : Nat :=
  if lo < hi then
    let mid := lo + (hi - lo) / 2
    if l[mid]?.any below then lowerBound below l (mid + 1) hi else lowerBound below l lo mid
  else lo
termination_by hi - lo

theorem lowerBound_append {below : β → Bool} {front back : List β} (hfront : ∀ b ∈ front, below b)
    (hback : ∀ b ∈ back, ¬below b) {lo hi : Nat} (hlo : lo ≤ front.length) (hhi : front.length ≤ hi)
    (hlen : hi ≤ (front ++ back).length) : lowerBound below (front ++ back) lo hi = front.length := by
  unfold lowerBound
  by_cases hlt : lo < hi
  · rw [if_pos hlt]
    simp only
    have hmid : lo + (hi - lo) / 2 < (front ++ back).length := by omega
    rw [List.getElem?_eq_getElem hmid, Option.any_some]
    by_cases hcut : lo + (hi - lo) / 2 < front.length
    · have hbelow : below (front ++ back)[lo + (hi - lo) / 2] := by
        rw [List.getElem_append_left hcut]
        exact hfront _ (List.getElem_mem hcut)
      rw [if_pos hbelow]
      exact lowerBound_append hfront hback (by omega) hhi hlen
    · have hbelow : ¬below (front ++ back)[lo + (hi - lo) / 2] := by
        rw [List.getElem_append_right (by omega)]
        exact hback _ (List.getElem_mem _)
      rw [if_neg hbelow]
      exact lowerBound_append hfront hback hlo (by omega) (by omega)
  · rw [if_neg hlt]
    omega
termination_by hi - lo

variable [Ord κ] (key : β → κ)

def Sorted (l : List β) : Prop := l.Pairwise fun a b => (compare (key a) (key b)).isLE

variable [Std.TransOrd κ] {key}

theorem not_lt_of_mem_dropWhile {l : List β} (h : Sorted key l) (k : κ) :
    ∀ b ∈ l.dropWhile (fun b => compare (key b) k == .lt), compare (key b) k ≠ .lt := by
  induction l with
  | nil => nofun
  | cons a l ih =>
    obtain ⟨ha, hl⟩ := List.pairwise_cons.mp h
    by_cases hlt : compare (key a) k = .lt
    · rw [List.dropWhile_cons_of_pos (by simp [hlt])]
      exact ih hl
    · rw [List.dropWhile_cons_of_neg (by simpa using hlt)]
      intro b hb hbk
      rcases List.mem_cons.mp hb with rfl | hb
      · exact hlt hbk
      · exact hlt (Std.TransCmp.lt_of_isLE_of_lt (ha b hb) hbk)

theorem drop_lowerBound {l : List β} (h : Sorted key l) (k : κ) :
    l.drop (lowerBound (fun b => compare (key b) k == .lt) l 0 l.length) =
      l.dropWhile fun b => compare (key b) k == .lt := by
  have hsplit := List.takeWhile_append_dropWhile (p := fun b => compare (key b) k == .lt) (l := l)
  have hfront : ∀ b ∈ l.takeWhile (fun b => compare (key b) k == .lt), compare (key b) k == .lt :=
    List.all_eq_true.mp List.all_takeWhile
  have hback : ∀ b ∈ l.dropWhile (fun b => compare (key b) k == .lt), ¬compare (key b) k == .lt := by
    intro b hb
    simpa using not_lt_of_mem_dropWhile h k b hb
  have hlen := congrArg List.length hsplit
  rw [List.length_append] at hlen
  have hbound := lowerBound_append hfront hback (Nat.zero_le _) (show _ ≤ l.length by omega)
    (by rw [hsplit])
  rw [hsplit] at hbound
  rw [hbound]
  have hdrop := congrArg (List.drop (l.takeWhile fun b => compare (key b) k == .lt).length) hsplit
  rw [List.drop_left] at hdrop
  exact hdrop.symm

variable [Std.LawfulEqOrd κ]

omit [Std.TransOrd κ] in
theorem takeWhile_eq_filter {l : List β} (h : Sorted key l) {k : κ}
    (hge : ∀ b ∈ l, compare (key b) k ≠ .lt) :
    l.takeWhile (fun b => compare (key b) k == .eq) = l.filter fun b => compare (key b) k == .eq := by
  induction l with
  | nil => rfl
  | cons a l ih =>
    obtain ⟨ha, hl⟩ := List.pairwise_cons.mp h
    obtain ⟨hgea, hgel⟩ := List.forall_mem_cons.mp hge
    by_cases heq : compare (key a) k = .eq
    · rw [List.takeWhile_cons_of_pos (by simp [heq]), List.filter_cons_of_pos (by simp [heq]), ih hl hgel]
    · rw [List.takeWhile_cons_of_neg (by simpa using heq), List.filter_cons_of_neg (by simpa using heq)]
      symm
      rw [List.filter_eq_nil_iff]
      intro b hb hbk
      have hbk : key b = k := by simpa using hbk
      have hab := ha b hb
      rw [hbk] at hab
      cases hcmp : compare (key a) k with
      | lt => exact hgea hcmp
      | eq => exact heq hcmp
      | gt =>
        rw [hcmp] at hab
        cases hab

/-- The row of a key. -/
theorem run_eq_filter {l : List β} (h : Sorted key l) (k : κ) :
    (l.drop (lowerBound (fun b => compare (key b) k == .lt) l 0 l.length)).takeWhile
        (fun b => compare (key b) k == .eq) =
      l.filter fun b => compare (key b) k == .eq := by
  have hsplit := List.takeWhile_append_dropWhile (p := fun b => compare (key b) k == .lt) (l := l)
  have hback : Sorted key (l.dropWhile fun b => compare (key b) k == .lt) :=
    List.Pairwise.sublist (List.dropWhile_sublist _) h
  rw [drop_lowerBound h, takeWhile_eq_filter hback (not_lt_of_mem_dropWhile h k)]
  conv_rhs => rw [← hsplit, List.filter_append]
  have hfront : (l.takeWhile fun b => compare (key b) k == .lt).filter
      (fun b => compare (key b) k == .eq) = [] := by
    rw [List.filter_eq_nil_iff]
    intro b hb
    have hlt := List.all_eq_true.mp List.all_takeWhile b hb
    simp only [beq_iff_eq] at hlt
    simp [hlt]
  rw [hfront, List.nil_append]

/-- A sort may put any of the equal ones first. -/
theorem exists_sorted_first (key : β → κ) {l : List β} {b : β} (hb : b ∈ l) :
    ∃ sorted : List β, sorted.Perm l ∧ Sorted key sorted ∧
      (sorted.filter fun a => compare (key a) (key b) == .eq).head? = some b := by
  obtain ⟨s, t, rfl⟩ := List.append_of_mem hb
  let r : β → β → Prop := fun a c => (compare (key a) (key c)).isLE
  have : DecidableRel r := fun a c => inferInstanceAs (Decidable ((compare (key a) (key c)).isLE = true))
  have : IsTrans β r := ⟨fun _ _ _ => Std.TransCmp.isLE_trans⟩
  have : Std.Total r := by
    constructor
    intro a c
    cases hcmp : compare (key a) (key c) with
    | lt => exact .inl (by simp [r, hcmp])
    | eq => exact .inl (by simp [r, hcmp])
    | gt => exact .inr (by simp [r, Std.OrientedCmp.gt_iff_lt.mp hcmp])
  -- the sort by insertion puts `b` before all that are not below it
  refine ⟨List.insertionSort r (b :: (s ++ t)), (List.perm_insertionSort r _).trans List.perm_middle.symm,
    List.pairwise_insertionSort r _, ?_⟩
  have hfront (l : List β) : (l.takeWhile fun a => decide ¬r b a).filter
      (fun a => compare (key a) (key b) == .eq) = [] := by
    rw [List.filter_eq_nil_iff]
    intro a ha heq
    have hnot := of_decide_eq_true (List.all_eq_true.mp List.all_takeWhile a ha)
    have heq : key a = key b := by simpa using heq
    exact hnot (by simp [r, heq])
  rw [List.insertionSort_cons, List.orderedInsert_eq_take_drop, List.filter_append, hfront,
    List.nil_append, List.filter_cons_of_pos (by simp), List.head?_cons]

end SortedSearch
