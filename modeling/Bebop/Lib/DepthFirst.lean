import Mathlib.Data.List.Nodup
import Mathlib.Data.Set.Finite.Basic
import Mathlib.Logic.Relation
import Mathlib.Order.WellFounded

/-!
# Depth-first search without marks

A search for the first node with a property that goes into the children one after another
and does not remember where it has been. It ends where there is nothing to find and no
cycle to go round (`Exhausted`), and where it comes to what it looks for only past children
like that (`Finds`).
-/

namespace DepthFirst

variable {α β : Type} (goal : α → Option β) (children : α → List α)

def search : Nat → α → Option (Option β)
  | 0, _ => none
  | depth + 1, a =>
    match goal a with
    | some b => some (some b)
    | none =>
      (children a).foldlM (fun found child =>
        match found with
        | some b => some (some b)
        | none => search depth child) none

/-- The search through some nodes, one after another. -/
def searchAll (depth : Nat) : List α → Option (Option β)
  | [] => some none
  | a :: rest =>
    match search goal children depth a with
    | none => none
    | some (some b) => some (some b)
    | some none => searchAll depth rest

abbrev Child (a b : α) : Prop := b ∈ children a

abbrev Reaches : α → α → Prop := Relation.ReflTransGen (Child children)

/-- Nothing can be found from the node, and no cycle can be come to. -/
structure Exhausted (a : α) : Prop where
  missing : ∀ b, Reaches children a b → goal b = none
  acyclic : ∀ b, Reaches children a b → ¬Relation.TransGen (Child children) b b

/-- Something is found, past children that are exhausted. -/
inductive Finds : α → Prop
  | here {a b} : goal a = some b → Finds a
  | past {a before child after} : goal a = none → children a = before ++ child :: after →
      (∀ other ∈ before, Exhausted goal children other) → Finds child → Finds a

variable {goal children}

theorem foldlM_search (depth : Nat) (nodes : List α) (found : Option β) :
    nodes.foldlM (fun found child =>
      match found with
      | some b => some (some b)
      | none => search goal children depth child) found =
      match found with
      | some b => some (some b)
      | none => searchAll goal children depth nodes := by
  induction nodes generalizing found with
  | nil => cases found <;> rfl
  | cons a rest ih =>
    rw [List.foldlM_cons]
    cases found with
    | some b => exact ih (some b)
    | none =>
      show (search goal children depth a).bind _ = searchAll goal children depth (a :: rest)
      rw [searchAll]
      cases search goal children depth a with
      | none => rfl
      | some found =>
        rw [Option.bind_some, ih]
        cases found <;> rfl

theorem search_succ (depth : Nat) (a : α) : search goal children (depth + 1) a =
    match goal a with
    | some b => some (some b)
    | none => searchAll goal children depth (children a) := by
  rw [search]
  cases goal a with
  | some b => rfl
  | none => exact foldlM_search depth (children a) none

theorem search_mono {depth depth' : Nat} (hle : depth ≤ depth') {a : α} {found : Option β}
    (h : search goal children depth a = some found) : search goal children depth' a = some found := by
  induction depth generalizing depth' a found with
  | zero => cases h
  | succ depth ih =>
    obtain ⟨depth', rfl⟩ : ∃ k, depth' = k + 1 := ⟨depth' - 1, by omega⟩
    rw [search_succ] at h ⊢
    cases hgoal : goal a with
    | some b =>
      rw [hgoal] at h
      exact h
    | none =>
      rw [hgoal] at h
      dsimp only at h ⊢
      generalize children a = nodes at h
      induction nodes with
      | nil => exact h
      | cons child rest ihrest =>
        rw [searchAll] at h ⊢
        cases hchild : search goal children depth child with
        | none =>
          rw [hchild] at h
          cases h
        | some found =>
          rw [hchild] at h
          rw [ih (by omega) hchild]
          cases found with
          | some b => exact h
          | none => exact ihrest h

theorem searchAll_none {depth : Nat} {nodes : List α} :
    searchAll goal children depth nodes = some none ↔ ∀ a ∈ nodes, search goal children depth a = some none := by
  induction nodes with
  | nil => exact iff_of_true rfl nofun
  | cons a rest ih =>
    rw [searchAll, List.forall_mem_cons, ← ih]
    cases search goal children depth a with
    | none => exact ⟨nofun, fun h => nomatch h.1⟩
    | some found =>
      cases found with
      | some b => exact ⟨nofun, fun h => nomatch h.1⟩
      | none => exact ⟨fun h => ⟨rfl, h⟩, fun h => h.2⟩

theorem searchAll_some {depth : Nat} {nodes : List α} {b : β} :
    searchAll goal children depth nodes = some (some b) ↔ ∃ before child after, nodes = before ++ child :: after ∧
      (∀ other ∈ before, search goal children depth other = some none) ∧ search goal children depth child = some (some b) := by
  induction nodes with
  | nil =>
    refine iff_of_false nofun ?_
    rintro ⟨before, child, after, hnodes, -⟩
    exact absurd hnodes.symm (List.append_ne_nil_of_right_ne_nil _ (List.cons_ne_nil _ _))
  | cons a rest ih =>
    rw [searchAll]
    constructor
    · intro h
      cases ha : search goal children depth a with
      | none =>
        rw [ha] at h
        cases h
      | some found =>
        rw [ha] at h
        cases found with
        | some b' => exact ⟨[], a, rest, rfl, nofun, ha.trans h⟩
        | none =>
          obtain ⟨before, child, after, rfl, hbefore, hchild⟩ := ih.mp h
          exact ⟨a :: before, child, after, rfl, List.forall_mem_cons.mpr ⟨ha, hbefore⟩, hchild⟩
    · rintro ⟨before, child, after, hnodes, hbefore, hchild⟩
      cases before with
      | nil =>
        obtain ⟨rfl, -⟩ := List.cons.inj hnodes
        rw [hchild]
      | cons other before =>
        obtain ⟨rfl, rfl⟩ := List.cons.inj hnodes
        obtain ⟨hother, hbefore⟩ := List.forall_mem_cons.mp hbefore
        rw [hother]
        exact ih.mpr ⟨before, child, after, rfl, hbefore, hchild⟩

/-! ## What a search that ends says -/

theorem exhausted_of_children {a : α} (hgoal : goal a = none) (h : ∀ b ∈ children a, Exhausted goal children b) :
    Exhausted goal children a where
  missing b hreaches := by
    rcases Relation.ReflTransGen.cases_head hreaches with rfl | ⟨child, hchild, hrest⟩
    · exact hgoal
    · exact (h child hchild).missing b hrest
  acyclic b hreaches hcycle := by
    rcases Relation.ReflTransGen.cases_head hreaches with rfl | ⟨child, hchild, hrest⟩
    · -- a cycle through the node goes through one of its children
      obtain ⟨child, hchild, hback⟩ := Relation.TransGen.head'_iff.mp hcycle
      exact (h child hchild).acyclic a hback hcycle
    · exact (h child hchild).acyclic b hrest hcycle

theorem exhausted_of_search {depth : Nat} {a : α} (h : search goal children depth a = some none) :
    Exhausted goal children a := by
  induction depth generalizing a with
  | zero => cases h
  | succ depth ih =>
    rw [search_succ] at h
    cases hgoal : goal a with
    | some b =>
      rw [hgoal] at h
      cases h
    | none =>
      rw [hgoal] at h
      exact exhausted_of_children hgoal fun b hb => ih (searchAll_none.mp h b hb)

theorem finds_of_search {depth : Nat} {a : α} {b : β} (h : search goal children depth a = some (some b)) :
    Finds goal children a := by
  induction depth generalizing a with
  | zero => cases h
  | succ depth ih =>
    rw [search_succ] at h
    cases hgoal : goal a with
    | some b' => exact .here hgoal
    | none =>
      rw [hgoal] at h
      obtain ⟨before, child, after, hnodes, hbefore, hchild⟩ := searchAll_some.mp h
      exact .past hgoal hnodes (fun other hother => exhausted_of_search (hbefore other hother)) (ih hchild)

/-! ## Where a search ends -/

theorem exists_depth {nodes : List α} (h : ∀ a ∈ nodes, ∃ depth, search goal children depth a = some none) :
    ∃ depth, ∀ a ∈ nodes, search goal children depth a = some none := by
  induction nodes with
  | nil => exact ⟨0, nofun⟩
  | cons a rest ih =>
    obtain ⟨⟨depth, ha⟩, hrest⟩ := List.forall_mem_cons.mp h
    obtain ⟨depth', hall⟩ := ih hrest
    refine ⟨max depth depth', List.forall_mem_cons.mpr ⟨search_mono (Nat.le_max_left _ _) ha, fun b hb => ?_⟩⟩
    exact search_mono (Nat.le_max_right _ _) (hall b hb)

theorem search_of_exhausted {nodes : List α} {a : α} (hnodes : ∀ b, Reaches children a b → b ∈ nodes)
    (h : Exhausted goal children a) : ∃ depth, search goal children depth a = some none := by
  let Reached := {b // Reaches children a b}
  have hfinite : Finite Reached := ((List.finite_toSet nodes).subset hnodes).to_subtype
  let Below (b c : Reached) : Prop := Relation.TransGen (Child children) c.1 b.1
  have htrans : IsTrans Reached Below := ⟨fun b c d hbc hcd => hcd.trans hbc⟩
  have hirrefl : Std.Irrefl Below := ⟨fun b hbb => h.acyclic b.1 b.2 hbb⟩
  have hwf : WellFounded Below := Finite.wellFounded_of_trans_of_irrefl Below
  have hall (b : Reached) : ∃ depth, search goal children depth b.1 = some none := by
    induction b using hwf.induction with
    | _ b ih =>
      obtain ⟨depth, hchildren⟩ := exists_depth fun child hchild =>
        ih ⟨child, b.2.tail hchild⟩ (.single hchild)
      refine ⟨depth + 1, ?_⟩
      rw [search_succ, h.missing b.1 b.2]
      exact searchAll_none.mpr hchildren
  exact hall ⟨a, .refl⟩

theorem search_of_finds {nodes : List α} {a : α} (hnodes : ∀ b, Reaches children a b → b ∈ nodes)
    (h : Finds goal children a) : ∃ depth b, search goal children depth a = some (some b) := by
  induction h with
  | here hgoal => exact ⟨1, _, by rw [search_succ, hgoal]⟩
  | @past a before child after hgoal hchildren hbefore _ ih =>
    have hmem : child ∈ children a := by
      rw [hchildren]
      exact List.mem_append_right _ List.mem_cons_self
    have hearlier : ∀ other ∈ before, other ∈ children a := by
      intro other hother
      rw [hchildren]
      exact List.mem_append_left _ hother
    obtain ⟨depth, b, hchild⟩ := ih fun c hreaches => hnodes c (.head hmem hreaches)
    obtain ⟨depth', hall⟩ := exists_depth fun other hother =>
      search_of_exhausted (fun c hreaches => hnodes c (.head (hearlier other hother) hreaches)) (hbefore other hother)
    refine ⟨max depth depth' + 1, b, ?_⟩
    rw [search_succ, hgoal]
    refine searchAll_some.mpr ⟨before, child, after, hchildren, fun other hother => ?_, ?_⟩
    · exact search_mono (Nat.le_max_right _ _) (hall other hother)
    · exact search_mono (Nat.le_max_left _ _) hchild

/-- A search ends at some depth exactly where it finds something, or exhausts what it can come to. -/
theorem search_ends_iff {nodes : List α} {a : α} (hnodes : ∀ b, Reaches children a b → b ∈ nodes) :
    (∃ depth, (search goal children depth a).isSome) ↔ Exhausted goal children a ∨ Finds goal children a := by
  constructor
  · rintro ⟨depth, hends⟩
    obtain ⟨found, hfound⟩ := Option.isSome_iff_exists.mp hends
    cases found with
    | none => exact .inl (exhausted_of_search hfound)
    | some b => exact .inr (finds_of_search hfound)
  · rintro (hexhausted | hfinds)
    · obtain ⟨depth, h⟩ := search_of_exhausted hnodes hexhausted
      exact ⟨depth, by rw [h]; rfl⟩
    · obtain ⟨depth, b, h⟩ := search_of_finds hnodes hfinds
      exact ⟨depth, by rw [h]; rfl⟩

/-! ## How deep it goes -/

theorem searchAll_least {depth : Nat} {nodes : List α} (h : (searchAll goal children (depth + 1) nodes).isSome)
    (hleast : searchAll goal children depth nodes = none) :
    ∃ a ∈ nodes, (search goal children (depth + 1) a).isSome ∧ search goal children depth a = none := by
  induction nodes with
  | nil => cases hleast
  | cons a rest ih =>
    rw [searchAll] at h hleast
    cases ha : search goal children depth a with
    | none =>
      refine ⟨a, List.mem_cons_self, ?_, ha⟩
      cases hsucc : search goal children (depth + 1) a with
      | none =>
        rw [hsucc] at h
        cases h
      | some found => rfl
    | some found =>
      rw [ha] at hleast
      rw [search_mono (Nat.le_succ depth) ha] at h
      cases found with
      | some b => cases hleast
      | none =>
        obtain ⟨b, hb, hsome, hnone⟩ := ih h hleast
        exact ⟨b, List.mem_cons_of_mem _ hb, hsome, hnone⟩

theorem exists_nodes {depth : Nat} {a : α} (h : (search goal children (depth + 1) a).isSome)
    (hleast : search goal children depth a = none) : ∃ path : List α, path.length = depth + 1 ∧ path.Nodup ∧
      ∀ b ∈ path, Reaches children a b ∧ (search goal children (depth + 1) b).isSome := by
  induction depth generalizing a with
  | zero =>
    refine ⟨[a], rfl, List.nodup_singleton a, fun b hb => ?_⟩
    obtain rfl := List.mem_singleton.mp hb
    exact ⟨.refl, h⟩
  | succ depth ih =>
    have hgoal : goal a = none := by
      cases hgoal : goal a with
      | none => rfl
      | some b =>
        rw [search_succ, hgoal] at hleast
        cases hleast
    rw [search_succ, hgoal] at h
    obtain ⟨child, hchild, hsome, hnone⟩ := searchAll_least h (by rwa [search_succ, hgoal] at hleast)
    obtain ⟨path, hlength, hnodup, hall⟩ := ih hsome hnone
    have hnew : a ∉ path := by
      intro hmem
      have hends := (hall a hmem).2
      rw [hleast] at hends
      cases hends
    refine ⟨a :: path, congrArg (· + 1) hlength, List.nodup_cons.mpr ⟨hnew, hnodup⟩, List.forall_mem_cons.mpr ⟨⟨.refl, ?_⟩, ?_⟩⟩
    · rw [search_succ, hgoal]
      exact h
    · intro b hb
      obtain ⟨hreaches, hends⟩ := hall b hb
      obtain ⟨found, hfound⟩ := Option.isSome_iff_exists.mp hends
      exact ⟨.head hchild hreaches, by rw [search_mono (Nat.le_succ _) hfound]; rfl⟩

/-- A search that ends is no deeper than there are nodes. -/
theorem search_ends_nodes {nodes : List α} {a : α} (hnodes : ∀ b, Reaches children a b → b ∈ nodes)
    (h : ∃ depth, (search goal children depth a).isSome) : (search goal children nodes.length a).isSome := by
  classical
  have hfind := Nat.find_spec h
  have hleast (depth : Nat) (hlt : depth < Nat.find h) : search goal children depth a = none :=
    Option.not_isSome_iff_eq_none.mp (Nat.find_min h hlt)
  generalize Nat.find h = least at hfind hleast
  cases least with
  | zero => cases hfind
  | succ depth =>
    obtain ⟨path, hlength, hnodup, hall⟩ := exists_nodes hfind (hleast depth (Nat.lt_succ_self depth))
    have hle : path.length ≤ nodes.length :=
      (hnodup.subperm fun b hb => hnodes b (hall b hb).1).length_le
    obtain ⟨found, hfound⟩ := Option.isSome_iff_exists.mp hfind
    rw [search_mono (by omega) hfound]
    rfl

end DepthFirst
