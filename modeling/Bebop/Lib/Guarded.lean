import Mathlib.Data.List.Nodup

/-!
# Computations with a guard

What a computation in `Except` comes to, when the only question is whether one of its
checks fails: it has one result, under one condition, and an error else. The rules of
`Guarded` put the conditions of the parts together.
-/

/-- The computation has this result when the condition holds, and an error else. -/
def Guarded {ε α : Type} (x : Except ε α) (p : Prop) (a : α) : Prop := ∀ b, x = .ok b ↔ p ∧ b = a

theorem exists_of_bind {ε α β : Type} {x : Except ε α} {f : α → Except ε β} {b : β} (h : (x >>= f) = .ok b) :
    ∃ a, x = .ok a ∧ f a = .ok b := by
  cases x with
  | error e => cases h
  | ok a => exact ⟨a, rfl, h⟩

namespace Guarded

variable {ε α β κ : Type} {x : Except ε α} {p q : Prop} {a : α} {b : β}

theorem congr (h : Guarded x p a) (hp : p ↔ q) : Guarded x q a := by
  intro b
  rw [h b, hp]

theorem eq {a' : α} (h : Guarded x p a) (ha : p → a = a') : Guarded x p a' := by
  intro b
  rw [h b]
  refine and_congr_right fun hp => ?_
  rw [ha hp]

theorem pure (a : α) : Guarded (Pure.pure a : Except ε α) True a := by
  intro b
  constructor
  · intro h
    cases h
    exact ⟨trivial, rfl⟩
  · rintro ⟨-, rfl⟩
    rfl

def valueOf [Inhabited α] (x : Except ε α) : α := x.toOption.getD default

theorem value [Inhabited α] (h : Guarded x p a) : Guarded x p (valueOf x) := by
  intro b
  cases x with
  | error e => simpa [valueOf] using fun hp hb => nomatch (h a).mpr ⟨hp, rfl⟩
  | ok a' =>
    obtain ⟨hp, rfl⟩ := (h a').mp rfl
    exact h b

theorem throw (e : ε) (a : α) : Guarded (MonadExcept.throw e : Except ε α) False a := by
  intro b
  constructor
  · intro h
    cases h
  · rintro ⟨h, -⟩
    cases h

theorem bind {f : α → Except ε β} (hx : Guarded x p a) (hf : p → Guarded (f a) q b) : Guarded (x >>= f) (p ∧ q) b := by
  intro c
  cases x with
  | error e =>
    constructor
    · intro h
      cases h
    · rintro ⟨⟨hp, -⟩, -⟩
      cases (hx a).mpr ⟨hp, rfl⟩
  | ok a' =>
    obtain ⟨hp, rfl⟩ := (hx a').mp rfl
    show f a' = .ok c ↔ _
    rw [hf hp c, and_iff_right hp]

theorem bind_pure {f : α → β} (hx : Guarded x p a) : Guarded (x >>= fun a => Pure.pure (f a)) p (f a) :=
  (hx.bind fun _ => pure (f a)).congr (and_iff_left trivial)

/-- A check that comes first. -/
theorem reject {c : Prop} [Decidable c] {e : ε} (hx : ¬c → Guarded x p a) :
    Guarded (if c then MonadExcept.throw e else x) (¬c ∧ p) a := by
  intro b
  by_cases hc : c
  · rw [if_pos hc, throw e a b]
    simp [hc]
  · rw [if_neg hc, hx hc b]
    simp [hc]

/-! ## Loops -/

theorem mapM {l : List α} {f : α → Except ε β} {p : α → Prop} {g : α → β} (hf : ∀ a ∈ l, Guarded (f a) (p a) (g a)) :
    Guarded (l.mapM f) (∀ a ∈ l, p a) (l.map g) := by
  induction l with
  | nil => exact (pure []).congr (by simp)
  | cons a l ih =>
    rw [List.mapM_cons]
    have hrest := ih fun a' ha' => hf a' (List.mem_cons_of_mem _ ha')
    refine ((hf a List.mem_cons_self).bind fun _ => hrest.bind_pure).congr ?_
    rw [List.forall_mem_cons]

theorem forM {l : List α} {f : α → Except ε PUnit} {p : α → Prop} (hf : ∀ a ∈ l, Guarded (f a) (p a) ⟨⟩) :
    Guarded (l.forM f) (∀ a ∈ l, p a) ⟨⟩ := by
  induction l with
  | nil => exact (pure PUnit.unit).congr (by simp)
  | cons a l ih =>
    have hrest := ih fun a' ha' => hf a' (List.mem_cons_of_mem _ ha')
    refine ((hf a List.mem_cons_self).bind fun _ => hrest).congr ?_
    rw [List.forall_mem_cons]

/-- A loop that refuses a key it has, and adds the key of each element. -/
theorem distinct {l : List α} {f : β → α → Except ε β} (g : β → α → β) (key : α → κ) (has : β → κ → Prop)
    (p : α → Prop) (hf : ∀ b, ∀ a ∈ l, Guarded (f b a) (¬has b (key a) ∧ p a) (g b a))
    (hhas : ∀ b a k, has (g b a) k ↔ has b k ∨ k = key a) (b : β) :
    Guarded (l.foldlM f b) ((l.map key).Nodup ∧ ∀ a ∈ l, ¬has b (key a) ∧ p a) (l.foldl g b) := by
  induction l generalizing b with
  | nil => exact (pure b).congr (by simp)
  | cons a l ih =>
    rw [List.foldlM_cons]
    have hrest := ih (fun b a' ha' => hf b a' (List.mem_cons_of_mem _ ha')) (g b a)
    refine ((hf b a List.mem_cons_self).bind fun _ => hrest).congr ?_
    rw [List.map_cons, List.nodup_cons, List.forall_mem_cons, List.mem_map]
    constructor
    · rintro ⟨ha, hnodup, hall⟩
      refine ⟨⟨?_, hnodup⟩, ha, fun a' ha' => ⟨fun h => (hall a' ha').1 ((hhas b a _).mpr (.inl h)), (hall a' ha').2⟩⟩
      rintro ⟨a', ha', hkey⟩
      exact (hall a' ha').1 ((hhas b a _).mpr (.inr hkey))
    · rintro ⟨⟨hnew, hnodup⟩, ha, hall⟩
      refine ⟨ha, hnodup, fun a' ha' => ⟨fun h => ?_, (hall a' ha').2⟩⟩
      rcases (hhas b a _).mp h with h | h
      · exact (hall a' ha').1 h
      · exact hnew ⟨a', ha', h⟩

end Guarded
