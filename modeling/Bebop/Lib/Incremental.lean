import Bebop.Lib.Checked

/-!
# Incremental decoders — chunking does not matter

A decoder of a stream buffers what it is given and hands out one item at a time.
`Incremental` is what it has to satisfy with respect to an encoding. From that alone, the
items that come out depend on the bytes that went in and not on how they were cut into
chunks (`Laws.run_encoded`), and a decoder given the start of a stream is left with what
follows the last full item (`Laws.run_prefix`).
-/

namespace Incremental

open Checked

variable {α β σ ε : Type}

/-- A decoder: how a chunk goes in and how an item, if any, comes out. -/
structure Decoder (α β σ ε : Type) where
  push : σ → List β → Checked ε σ
  read : σ → Checked ε (Option α × σ)

inductive Drains (d : Decoder α β σ ε) : σ → List α → σ → Prop
  | done {s s' : σ} : d.read s = .ok (none, s') → Drains d s [] s'
  | item {s s' s'' : σ} {a : α} {out : List α} :
      d.read s = .ok (some a, s') → Drains d s' out s'' → Drains d s (a :: out) s''

/-- Pushing chunks one after the other, and draining after each. -/
inductive Run (d : Decoder α β σ ε) : σ → List (List β) → List α → σ → Prop
  | nil (s : σ) : Run d s [] [] s
  | chunk {s s₁ s₂ s₃ : σ} {c : List β} {cs : List (List β)} {out outs : List α} :
      d.push s c = .ok s₁ → Drains d s₁ out s₂ → Run d s₂ cs outs s₃ →
      Run d s (c :: cs) (out ++ outs) s₃

theorem Drains.unique {d : Decoder α β σ ε} {s s' t' : σ} {out out' : List α}
    (h : Drains d s out s') (h' : Drains d s out' t') : out = out' ∧ s' = t' := by
  induction h generalizing out' t' with
  | done hread =>
    cases h' with
    | done hread' =>
      obtain ⟨-, rfl⟩ := Prod.mk.inj (Except.ok.inj (hread.symm.trans hread'))
      exact ⟨rfl, rfl⟩
    | item hread' =>
      have hne := Prod.mk.inj (Except.ok.inj (hread.symm.trans hread'))
      cases hne.1
  | item hread _ ih =>
    cases h' with
    | done hread' =>
      have hne := Prod.mk.inj (Except.ok.inj (hread.symm.trans hread'))
      cases hne.1
    | item hread' hrest =>
      obtain ⟨hitem, rfl⟩ := Prod.mk.inj (Except.ok.inj (hread.symm.trans hread'))
      obtain ⟨rfl, rfl⟩ := ih hrest
      exact ⟨by rw [Option.some.inj hitem], rfl⟩

/-- What comes out of a run is determined by what goes in. -/
theorem Run.unique {d : Decoder α β σ ε} {s s' t' : σ} {chunks : List (List β)} {out out' : List α}
    (h : Run d s chunks out s') (h' : Run d s chunks out' t') : out = out' ∧ s' = t' := by
  induction h generalizing out' t' with
  | nil s =>
    cases h'
    exact ⟨rfl, rfl⟩
  | chunk hpush hdrain _ ih =>
    cases h' with
    | chunk hpush' hdrain' hrest =>
      obtain rfl := Except.ok.inj (hpush.symm.trans hpush')
      obtain ⟨rfl, rfl⟩ := hdrain.unique hdrain'
      obtain ⟨rfl, rfl⟩ := ih hrest
      exact ⟨rfl, rfl⟩

/-- The laws of a decoder for the encoding `enc` of the `valid` items. -/
structure Laws (d : Decoder α β σ ε) (inv : σ → Prop) (rest : σ → List β)
    (valid : α → Prop) (enc : α → List β) : Prop where
  /-- A chunk goes in at the end. -/
  push {s : σ} (c : List β) : inv s → ∃ s', d.push s c = .ok s' ∧ inv s' ∧ rest s' = rest s ++ c
  /-- An item comes out once all of it is there. -/
  item {s : σ} {a : α} {t : List β} : inv s → valid a → rest s = enc a ++ t →
    ∃ s', d.read s = .ok (some a, s') ∧ inv s' ∧ rest s' = t
  /-- Part of an item waits. -/
  wait {s : σ} {a : α} {t : List β} : inv s → valid a → t ≠ [] → rest s ++ t = enc a →
    ∃ s', d.read s = .ok (none, s') ∧ inv s' ∧ rest s' = rest s
  /-- Nothing comes out of nothing. -/
  idle {s : σ} : inv s → rest s = [] → ∃ s', d.read s = .ok (none, s') ∧ inv s' ∧ rest s' = []

variable {d : Decoder α β σ ε} {inv : σ → Prop} {rest : σ → List β} {valid : α → Prop}
  {enc : α → List β}

/-- The first of the items still to come is not there in full. -/
def Short (enc : α → List β) (bs : List β) (items : List α) : Prop :=
  ∀ a ∈ items.head?, bs.length < (enc a).length

/-- Draining hands out every full item and leaves the start of the others. -/
theorem Laws.drain (h : Laws d inv rest valid enc) {s : σ} (hs : inv s) {items : List α}
    (hvalid : ∀ a ∈ items, valid a) {future : List β}
    (hstream : rest s ++ future = items.flatMap enc) :
    ∃ out items' s', Drains d s out s' ∧ items = out ++ items' ∧ inv s' ∧
      rest s' ++ future = items'.flatMap enc ∧ Short enc (rest s') items' := by
  induction items generalizing s with
  | nil =>
    have hrest : rest s = [] := (List.append_eq_nil_iff.mp hstream).1
    obtain ⟨s', hread, hinv, hrest'⟩ := h.idle hs hrest
    refine ⟨[], [], s', .done hread, rfl, hinv, ?_, fun a ha => by cases ha⟩
    rw [hrest', ← hstream, hrest]
  | cons a items ih =>
    have ha := hvalid a List.mem_cons_self
    rw [List.flatMap_cons] at hstream
    rcases Nat.lt_or_ge (rest s).length (enc a).length with hlt | hge
    · -- the first item is not there in full: its missing part is still to come
      have hsplit : rest s ++ (enc a).drop (rest s).length = enc a := by
        have htake := congrArg (List.take (rest s).length) hstream
        rw [List.take_left' rfl, List.take_append_of_le_length hlt.le] at htake
        conv_lhs => rw [htake]
        rw [List.length_take_of_le hlt.le]
        exact List.take_append_drop _ _
      have hne : (enc a).drop (rest s).length ≠ [] := by
        rw [Ne, List.drop_eq_nil_iff]
        omega
      obtain ⟨s', hread, hinv, hrest⟩ := h.wait hs ha hne hsplit
      refine ⟨[], a :: items, s', .done hread, rfl, hinv, ?_, ?_⟩
      · rw [hrest, List.flatMap_cons, hstream]
      · intro b hb
        obtain rfl := Option.some.inj hb
        rwa [hrest]
    · -- the first item is there in full
      have htake := congrArg (List.take (enc a).length) hstream
      have hdrop := congrArg (List.drop (enc a).length) hstream
      rw [List.take_append_of_le_length hge, List.take_left' rfl] at htake
      rw [List.drop_append_of_le_length hge, List.drop_left' rfl] at hdrop
      have hsplit : rest s = enc a ++ (rest s).drop (enc a).length := by
        conv_lhs => rw [← List.take_append_drop (enc a).length (rest s), htake]
      obtain ⟨s', hread, hinv, hrest⟩ := h.item hs ha hsplit
      obtain ⟨out, items', s'', hdrain, rfl, hinv', hrest', hshort⟩ :=
        ih hinv (fun b hb => hvalid b (List.mem_cons_of_mem a hb)) (by rw [hrest, hdrop])
      exact ⟨a :: out, items', s'', .item hread hdrain, rfl, hinv', hrest', hshort⟩

/-- A run over the start of a stream hands out the full items and leaves the rest. -/
theorem Laws.run (h : Laws d inv rest valid enc) {s : σ} (hs : inv s) {items : List α}
    (hvalid : ∀ a ∈ items, valid a) {chunks : List (List β)} {future : List β}
    (hstream : rest s ++ (chunks.flatten ++ future) = items.flatMap enc)
    (hshort : Short enc (rest s) items) :
    ∃ out items' s', Run d s chunks out s' ∧ items = out ++ items' ∧ inv s' ∧
      rest s' ++ future = items'.flatMap enc ∧ Short enc (rest s') items' := by
  induction chunks generalizing s items with
  | nil => exact ⟨[], items, s, .nil s, rfl, hs, hstream, hshort⟩
  | cons c cs ih =>
    obtain ⟨s₁, hpush, hinv₁, hrest₁⟩ := h.push c hs
    have hstream₁ : rest s₁ ++ (cs.flatten ++ future) = items.flatMap enc := by
      rw [← hstream, hrest₁, List.flatten_cons, List.append_assoc, List.append_assoc]
    obtain ⟨out, items₁, s₂, hdrain, rfl, hinv₂, hrest₂, hshort₂⟩ := h.drain hinv₁ hvalid hstream₁
    obtain ⟨outs, items₂, s₃, hrun, rfl, hinv₃, hrest₃, hshort₃⟩ :=
      ih hinv₂ (fun a ha => hvalid a (List.mem_append_right out ha)) hrest₂ hshort₂
    exact ⟨out ++ outs, items₂, s₃, .chunk hpush hdrain hrun, (List.append_assoc ..).symm, hinv₃,
      hrest₃, hshort₃⟩

/-- However a stream is cut, exactly its items come out, and nothing is left. -/
theorem Laws.run_encoded (h : Laws d inv rest valid enc) (hne : ∀ a, valid a → enc a ≠ [])
    {s : σ} (hs : inv s) (hrest : rest s = []) {items : List α} (hvalid : ∀ a ∈ items, valid a)
    {chunks : List (List β)} (hchunks : chunks.flatten = items.flatMap enc) :
    ∃ s', Run d s chunks items s' ∧ inv s' ∧ rest s' = [] := by
  have hshort : Short enc (rest s) items := by
    intro a ha
    rw [hrest]
    exact List.length_pos_iff.mpr (hne a (hvalid a (List.mem_of_mem_head? ha)))
  have hstream : rest s ++ (chunks.flatten ++ []) = items.flatMap enc := by
    rw [hrest, List.append_nil, List.nil_append, hchunks]
  obtain ⟨out, items', s', hrun, rfl, hinv, hrest', hshort'⟩ :=
    h.run hs hvalid hstream hshort
  rw [List.append_nil] at hrest'
  cases items' with
  | nil => exact ⟨s', by rwa [List.append_nil], hinv, hrest'⟩
  | cons a items' =>
    -- an item left over would be there in full
    have hlt := hshort' a rfl
    rw [hrest', List.flatMap_cons, List.length_append] at hlt
    omega

/-- However the start of a stream is cut, its full items come out of it. -/
theorem Laws.run_prefix (h : Laws d inv rest valid enc) (hne : ∀ a, valid a → enc a ≠ [])
    {s : σ} (hs : inv s) (hrest : rest s = []) {items : List α} (hvalid : ∀ a ∈ items, valid a)
    {chunks : List (List β)} (hchunks : chunks.flatten <+: items.flatMap enc) :
    ∃ out s', Run d s chunks out s' ∧ inv s' ∧ out <+: items ∧
      chunks.flatten = out.flatMap enc ++ rest s' := by
  obtain ⟨future, hfuture⟩ := hchunks
  have hshort : Short enc (rest s) items := by
    intro a ha
    rw [hrest]
    exact List.length_pos_iff.mpr (hne a (hvalid a (List.mem_of_mem_head? ha)))
  obtain ⟨out, items', s', hrun, rfl, hinv, hrest', -⟩ :=
    h.run hs hvalid (by rw [hrest, List.nil_append, hfuture]) hshort
  refine ⟨out, s', hrun, hinv, List.prefix_append out items', ?_⟩
  rw [List.flatMap_append, ← hrest', ← List.append_assoc] at hfuture
  exact List.append_cancel_right hfuture

end Incremental
