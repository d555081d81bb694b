import Mathlib.Data.List.AList

/-!
# Maps in insertion order

A finite map that remembers the order its keys came in: writing a key it has keeps its
place, and a new key comes last. It is Mathlib's association list, whose front is its
newest key, with the write that keeps places. `countP_eq` counts values by taking one key
out, which both writes leave alone.
-/

abbrev OrderedMap (α β : Type*) := AList fun _ : α => β

namespace OrderedMap

variable {α β : Type*} [DecidableEq α]

def set (m : OrderedMap α β) (a : α) (b : β) : OrderedMap α β :=
  if a ∈ m then m.replace a b else m.insert a b

def delete (m : OrderedMap α β) (a : α) : OrderedMap α β := m.erase a

def pairs (m : OrderedMap α β) : List (α × β) := m.entries.reverse.map fun e => (e.1, e.2)

def merge (m m' : OrderedMap α β) : OrderedMap α β :=
  m'.pairs.foldl (fun merged p => merged.set p.1 p.2) m

def countP (p : β → Bool) (m : OrderedMap α β) : Nat := m.entries.countP fun e => p e.2

/-- Write a key that is new; one that is there keeps its value. -/
def insertNew (m : OrderedMap α β) (a : α) (b : β) : OrderedMap α β :=
  if a ∈ m then m else m.insert a b

/-- The map of a list of pairs, of which the first with a key counts. -/
def ofFirst (ps : List (α × β)) : OrderedMap α β := ps.foldl (fun m p => m.insertNew p.1 p.2) ∅

def map {γ : Type*} (f : β → γ) (m : OrderedMap α β) : OrderedMap α γ :=
  ⟨m.entries.map fun e => ⟨e.1, f e.2⟩, by
    have hkeys : (m.entries.map fun e => (⟨e.1, f e.2⟩ : Σ _ : α, γ)).keys = m.entries.keys :=
      List.map_map
    rw [List.NodupKeys, hkeys]
    exact m.nodupKeys⟩

/-- The part of the map whose keys have the property. -/
def restrict (q : α → Bool) (m : OrderedMap α β) : OrderedMap α β :=
  ⟨m.entries.filter fun e => q e.1,
    m.nodupKeys.sublist List.filter_sublist⟩

variable {m : OrderedMap α β} {a a' : α} {b : β} {p : β → Bool}

theorem mem_pairs : (a, b) ∈ m.pairs ↔ m.lookup a = some b := by
  rw [← Option.mem_def, AList.mem_lookup_iff, pairs, List.mem_map]
  constructor
  · rintro ⟨e, he, hpair⟩
    obtain ⟨rfl, rfl⟩ := Prod.mk.inj hpair
    exact List.mem_reverse.mp he
  · intro h
    exact ⟨⟨a, b⟩, List.mem_reverse.mpr h, rfl⟩

omit [DecidableEq α] in
theorem nodup_pairs (m : OrderedMap α β) : (m.pairs.map Prod.fst).Nodup := by
  have hkeys : m.pairs.map Prod.fst = m.keys.reverse := by
    rw [pairs, List.map_map, List.map_reverse]
    rfl
  rw [hkeys]
  exact List.nodup_reverse.mpr m.keys_nodup

/-! ## Reading after writing -/

theorem kreplace_cons (e : Σ _ : α, β) (l : List (Σ _ : α, β)) (a : α) (b : β) :
    (e :: l).kreplace a b = if a = e.1 then ⟨a, b⟩ :: l else e :: l.kreplace a b := by
  split
  · rename_i h
    exact List.lookmap_cons_some _ l (if_pos h)
  · rename_i h
    exact List.lookmap_cons_none _ l (if_neg h)

theorem dlookup_kreplace {l : List (Σ _ : α, β)} (h : a ∈ l.keys) :
    (l.kreplace a b).dlookup a' = if a' = a then some b else l.dlookup a' := by
  induction l with
  | nil => cases h
  | cons e l ih =>
    obtain ⟨x, y⟩ := e
    by_cases hx : a = x
    · subst hx
      rw [kreplace_cons, if_pos rfl]
      by_cases ha : a' = a
      · subst ha
        rw [if_pos rfl, List.dlookup_cons_eq]
      · rw [if_neg ha, List.dlookup_cons_ne _ _ ha, List.dlookup_cons_ne _ _ ha]
    · have hmem : a ∈ l.keys := by
        rw [List.keys_cons, List.mem_cons] at h
        exact h.resolve_left hx
      rw [kreplace_cons, if_neg hx]
      by_cases ha : a' = x
      · subst ha
        rw [List.dlookup_cons_eq, List.dlookup_cons_eq, if_neg (Ne.symm hx)]
      · rw [List.dlookup_cons_ne _ _ ha, List.dlookup_cons_ne _ _ ha, ih hmem]

theorem lookup_set (m : OrderedMap α β) (a : α) (b : β) (a' : α) :
    (m.set a b).lookup a' = if a' = a then some b else m.lookup a' := by
  unfold set
  split
  · rename_i h
    exact dlookup_kreplace h
  · split
    · rename_i h
      rw [h, AList.lookup_insert]
    · rename_i h
      rw [AList.lookup_insert_ne h]

theorem lookup_delete (m : OrderedMap α β) (a a' : α) :
    (m.delete a).lookup a' = if a' = a then none else m.lookup a' := by
  unfold delete
  split
  · rename_i h
    rw [h, AList.lookup_erase]
  · rename_i h
    rw [AList.lookup_erase_ne h]

theorem lookup_insertNew (m : OrderedMap α β) (a : α) (b : β) (a' : α) :
    (m.insertNew a b).lookup a' = (m.lookup a').or (if a = a' then some b else none) := by
  unfold insertNew
  by_cases h : a ∈ m
  · rw [if_pos h]
    by_cases ha : a = a'
    · obtain ⟨b', hb'⟩ := Option.isSome_iff_exists.mp (AList.lookup_isSome.mpr h)
      rw [← ha, hb', Option.some_or]
    · rw [if_neg ha, Option.or_none]
  · rw [if_neg h]
    by_cases ha : a = a'
    · rw [← ha, AList.lookup_insert, AList.lookup_eq_none.mpr h, if_pos rfl, Option.none_or]
    · rw [AList.lookup_insert_ne (Ne.symm ha), if_neg ha, Option.or_none]

theorem lookup_ofFirst (ps : List (α × β)) (a : α) :
    (ofFirst ps).lookup a = (ps.find? fun p => p.1 = a).map Prod.snd := by
  have hfold (m : OrderedMap α β) : (ps.foldl (fun m p => m.insertNew p.1 p.2) m).lookup a =
      (m.lookup a).or ((ps.find? fun p => p.1 = a).map Prod.snd) := by
    induction ps generalizing m with
    | nil => rw [List.foldl_nil, List.find?_nil, Option.map_none, Option.or_none]
    | cons p ps ih =>
      rw [List.foldl_cons, ih, lookup_insertNew, Option.or_assoc, List.find?_cons]
      by_cases ha : p.1 = a
      · rw [if_pos ha, decide_eq_true ha]
        rfl
      · rw [if_neg ha, decide_eq_false ha, Option.none_or]
  rw [ofFirst, hfold, AList.lookup_empty, Option.none_or]

theorem mem_iff : a ∈ m ↔ ∃ b, m.lookup a = some b := by
  rw [← AList.lookup_isSome, Option.isSome_iff_exists]

theorem lookup_foldl_set_of_notMem {ps : List (α × β)} (h : a ∉ ps.map Prod.fst)
    (m : OrderedMap α β) : (ps.foldl (fun merged p => merged.set p.1 p.2) m).lookup a = m.lookup a := by
  induction ps generalizing m with
  | nil => rfl
  | cons p ps ih =>
    rw [List.map_cons, List.mem_cons, not_or] at h
    rw [List.foldl_cons, ih h.2, lookup_set, if_neg h.1]

theorem lookup_foldl_set_of_mem {ps : List (α × β)} (hnodup : (ps.map Prod.fst).Nodup)
    (h : (a, b) ∈ ps) (m : OrderedMap α β) :
    (ps.foldl (fun merged p => merged.set p.1 p.2) m).lookup a = some b := by
  induction ps generalizing m with
  | nil => cases h
  | cons p ps ih =>
    rw [List.map_cons, List.nodup_cons] at hnodup
    rw [List.foldl_cons]
    rcases List.mem_cons.mp h with rfl | hrest
    · rw [lookup_foldl_set_of_notMem hnodup.1, lookup_set, if_pos rfl]
    · exact ih hnodup.2 hrest _

theorem lookup_merge (m m' : OrderedMap α β) (a : α) :
    (m.merge m').lookup a = (m'.lookup a).or (m.lookup a) := by
  unfold merge
  cases h : m'.lookup a with
  | none =>
    refine lookup_foldl_set_of_notMem (fun hmem => ?_) m
    obtain ⟨⟨_, b⟩, hpair, rfl⟩ := List.mem_map.mp hmem
    rw [mem_pairs.mp hpair] at h
    cases h
  | some b => exact lookup_foldl_set_of_mem m'.nodup_pairs (mem_pairs.mpr h) m

/-! ## Counting values -/

theorem kerase_cons_self (a : α) (b : β) (l : List (Σ _ : α, β)) :
    List.kerase a ((⟨a, b⟩ : Σ _ : α, β) :: l) = l :=
  List.kerase_cons_eq rfl

theorem kerase_kreplace (l : List (Σ _ : α, β)) (a : α) (b : β) :
    (l.kreplace a b).kerase a = l.kerase a := by
  induction l with
  | nil => rfl
  | cons e l ih =>
    rw [kreplace_cons]
    by_cases h : a = e.1
    · rw [if_pos h, List.kerase_cons_eq h, kerase_cons_self]
    · rw [if_neg h, List.kerase_cons_ne h, List.kerase_cons_ne h, ih]

/-- A write changes one key only. -/
theorem delete_set (m : OrderedMap α β) (a : α) (b : β) : (m.set a b).delete a = m.delete a := by
  unfold set
  split
  · exact AList.ext (kerase_kreplace m.entries a b)
  · refine AList.ext ?_
    change (List.kinsert a b m.entries).kerase a = _
    exact kerase_cons_self a b _

/-- Counting is taking one key out and counting the others. -/
theorem countP_eq (p : β → Bool) (m : OrderedMap α β) (a : α) :
    m.countP p = (m.delete a).countP p + ((m.lookup a).filter p).toList.length := by
  cases h : m.lookup a with
  | none =>
    have hmem : a ∉ m := AList.lookup_eq_none.mp h
    have herase : m.delete a = m := AList.ext (List.kerase_of_notMem_keys hmem)
    rw [herase]
    rfl
  | some b =>
    have hmem : a ∈ m.entries.keys := List.mem_keys.mpr ⟨b, AList.mem_lookup_iff.mp h⟩
    obtain ⟨b', l₁, l₂, hnot, hsplit, herase⟩ := List.exists_of_kerase hmem
    -- the value found is the one taken out
    have hlookup : m.entries.dlookup a = some b' := by
      rw [hsplit, List.dlookup_append, List.dlookup_eq_none.mpr hnot, List.dlookup_cons_eq]
      rfl
    obtain rfl : b = b' := Option.some.inj (h.symm.trans hlookup)
    change m.entries.countP _ = (m.entries.kerase a).countP _ + _
    rw [herase, hsplit, List.countP_append, List.countP_append, List.countP_cons, Option.filter_some]
    dsimp only
    cases p b <;> simp [Nat.add_assoc]

theorem countP_of_lookup (p : β → Bool) (h : m.lookup a = some b) :
    m.countP p = (m.delete a).countP p + (p b).toNat := by
  rw [countP_eq p m a, h, Option.filter_some]
  cases p b <;> rfl

theorem countP_set (p : β → Bool) (m : OrderedMap α β) (a : α) (b : β) :
    (m.set a b).countP p = (m.delete a).countP p + (p b).toNat := by
  rw [← delete_set m a b]
  exact countP_of_lookup p (by rw [lookup_set, if_pos rfl])

/-! ## Parts of a map -/

section

variable {q : α → Bool}

theorem lookup_restrict (q : α → Bool) (m : OrderedMap α β) (a : α) :
    (m.restrict q).lookup a = if q a then m.lookup a else none := by
  refine Option.ext fun b => ?_
  rw [← Option.mem_def, AList.mem_lookup_iff]
  change ⟨a, b⟩ ∈ m.entries.filter (fun e => q e.1) ↔ _
  rw [List.mem_filter, ← AList.mem_lookup_iff, Option.mem_def]
  split
  · rename_i h
    exact ⟨And.left, fun hmem => ⟨hmem, h⟩⟩
  · rename_i h
    exact ⟨fun hmem => absurd hmem.2 h, nofun⟩

omit [DecidableEq α] in
theorem pairs_restrict (q : α → Bool) (m : OrderedMap α β) :
    (m.restrict q).pairs = m.pairs.filter fun e => q e.1 := by
  change ((m.entries.filter fun e => q e.1).reverse.map fun e => (e.1, e.2)) = _
  rw [pairs, List.filter_map, ← List.filter_reverse]
  rfl

omit [DecidableEq α] in
theorem notMem_keys_filter (l : List (Σ _ : α, β)) (h : ¬q a) : a ∉ (l.filter fun e => q e.1).keys := by
  rw [List.notMem_keys]
  intro b hmem
  exact h (List.mem_filter.mp hmem).2

omit [DecidableEq α] in
theorem keep_cons {e : Σ _ : α, β} {l : List (Σ _ : α, β)} (h : q e.1) :
    (e :: l).filter (fun e => q e.1) = e :: l.filter fun e => q e.1 :=
  List.filter_cons_of_pos h

omit [DecidableEq α] in
theorem drop_cons {e : Σ _ : α, β} {l : List (Σ _ : α, β)} (h : ¬q e.1) :
    (e :: l).filter (fun e => q e.1) = l.filter fun e => q e.1 :=
  List.filter_cons_of_neg h

theorem filter_kreplace (l : List (Σ _ : α, β)) (a : α) (b : β) :
    (l.kreplace a b).filter (fun e => q e.1) = (l.filter fun e => q e.1).kreplace a b := by
  induction l with
  | nil => rfl
  | cons e l ih =>
    rw [kreplace_cons]
    by_cases hq : q e.1
    · rw [keep_cons hq, kreplace_cons]
      split
      · rename_i h
        exact keep_cons (by rw [h]; exact hq)
      · rw [keep_cons hq, ih]
    · rw [drop_cons hq]
      split
      · rename_i h
        -- The key is not among those that stay, so nothing is replaced there.
        subst h
        have hdrop : ((⟨e.1, b⟩ : Σ _ : α, β) :: l).filter (fun e => q e.1) =
            l.filter fun e => q e.1 := drop_cons hq
        rw [hdrop]
        exact (List.kreplace_of_forall_not _ b
          (List.notMem_keys.mp (notMem_keys_filter l hq))).symm
      · rw [drop_cons hq, ih]

theorem filter_kerase (l : List (Σ _ : α, β)) (a : α) :
    (l.kerase a).filter (fun e => q e.1) = (l.filter fun e => q e.1).kerase a := by
  induction l with
  | nil => rfl
  | cons e l ih =>
    by_cases hq : q e.1
    · rw [keep_cons hq]
      by_cases h : a = e.1
      · rw [List.kerase_cons_eq h, List.kerase_cons_eq h]
      · rw [List.kerase_cons_ne h, List.kerase_cons_ne h, keep_cons hq, ih]
    · rw [drop_cons hq]
      by_cases h : a = e.1
      · rw [List.kerase_cons_eq h, List.kerase_of_notMem_keys (notMem_keys_filter l (h ▸ hq))]
      · rw [List.kerase_cons_ne h, drop_cons hq, ih]

theorem restrict_set_of_mem (m : OrderedMap α β) (h : q a) (b : β) :
    (m.set a b).restrict q = (m.restrict q).set a b := by
  have hmem : a ∈ m.restrict q ↔ a ∈ m := by
    rw [← AList.lookup_isSome, ← AList.lookup_isSome, lookup_restrict, if_pos h]
  unfold set
  by_cases ha : a ∈ m
  · rw [if_pos ha, if_pos (hmem.mpr ha)]
    exact AList.ext (filter_kreplace m.entries a b)
  · rw [if_neg ha, if_neg (mt hmem.mp ha)]
    refine AList.ext ?_
    change (⟨a, b⟩ :: m.entries.kerase a).filter (fun e => q e.1) =
      ⟨a, b⟩ :: (m.entries.filter fun e => q e.1).kerase a
    rw [keep_cons h, filter_kerase]

theorem restrict_set_of_notMem (m : OrderedMap α β) (h : ¬q a) (b : β) :
    (m.set a b).restrict q = m.restrict q := by
  have hsame : (m.entries.filter fun e => q e.1).kerase a = m.entries.filter fun e => q e.1 :=
    List.kerase_of_notMem_keys (notMem_keys_filter m.entries h)
  unfold set
  split
  · refine AList.ext ((filter_kreplace m.entries a b).trans ?_)
    exact List.kreplace_of_forall_not a b (List.notMem_keys.mp (notMem_keys_filter m.entries h))
  · refine AList.ext ?_
    change (⟨a, b⟩ :: m.entries.kerase a).filter (fun e => q e.1) = m.entries.filter fun e => q e.1
    rw [drop_cons h, filter_kerase, hsame]

omit [DecidableEq α] in
theorem countP_restrict_le (p : β → Bool) (q : α → Bool) (m : OrderedMap α β) :
    (m.restrict q).countP p ≤ m.countP p :=
  List.Sublist.countP_le List.filter_sublist

theorem restrict_delete (q : α → Bool) (m : OrderedMap α β) (a : α) :
    (m.delete a).restrict q = (m.restrict q).delete a :=
  AList.ext (filter_kerase m.entries a)

theorem restrict_delete_of_notMem (m : OrderedMap α β) (h : ¬q a) :
    (m.delete a).restrict q = m.restrict q := by
  rw [restrict_delete]
  exact AList.ext (List.kerase_of_notMem_keys (notMem_keys_filter m.entries h))

end

/-! ## Functions on the values -/

section

variable {γ : Type*} {f : β → γ}

theorem lookup_map (f : β → γ) (m : OrderedMap α β) (a : α) : (m.map f).lookup a = (m.lookup a).map f := by
  change (m.entries.map fun e => (⟨e.1, f e.2⟩ : Σ _ : α, γ)).dlookup a = (m.entries.dlookup a).map f
  induction m.entries with
  | nil => rfl
  | cons e l ih =>
    obtain ⟨x, b⟩ := e
    rw [List.map_cons]
    by_cases h : a = x
    · subst h
      rw [List.dlookup_cons_eq, List.dlookup_cons_eq, Option.map_some]
    · rw [List.dlookup_cons_ne _ _ h, List.dlookup_cons_ne _ _ h, ih]

omit [DecidableEq α] in
theorem pairs_map (f : β → γ) (m : OrderedMap α β) :
    (m.map f).pairs = m.pairs.map fun p => (p.1, f p.2) := by
  change ((m.entries.map _).reverse.map _) = (m.entries.reverse.map _).map _
  rw [← List.map_reverse, List.map_map, List.map_map]
  rfl

omit [DecidableEq α] in
theorem countP_map (p : γ → Bool) (f : β → γ) (m : OrderedMap α β) :
    (m.map f).countP p = m.countP (p ∘ f) := by
  change (m.entries.map _).countP _ = _
  rw [List.countP_map]
  rfl

theorem mem_map : a ∈ m.map f ↔ a ∈ m := by
  rw [← AList.lookup_isSome, ← AList.lookup_isSome, lookup_map, Option.isSome_map]

theorem map_kerase (f : β → γ) (l : List (Σ _ : α, β)) (a : α) :
    (l.kerase a).map (fun e => (⟨e.1, f e.2⟩ : Σ _ : α, γ)) =
      (l.map fun e => (⟨e.1, f e.2⟩ : Σ _ : α, γ)).kerase a := by
  induction l with
  | nil => rfl
  | cons e l ih =>
    obtain ⟨x, b⟩ := e
    rw [List.map_cons]
    by_cases h : a = x
    · subst h
      rw [kerase_cons_self, kerase_cons_self]
    · have hcons : ((⟨x, f b⟩ : Σ _ : α, γ) :: l.map fun e => ⟨e.1, f e.2⟩).kerase a = _ :=
        List.kerase_cons_ne h
      rw [hcons, List.kerase_cons_ne h, List.map_cons, ih]

theorem map_delete (f : β → γ) (m : OrderedMap α β) (a : α) : (m.delete a).map f = (m.map f).delete a :=
  AList.ext (map_kerase f m.entries a)

theorem map_set (f : β → γ) (m : OrderedMap α β) (a : α) (b : β) :
    (m.set a b).map f = (m.map f).set a (f b) := by
  have hreplace (l : List (Σ _ : α, β)) :
      (l.kreplace a b).map (fun e => (⟨e.1, f e.2⟩ : Σ _ : α, γ)) =
        (l.map fun e => (⟨e.1, f e.2⟩ : Σ _ : α, γ)).kreplace a (f b) := by
    induction l with
    | nil => rfl
    | cons e l ih =>
      rw [List.map_cons, kreplace_cons, kreplace_cons]
      split
      · rfl
      · rw [List.map_cons, ih]
  unfold set
  by_cases h : a ∈ m
  · rw [if_pos h, if_pos (mem_map.mpr h)]
    exact AList.ext (hreplace m.entries)
  · rw [if_neg h, if_neg (mt mem_map.mp h)]
    refine AList.ext ?_
    exact congrArg (List.cons _) (map_kerase f m.entries a)

theorem map_congr {g : β → γ} (h : ∀ a b, m.lookup a = some b → f b = g b) : m.map f = m.map g := by
  refine AList.ext (List.map_congr_left fun e he => ?_)
  rw [h e.1 e.2 (AList.mem_lookup_iff.mpr he)]

end

/-! ## The list of pairs -/

theorem pairs_delete (m : OrderedMap α β) (a : α) :
    (m.delete a).pairs = m.pairs.filter fun p => p.1 ≠ a := by
  have herase : ∀ l : List (Σ _ : α, β), l.NodupKeys → l.kerase a = l.filter fun e => e.1 ≠ a := by
    intro l hnodup
    induction l with
    | nil => rfl
    | cons e l ih =>
      obtain ⟨hnot, hrest⟩ := List.nodupKeys_cons.mp hnodup
      rw [List.filter_cons]
      by_cases h : a = e.1
      · subst h
        rw [List.kerase_cons_eq rfl, if_neg (fun hne => (decide_eq_true_iff.mp hne) rfl)]
        have hother : ∀ e' ∈ l, e'.1 ≠ e.1 := fun e' he' heq => hnot (heq ▸ List.mem_keys_of_mem he')
        exact (List.filter_eq_self.mpr fun e' he' => decide_eq_true (hother e' he')).symm
      · rw [List.kerase_cons_ne h, if_pos (decide_eq_true (Ne.symm h)), ih hrest]
  change (m.entries.kerase a).reverse.map _ = (m.entries.reverse.map _).filter _
  rw [herase m.entries m.nodupKeys, ← List.filter_reverse, List.filter_map]
  rfl

theorem pairs_set_of_mem (h : a ∈ m) (b : β) :
    (m.set a b).pairs = m.pairs.map fun p => if p.1 = a then (p.1, b) else p := by
  have hreplace : ∀ l : List (Σ _ : α, β), l.NodupKeys →
      l.kreplace a b = l.map fun e => if e.1 = a then (⟨e.1, b⟩ : Σ _ : α, β) else e := by
    intro l hnodup
    induction l with
    | nil => rfl
    | cons e l ih =>
      obtain ⟨hnot, hrest⟩ := List.nodupKeys_cons.mp hnodup
      rw [kreplace_cons, List.map_cons]
      by_cases ha : a = e.1
      · subst ha
        rw [if_pos rfl, if_pos rfl]
        have hsame : ∀ e' ∈ l, (if e'.1 = e.1 then (⟨e'.1, b⟩ : Σ _ : α, β) else e') = e' :=
          fun e' he' => if_neg fun heq : e'.1 = e.1 => hnot (heq ▸ List.mem_keys_of_mem he')
        rw [List.map_congr_left hsame, List.map_id']
      · rw [if_neg ha, if_neg (Ne.symm ha), ih hrest]
  rw [set, if_pos h]
  change (m.entries.kreplace a b).reverse.map _ = (m.entries.reverse.map _).map _
  rw [hreplace m.entries m.nodupKeys, ← List.map_reverse, List.map_map, List.map_map]
  refine List.map_congr_left fun e _ => ?_
  rw [Function.comp_apply, Function.comp_apply]
  split <;> rfl

theorem pairs_set_of_notMem (h : a ∉ m) (b : β) : (m.set a b).pairs = m.pairs ++ [(a, b)] := by
  rw [set, if_neg h]
  change (List.kinsert a b m.entries).reverse.map _ = m.entries.reverse.map _ ++ _
  rw [List.kinsert, List.kerase_of_notMem_keys h, List.reverse_cons, List.map_append]
  rfl

end OrderedMap
