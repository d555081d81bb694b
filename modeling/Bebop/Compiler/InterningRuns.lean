import Bebop.Compiler.Interning

/-!
# Bebop — handles and strings

The list of the strings interned so far is what a table stands for (`Holds`). A call looks its
string up in the list and appends it if it is not there, so a handle is a place in a list that
only grows: handles are equal exactly where the strings are, and lead to their bytes for good
(`handles_identify`).
-/

namespace Bebop.Compiler.Interning

open Region Transition Arena

variable {M : Type} {map : Internmap M} {hash : List UInt8 → UInt64} {host : Host}

/-! ## Chains -/

/-- The slot of the first string with this hash behind the first `i` strings. -/
def following (hash : List UInt8 → UInt64) (contents : List (List UInt8)) (key : UInt64) (i : Nat) : Option Nat :=
  ((contents.drop i).findIdx? fun str => hash str = key).map (i + · + 1)

theorem following_append {contents : List (List UInt8)} {i : Nat} (hi : i ≤ contents.length) (str : List UInt8) (key : UInt64) :
    following hash (contents ++ [str]) key i =
      (following hash contents key i).or (if hash str = key then some (contents.length + 1) else none) := by
  unfold following
  rw [List.drop_append_of_le_length hi, List.findIdx?_append]
  cases (contents.drop i).findIdx? fun str => hash str = key with
  | some j => rfl
  | none =>
    by_cases hkey : hash str = key
    · simp [hkey, Nat.add_sub_cancel' hi]
    · simp [hkey]

theorem following_eq_some {contents : List (List UInt8)} {key : UInt64} {i n : Nat} (h : following hash contents key i = some n) :
    ∃ j str, n = j + 1 ∧ i ≤ j ∧ contents[j]? = some str ∧ hash str = key := by
  obtain ⟨j, hfind, rfl⟩ := Option.map_eq_some_iff.mp h
  obtain ⟨hj, hmatch, -⟩ := List.findIdx?_eq_some_iff_getElem.mp hfind
  refine ⟨i + j, (contents.drop i)[j], rfl, Nat.le_add_right _ _, ?_, of_decide_eq_true hmatch⟩
  rw [← List.getElem?_drop]
  exact List.getElem?_eq_getElem hj

theorem following_of_getElem? (hash : List UInt8 → UInt64) {contents : List (List UInt8)} {i k : Nat} {str : List UInt8} (hik : i ≤ k)
    (hget : contents[k]? = some str) : ∃ j, following hash contents (hash str) i = some (j + 1) ∧ j ≤ k := by
  have hdrop : (contents.drop i)[k - i]? = some str := by
    rw [List.getElem?_drop, Nat.add_sub_cancel' hik]
    exact hget
  unfold following
  cases hfind : (contents.drop i).findIdx? fun str' => hash str' = hash str with
  | none =>
    have hnone := List.findIdx?_eq_none_iff.mp hfind str (List.mem_of_getElem? hdrop)
    exact absurd rfl (of_decide_eq_false hnone)
  | some j =>
    obtain ⟨_, -, hbefore⟩ := List.findIdx?_eq_some_iff_getElem.mp hfind
    refine ⟨i + j, rfl, ?_⟩
    by_contra hlt
    have hk : k - i < j := by omega
    have hskip := hbefore (k - i) hk
    rw [(List.getElem?_eq_some_iff.mp hdrop).2] at hskip
    exact hskip (decide_eq_true rfl)

/-- The last slot with the hash, or none of the slots. -/
def EndOf (hash : List UInt8 → UInt64) (contents : List (List UInt8)) (key : UInt64) (chainTail : Nat) : Prop :=
  (chainTail = 0 ∧ following hash contents key 0 = none) ∨ ∃ k str, chainTail = k + 1 ∧ contents[k]? = some str ∧
    hash str = key ∧ following hash contents key (k + 1) = none

theorem EndOf.unique {contents : List (List UInt8)} {chainTail k : Nat} {str : List UInt8} (hget : contents[k]? = some str)
    (h : EndOf hash contents (hash str) chainTail) (hlast : following hash contents (hash str) (k + 1) = none) :
    chainTail = k + 1 := by
  rcases h with ⟨-, hnone⟩ | ⟨t, str', rfl, hget', hstr', hnone⟩
  · obtain ⟨j, hsome, -⟩ := following_of_getElem? hash (Nat.zero_le k) hget
    cases hnone.symm.trans hsome
  · rcases Nat.lt_trichotomy t k with hlt | rfl | hlt
    · obtain ⟨j, hsome, -⟩ := following_of_getElem? hash (Nat.succ_le_of_lt hlt) hget
      cases hnone.symm.trans hsome
    · rfl
    · obtain ⟨j, hsome, -⟩ := following_of_getElem? hash (Nat.succ_le_of_lt hlt) hget'
      rw [hstr'] at hsome
      cases hlast.symm.trans hsome

theorem EndOf.following_succ {contents : List (List UInt8)} {str str' : List UInt8} {chainTail k : Nat}
    (h : EndOf hash contents (hash str) chainTail) (hget : contents[k]? = some str') :
    following hash (contents ++ [str]) (hash str') (k + 1) =
      if chainTail = k + 1 then some (contents.length + 1) else following hash contents (hash str') (k + 1) := by
  have hk := (List.getElem?_eq_some_iff.mp hget).1
  rw [following_append (Nat.succ_le_of_lt hk)]
  by_cases htail : chainTail = k + 1
  · obtain ⟨hzero, -⟩ | ⟨_, str'', ⟨⟩, hget', hstr, hnone⟩ := h
    · cases hzero.symm.trans htail
    · cases htail
      cases hget.symm.trans hget'
      rw [if_pos rfl, hstr, if_pos rfl, hnone]
      rfl
  · rw [if_neg htail]
    cases hfollowing : following hash contents (hash str') (k + 1) with
    | some n => rfl
    | none =>
      have hkey : hash str ≠ hash str' := by
        intro heq
        rw [heq] at h
        exact htail (h.unique hget hfollowing)
      rw [if_neg hkey]
      rfl

theorem EndOf.following_zero {contents : List (List UInt8)} {str : List UInt8} {chainTail : Nat}
    (h : EndOf hash contents (hash str) chainTail) (key : UInt64) : following hash (contents ++ [str]) key 0 =
      if chainTail = 0 ∧ key = hash str then some (contents.length + 1) else following hash contents key 0 := by
  rw [following_append (Nat.zero_le _)]
  by_cases hkey : key = hash str
  · subst hkey
    rw [if_pos rfl]
    obtain ⟨rfl, hnone⟩ | ⟨k, str', rfl, hget, hstr, -⟩ := h
    · rw [hnone, if_pos ⟨rfl, rfl⟩]
      rfl
    · obtain ⟨j, hsome, -⟩ := following_of_getElem? hash (Nat.zero_le k) hget
      rw [← hstr, hsome, if_neg fun hzero => Nat.succ_ne_zero k hzero.1]
      rfl
  · rw [if_neg (Ne.symm hkey), if_neg fun hzero => hkey hzero.2, Option.or_none]

/-! ## What a table stands for -/

/-- A slot has a copy of the string. -/
structure Copied (w : World) (slot : Slot) (str : List UInt8) : Prop where
  length : slot.length = str.length
  live : slot.copy ∈ w.live
  bytes : bytesAt w.memory slot.string str.length = str

/-- The table has interned these strings, in this order. -/
structure Holds (map : Internmap M) (hash : List UInt8 → UInt64) (table : Table M) (contents : List (List UInt8)) : Prop where
  arena : Inv table.arena.arena.chunks table.arena.live
  room : table.slots.length ≤ table.capacity
  capacity : table.capacity < 2 ^ 32
  length : table.slots.length = contents.length + 1
  stored : ∀ k str, contents[k]? = some str → ∃ slot, table.slots[k + 1]? = some slot ∧ Copied table.arena slot str ∧
    slot.next = (following hash contents (hash str) (k + 1)).getD 0
  nodup : contents.Nodup
  found : ∀ key, map.find table.lookup key = following hash contents key 0

variable {table : Table M} {contents : List (List UInt8)}

theorem Copied.matches_iff {w : World} {slot : Slot} {str str' : List UInt8} (h : Copied w slot str') :
    (slot.length = str.length ∧ bytesAt w.memory slot.string str.length = str) ↔ str' = str := by
  constructor
  · rintro ⟨hlength, hbytes⟩
    rw [h.length] at hlength
    rw [← h.bytes, hlength, hbytes]
  · rintro rfl
    exact ⟨h.length, h.bytes⟩

theorem Holds.walk_found (h : Holds map hash table contents) {str str' : List UInt8} {k i fuel : Nat}
    (hget : contents[k]? = some str) (hget' : contents[i]? = some str') (hhash : hash str' = hash str) (hik : i ≤ k)
    (hfuel : k < i + fuel) : walk table str fuel (i + 1) = some (.inl (k + 1)) := by
  induction fuel generalizing i str' with
  | zero => exact absurd hik (Nat.not_le.mpr hfuel)
  | succ fuel ih =>
    obtain ⟨slot, hslot, hcopied, hnext⟩ := h.stored i str' hget'
    unfold walk
    rw [hslot]
    dsimp only [bind, Option.bind]
    by_cases hmatch : str' = str
    · have hk : i = k := by
        have hlt := (List.getElem?_eq_some_iff.mp hget').1
        exact (List.getElem?_inj hlt h.nodup).mp (hget'.trans (hmatch ▸ hget.symm))
      rw [if_pos (hcopied.matches_iff.mpr hmatch), hk]
    · have hlt : i < k := by
        refine Nat.lt_of_le_of_ne hik ?_
        rintro rfl
        exact hmatch (Option.some.inj (hget'.symm.trans hget))
      obtain ⟨j, hfollowing, hjk⟩ := following_of_getElem? hash (Nat.succ_le_of_lt hlt) hget
      obtain ⟨_, str'', ⟨⟩, hij, hget'', hhash''⟩ := following_eq_some hfollowing
      rw [hhash, hfollowing] at hnext
      rw [if_neg (mt hcopied.matches_iff.mp hmatch), hnext, Option.getD_some, if_neg (Nat.succ_ne_zero j)]
      exact ih hget'' hhash'' hjk (by omega)

theorem Holds.walk_end (h : Holds map hash table contents) {str str' : List UInt8} (hnew : str ∉ contents) {i fuel : Nat}
    (hget : contents[i]? = some str') (hhash : hash str' = hash str) (hfuel : contents.length < i + fuel) :
    ∃ chainTail, walk table str fuel (i + 1) = some (.inr chainTail) ∧ EndOf hash contents (hash str) chainTail := by
  induction fuel generalizing i str' with
  | zero => exact absurd (List.getElem?_eq_some_iff.mp hget).1 (Nat.not_lt.mpr (Nat.le_of_lt hfuel))
  | succ fuel ih =>
    obtain ⟨slot, hslot, hcopied, hnext⟩ := h.stored i str' hget
    have hmatch : str' ≠ str := by
      rintro rfl
      exact hnew (List.mem_of_getElem? hget)
    unfold walk
    rw [hslot]
    dsimp only [bind, Option.bind]
    rw [if_neg (mt hcopied.matches_iff.mp hmatch), hnext, hhash]
    cases hfollowing : following hash contents (hash str) (i + 1) with
    | none => exact ⟨i + 1, rfl, .inr ⟨i, str', rfl, hget, hhash, hfollowing⟩⟩
    | some n =>
      obtain ⟨j, str'', rfl, hij, hget', hhash'⟩ := following_eq_some hfollowing
      exact ih hget' hhash' (by omega)

theorem Holds.search_of_getElem? (h : Holds map hash table contents) {str : List UInt8} {k : Nat}
    (hget : contents[k]? = some str) : search map hash table str = some (.inl (k + 1)) := by
  have hk := (List.getElem?_eq_some_iff.mp hget).1
  obtain ⟨j, hfollowing, hjk⟩ := following_of_getElem? hash (Nat.zero_le k) hget
  obtain ⟨_, str', ⟨⟩, -, hget', hhash⟩ := following_eq_some hfollowing
  unfold search
  rw [h.found, hfollowing, h.length]
  exact h.walk_found hget hget' hhash hjk (by omega)

theorem Holds.search_of_not_mem (h : Holds map hash table contents) {str : List UInt8} (hnew : str ∉ contents) :
    ∃ chainTail, search map hash table str = some (.inr chainTail) ∧ EndOf hash contents (hash str) chainTail := by
  unfold search
  rw [h.found, h.length]
  cases hfollowing : following hash contents (hash str) 0 with
  | none => exact ⟨0, rfl, .inl ⟨rfl, hfollowing⟩⟩
  | some n =>
    obtain ⟨j, str', rfl, -, hget, hhash⟩ := following_eq_some hfollowing
    exact h.walk_end hnew hget hhash (by omega)

/-! ## Allocations -/

/-- The regions in use are still in use, with their bytes. -/
def Kept (w w' : World) : Prop :=
  Inv w'.arena.chunks w'.live ∧ ∀ r ∈ w.live, r ∈ w'.live ∧ ∀ i < r.size, w'.memory (r.start + i) = w.memory (r.start + i)

theorem Kept.trans {w w' w'' : World} (h : Kept w w') (h' : Kept w' w'') : Kept w w'' := by
  refine ⟨h'.1, fun r hr => ?_⟩
  obtain ⟨hr', hsame⟩ := h.2 r hr
  obtain ⟨hr'', hsame'⟩ := h'.2 r hr'
  exact ⟨hr'', fun i hi => (hsame' i hi).trans (hsame i hi)⟩

@[simp] theorem length_bytesAt (memory : Nat → UInt8) (ptr len : Nat) : (bytesAt memory ptr len).length = len := by
  simp [bytesAt]

theorem getElem_bytesAt {memory : Nat → UInt8} {ptr len i : Nat} (h : i < (bytesAt memory ptr len).length) :
    (bytesAt memory ptr len)[i] = memory (ptr + i) := by
  simp [bytesAt]

theorem bytesAt_congr {memory memory' : Nat → UInt8} {ptr len : Nat} (h : ∀ i < len, memory' (ptr + i) = memory (ptr + i)) :
    bytesAt memory' ptr len = bytesAt memory ptr len :=
  List.map_congr_left fun i hi => h i (List.mem_range.mp hi)

theorem Copied.keep {w w' : World} {slot : Slot} {str : List UInt8} (h : Copied w slot str)
    (hlive : slot.copy ∈ w'.live) (hsame : ∀ i < slot.copy.size, w'.memory (slot.copy.start + i) = w.memory (slot.copy.start + i)) :
    Copied w' slot str where
  length := h.length
  live := hlive
  bytes := by
    refine Eq.trans (bytesAt_congr fun i hi => hsame i ?_) h.bytes
    show i < slot.length + 1
    rw [h.length]
    exact Nat.lt_succ_of_lt hi

theorem Holds.keep (h : Holds map hash table contents) {w : World} (hkept : Kept table.arena w) {capacity : Nat}
    (hroom : table.slots.length ≤ capacity) (hcapacity : capacity < 2 ^ 32) :
    Holds map hash { table with arena := w, capacity } contents where
  arena := hkept.1
  room := hroom
  capacity := hcapacity
  length := h.length
  stored k str hget := by
    obtain ⟨slot, hslot, hcopied, hnext⟩ := h.stored k str hget
    obtain ⟨hlive, hsame⟩ := hkept.2 slot.copy hcopied.live
    exact ⟨slot, hslot, hcopied.keep hlive hsame, hnext⟩
  nodup := h.nodup
  found := h.found

theorem kept_allocate (hhost : HostLawful host) {w : World} (h : Inv w.arena.chunks w.live) (size : Nat)
    {align : Nat} (halign : IsAlign align) : Kept w (allocate host w size align).1 ∧
      ∀ ptr ∈ (allocate host w size align).2, (allocate host w size align).1.live = ⟨ptr, size⟩ :: w.live := by
  have howned : Owned w (.alloc size align) := halign
  obtain ⟨hinv, hanswers⟩ := h.respond howned (hhost w (.alloc size align))
  refine ⟨⟨hinv, fun r hr => ⟨?_, hanswers.others r hr⟩⟩, hanswers.live⟩
  cases hresult : (allocate host w size align).2 with
  | none =>
    have hsame : (allocate host w size align).1 = w := hanswers.failed hresult
    exact hsame.symm ▸ hr
  | some ptr =>
    have hlive : (allocate host w size align).1.live = _ := hanswers.live ptr hresult
    show r ∈ (allocate host w size align).1.live
    rw [hlive]
    exact List.mem_cons_of_mem _ hr

theorem kept_allocN (hhost : HostLawful host) {w : World} (h : Inv w.arena.chunks w.live) (elemSize n : Nat) {align : Nat}
    (halign : IsAlign align) : Kept w (allocN host w elemSize n align).1 := by
  unfold allocN
  split
  · exact ⟨h, fun r hr => ⟨hr, fun _ _ => rfl⟩⟩
  · exact (kept_allocate hhost h _ halign).1

theorem kept_newArrays (hhost : HostLawful host) {w : World} (h : Inv w.arena.chunks w.live) (capacity : Nat) :
    Kept w (newArrays host w capacity).1 := by
  have hwords : IsAlign 8 := ⟨3, by decide, rfl⟩
  have hhalves : IsAlign 4 := ⟨2, by decide, rfl⟩
  have hstrings := kept_allocN hhost h 8 capacity hwords
  have hhashes := hstrings.trans (kept_allocN hhost hstrings.1 8 capacity hwords)
  have hlengths := hhashes.trans (kept_allocN hhost hhashes.1 4 capacity hhalves)
  exact hlengths.trans (kept_allocN hhost hlengths.1 4 capacity hhalves)

theorem kept_strndup (hhost : HostLawful host) {w : World} (h : Inv w.arena.chunks w.live) (str : List UInt8) :
    Kept w (strndup host w str).1 ∧ ∀ dst ∈ (strndup host w str).2,
      (⟨dst, str.length + 1⟩ : Region) ∈ (strndup host w str).1.live ∧
        bytesAt (strndup host w str).1.memory dst str.length = str := by
  have hbyte : IsAlign 1 := ⟨0, by decide, rfl⟩
  obtain ⟨hkept, hlive⟩ := kept_allocate hhost h (str.length + 1) hbyte
  unfold strndup
  rcases hallocate : allocate host w (str.length + 1) 1 with ⟨w', result⟩
  rw [hallocate] at hkept hlive
  cases result with
  | none =>
    refine ⟨hkept, ?_⟩
    rintro dst ⟨⟩
  | some dst =>
    dsimp only
    have hlive' : w'.live = ⟨dst, str.length + 1⟩ :: w.live := hlive dst rfl
    have hapart := hkept.1.apart
    rw [hlive'] at hapart
    refine ⟨⟨hkept.1, fun r hr => ?_⟩, ?_⟩
    · obtain ⟨hr', hsame⟩ := hkept.2 r hr
      refine ⟨hr', fun i hi => ?_⟩
      have houtside := (List.pairwise_cons.mp hapart).1 r hr
      show overwrite w'.memory ⟨dst, str.length + 1⟩ (fun address => str.getD (address - dst) 0) (r.start + i) = _
      rw [overwrite_outside houtside hi, hsame i hi]
    · rintro _ ⟨⟩
      refine ⟨hlive' ▸ List.mem_cons_self, List.ext_getElem (length_bytesAt _ _ _) fun i hi hi' => ?_⟩
      rw [getElem_bytesAt]
      unfold overwrite
      dsimp only
      rw [if_pos (by omega), Nat.add_sub_cancel_left, List.getD_eq_getElem _ _ hi']

theorem Holds.growIfFull (h : Holds map hash table contents) (hhost : HostLawful host)
    (hdoubles : table.slots.length ≥ table.capacity → table.capacity < 2 ^ 31) :
    ∃ grown ok, growIfFull host table = some (grown, ok) ∧ Holds map hash grown contents ∧
      grown.slots = table.slots ∧ grown.lookup = table.lookup ∧ (ok = true → table.slots.length < grown.capacity) := by
  unfold Interning.growIfFull
  split
  · rename_i hfull
    have hlt := hdoubles hfull
    have hpos : 0 < table.capacity := by
      have hroom := h.room
      have hlength := h.length
      omega
    have hdouble : table.capacity * 2 % 2 ^ 32 = table.capacity * 2 := Nat.mod_eq_of_lt (by omega)
    have hkept := kept_newArrays hhost h.arena (table.capacity * 2)
    have hroom := h.room
    unfold grow
    rw [hdouble]
    rcases harrays : newArrays host table.arena (table.capacity * 2) with ⟨arena, ok⟩
    rw [harrays] at hkept
    dsimp only
    rw [harrays]
    dsimp only
    cases ok with
    | true =>
      rw [if_pos rfl, if_pos (by omega)]
      exact ⟨_, _, rfl, h.keep hkept (by omega) (by omega), rfl, rfl, fun _ => by dsimp only; omega⟩
    | false =>
      rw [if_neg Bool.false_ne_true]
      refine ⟨_, _, rfl, h.keep hkept h.room h.capacity, rfl, rfl, fun htrue => ?_⟩
      cases htrue
  · rename_i hroom
    exact ⟨_, _, rfl, h, rfl, rfl, fun _ => Nat.not_le.mp hroom⟩

/-! ## Calls -/

theorem Holds.append (h : Holds map hash table contents) (hmap : map.Lawful) {str : List UInt8} (hnew : str ∉ contents)
    (hlen : str.length ≤ uint32Max) {copy chainTail : Nat} (hend : EndOf hash contents (hash str) chainTail)
    (hroom : table.slots.length < table.capacity) (hlive : (⟨copy, str.length + 1⟩ : Region) ∈ table.arena.live)
    (hbytes : bytesAt table.arena.memory copy str.length = str) :
    ∃ table', append map hash table str copy chainTail = some (table', contents.length + 1) ∧
      Holds map hash table' (contents ++ [str]) := by
  have hmod : str.length % 2 ^ 32 = str.length := Nat.mod_eq_of_lt (Nat.lt_succ_of_le hlen)
  let slots := table.slots ++ [Slot.mk copy (hash str) str.length 0]
  let slots' := if chainTail ≠ 0 then slots.modify chainTail fun slot => { slot with next := contents.length + 1 } else slots
  let lookup := if chainTail ≠ 0 then table.lookup else map.insert table.lookup (hash str) (contents.length + 1)
  have hslots (k : Nat) : slots'[k + 1]? = (slots[k + 1]?).map fun slot =>
      if chainTail = k + 1 then { slot with next := contents.length + 1 } else slot := by
    by_cases hzero : chainTail ≠ 0
    · unfold slots'
      rw [if_pos hzero, List.getElem?_modify]
      rfl
    · obtain rfl := not_not.mp hzero
      unfold slots'
      rw [if_neg hzero]
      cases slots[k + 1]? <;> rfl
  have hlength : slots'.length = table.slots.length + 1 := by
    unfold slots'
    split <;> simp [slots]
  refine ⟨{ table with slots := slots', lookup }, ?_, h.arena, ?_, h.capacity, ?_, fun k str' hget => ?_, ?_, fun key => ?_⟩
  · unfold Interning.append
    rw [hmod, ← h.length]
    dsimp only
    rw [if_pos hroom]
    by_cases hzero : chainTail ≠ 0
    · rw [if_pos hzero]
      unfold slots' lookup
      rw [if_pos hzero, if_pos hzero, h.length]
    · rw [if_neg hzero]
      unfold slots' lookup
      rw [if_neg hzero, if_neg hzero, h.length]
  · show slots'.length ≤ table.capacity
    rw [hlength]
    exact hroom
  · show slots'.length = _
    rw [hlength, h.length, List.length_append, List.length_singleton]
  · rcases Nat.lt_or_ge k contents.length with hlt | hge
    · rw [List.getElem?_append_left hlt] at hget
      obtain ⟨old, hold, hcopied, hnext⟩ := h.stored k str' hget
      have hslot : slots[k + 1]? = some old :=
        (List.getElem?_append_left (List.getElem?_eq_some_iff.mp hold).1).trans hold
      refine ⟨_, (hslots k).trans (congrArg _ hslot), ?_⟩
      dsimp only
      rw [hend.following_succ hget]
      by_cases htail : chainTail = k + 1
      · rw [if_pos htail, if_pos htail]
        exact ⟨⟨hcopied.length, hcopied.live, hcopied.bytes⟩, rfl⟩
      · rw [if_neg htail, if_neg htail]
        exact ⟨hcopied, hnext⟩
    · rw [List.getElem?_append_right hge] at hget
      obtain ⟨hk, heq⟩ := List.getElem?_eq_some_iff.mp hget
      rw [List.getElem_singleton] at heq
      rw [List.length_singleton] at hk
      obtain rfl : contents.length = k := by omega
      have hslot : slots[contents.length + 1]? = some ⟨copy, hash str, str.length, 0⟩ := by
        rw [← h.length]
        exact List.getElem?_concat_length
      have hold : chainTail ≠ contents.length + 1 := by
        rcases hend with ⟨rfl, -⟩ | ⟨k, _, rfl, hget, -⟩
        · exact (Nat.succ_ne_zero _).symm
        · exact fun heq => Nat.ne_of_lt (List.getElem?_eq_some_iff.mp hget).1 (Nat.succ.inj heq)
      refine ⟨_, (hslots _).trans (congrArg _ hslot), ?_⟩
      dsimp only
      rw [if_neg hold]
      refine ⟨⟨heq ▸ rfl, heq ▸ hlive, heq ▸ hbytes⟩, ?_⟩
      unfold following
      rw [List.drop_eq_nil_of_le (by simp)]
      rfl
  · refine List.nodup_append.mpr ⟨h.nodup, List.nodup_singleton _, ?_⟩
    intro a ha b hb heq
    obtain rfl := List.mem_singleton.mp hb
    exact hnew (heq ▸ ha)
  · rw [hend.following_zero, ← h.found]
    show map.find lookup key = _
    unfold lookup
    rcases hend with ⟨rfl, hnone⟩ | ⟨k, _, rfl, -⟩
    · rw [if_neg (not_not.mpr rfl), hmap.find_insert _ _ _ _ ((h.found _).trans hnone)]
      by_cases hkey : key = hash str
      · rw [if_pos hkey, if_pos ⟨rfl, hkey⟩]
      · rw [if_neg hkey, if_neg fun hzero => hkey hzero.2]
    · rw [if_pos (Nat.succ_ne_zero k), if_neg fun hzero => Nat.succ_ne_zero k hzero.1]

/-- A call leaves a table of the strings so far and the one of the call, whose place it returns. -/
theorem Holds.internN (h : Holds map hash table contents) (hmap : map.Lawful) (hhost : HostLawful host) {str : List UInt8}
    (hlen : str.length ≤ uint32Max)
    (hcan : ∀ chainTail, search map hash table str = some (.inr chainTail) → CanAppend host table str) :
    ∃ table' contents' k, internN map hash host table (some str) = some (table', k + 1) ∧
      Holds map hash table' contents' ∧ contents <+: contents' ∧ contents'[k]? = some str := by
  unfold Interning.internN
  dsimp only
  rw [if_neg (Nat.not_lt.mpr hlen)]
  by_cases hmem : str ∈ contents
  · obtain ⟨k, hget⟩ := List.getElem?_of_mem hmem
    rw [h.search_of_getElem? hget]
    exact ⟨table, contents, k, rfl, h, List.prefix_refl _, hget⟩
  · obtain ⟨chainTail, hsearch, hend⟩ := h.search_of_not_mem hmem
    obtain ⟨hdoubles, hallocates⟩ := hcan _ hsearch
    obtain ⟨grown, ok, hgrow, hgrown, hslots, -, hroom⟩ := h.growIfFull hhost hdoubles
    obtain ⟨rfl, hcopied⟩ := hallocates grown ok hgrow
    obtain ⟨hkept, hcopy⟩ := kept_strndup hhost hgrown.arena str
    rw [hsearch]
    dsimp only [bind, Option.bind]
    rw [hgrow]
    dsimp only
    rw [if_pos rfl]
    rcases hdup : strndup host grown.arena str with ⟨arena, copy⟩
    rw [hdup] at hcopied hkept hcopy
    cases copy with
    | none => cases hcopied
    | some copy =>
      obtain ⟨hlive, hbytes⟩ := hcopy copy rfl
      have hheld := hgrown.keep hkept hgrown.room hgrown.capacity
      obtain ⟨table', happend, hholds⟩ := hheld.append hmap hmem hlen hend (hslots ▸ hroom rfl) hlive hbytes
      exact ⟨table', _, contents.length, happend, hholds, List.prefix_append _ _, List.getElem?_concat_length⟩

theorem internN_long {str : List UInt8} (hlong : uint32Max < str.length) :
    internN map hash host table (some str) = some (table, 0) := by
  unfold Interning.internN
  dsimp only
  rw [if_pos hlong]

/-- What is done elsewhere in the arena leaves the copies. -/
theorem Holds.other (h : Holds map hash table contents) {e : Arena.Event} {arena : World}
    (hstep : Arena.Step table.arena e arena) (hforeign : Foreign table e) : Holds map hash { table with arena } contents where
  arena := h.arena.step hstep
  room := h.room
  capacity := h.capacity
  length := h.length
  stored k str hget := by
    obtain ⟨slot, hslot, hcopied, hnext⟩ := h.stored k str hget
    have hmem : slot ∈ table.slots.tail := by
      refine List.mem_of_getElem? (i := k) ?_
      rw [List.getElem?_tail]
      exact hslot
    refine ⟨slot, hslot, ?_, hnext⟩
    cases hstep with
    | @call call grant howned hgiven =>
      obtain ⟨-, hanswers⟩ := h.arena.respond howned hgiven
      have hothers : slot.copy ∈ others table.arena call := by
        unfold others
        split
        · rename_i ptr oldSize newSize
          exact (List.mem_erase_of_ne (hforeign slot hmem).symm).mpr hcopied.live
        · exact hcopied.live
      refine hcopied.keep ?_ (hanswers.others _ hothers)
      cases hresult : (respond table.arena call grant).2 with
      | none => exact (hanswers.failed hresult).symm ▸ hcopied.live
      | some ptr =>
        rw [hanswers.live ptr hresult]
        exact List.mem_cons_of_mem _ hothers
    | write contents hr hwithin =>
      exact hcopied.keep hcopied.live fun i hi => overwrite_outside (hforeign slot hmem) hi
  nodup := h.nodup
  found := h.found

/-- The handle is the place of the string, or null. -/
def Answered (contents : List (List UInt8)) : Option (List UInt8) → Nat → Prop
  | some str, handle => if str.length ≤ uint32Max then ∃ k, handle = k + 1 ∧ contents[k]? = some str else handle = 0
  | none, handle => handle = 0

theorem Answered.mono {contents' : List (List UInt8)} {str : Option (List UInt8)} {handle : Nat}
    (h : Answered contents str handle) (hgrows : contents <+: contents') : Answered contents' str handle := by
  cases str with
  | none => exact h
  | some str =>
    by_cases hlen : str.length ≤ uint32Max
    · obtain ⟨k, hk, hget⟩ := (if_pos hlen).mp h
      obtain ⟨more, rfl⟩ := hgrows
      refine (if_pos hlen).mpr ⟨k, hk, ?_⟩
      rw [List.getElem?_append_left (List.getElem?_eq_some_iff.mp hget).1]
      exact hget
    · exact (if_neg hlen).mpr ((if_neg hlen).mp h)

theorem Holds.step (h : Holds map hash table contents) (hmap : map.Lawful) {table' : Table M} {e : Event}
    (hstep : Step map hash table e table') (hallowed : Allowed map hash table e) :
    ∃ contents', Holds map hash table' contents' ∧ contents <+: contents' ∧
      ∀ str host handle, e = .intern str host handle → Answered contents' str handle := by
  cases hstep with
  | @intern _ str host handle hhost heq =>
    cases str with
    | none =>
      cases heq
      refine ⟨contents, h, List.prefix_refl _, ?_⟩
      rintro _ _ _ ⟨⟩
      rfl
    | some bytes =>
      by_cases hlen : bytes.length ≤ uint32Max
      · obtain ⟨table'', contents', k, heq', hholds, hgrows, hget⟩ := h.internN hmap hhost hlen (hallowed hlen)
        cases heq.symm.trans heq'
        refine ⟨contents', hholds, hgrows, ?_⟩
        rintro _ _ _ ⟨⟩
        exact (if_pos hlen).mpr ⟨k, rfl, hget⟩
      · cases heq.symm.trans (internN_long (Nat.not_le.mp hlen))
        refine ⟨contents, h, List.prefix_refl _, ?_⟩
        rintro _ _ _ ⟨⟩
        exact (if_neg hlen).mpr rfl
  | other hone hforeign =>
    refine ⟨contents, h.other hone hforeign, List.prefix_refl _, ?_⟩
    rintro _ _ _ ⟨⟩

theorem Holds.run (h : Holds map hash table contents) (hmap : map.Lawful) {table' : Table M} {es : List Event}
    (hrun : Run (Restrict (Step map hash) (Allowed map hash)) table es table') :
    ∃ contents', Holds map hash table' contents' ∧ contents <+: contents' ∧
      ∀ str host handle, .intern str host handle ∈ es → Answered contents' str handle := by
  induction hrun generalizing contents with
  | nil table => exact ⟨contents, h, List.prefix_refl _, fun _ _ _ hmem => absurd hmem List.not_mem_nil⟩
  | cons hone _ ih =>
    obtain ⟨contents₁, hholds₁, hgrows₁, hanswered⟩ := h.step hmap hone.1 hone.2
    obtain ⟨contents₂, hholds₂, hgrows₂, hlater⟩ := ih hholds₁
    refine ⟨contents₂, hholds₂, hgrows₁.trans hgrows₂, fun str host handle hmem => ?_⟩
    rcases List.mem_cons.mp hmem with heq | hmem
    · exact (hanswered str host handle heq.symm).mono hgrows₂
    · exact hlater str host handle hmem

theorem Fresh.holds (h : Fresh map table) (hmap : map.Lawful) : Holds map hash table [] := by
  obtain ⟨w₀, es, w, host, capacity, hfresh, hrun, hhost, hcapacity, hinit⟩ := h
  have hinv : Inv w.arena.chunks w.live :=
    hrun.invariant (I := fun w => Inv w.arena.chunks w.live) (fun _ _ _ hinv hstep => hinv.step hstep) hfresh.inv
  unfold init at hinit
  extract_lets size at hinit
  have hsize : 0 < size ∧ size < 2 ^ 32 := by
    unfold size
    split <;> omega
  have hkept := kept_newArrays hhost hinv size
  rcases harrays : newArrays host w size with ⟨arena, ok⟩
  rw [harrays] at hinit hkept
  cases ok with
  | false => cases hinit
  | true =>
    cases hinit
    refine ⟨hkept.1, hsize.1, hsize.2, rfl, fun k str hget => ?_, List.nodup_nil, hmap.find_new⟩
    cases hget

/-! ## Handles -/

/-- What `bebop_str_get` and `bebop_str_len` have for a handle. The null handle is for a null
pointer, and for more bytes than `uint32_t` counts. -/
def Reads (table : Table M) : Option (List UInt8) → Nat → Prop
  | some str, handle =>
    if str.length ≤ uint32Max then
      (∃ ptr, strGet table handle = some ptr ∧ bytesAt table.arena.memory ptr str.length = str) ∧
        strLen table handle = str.length
    else handle = 0
  | none, handle => handle = 0

theorem Holds.reads (h : Holds map hash table contents) {str : Option (List UInt8)} {handle : Nat}
    (hanswered : Answered contents str handle) : Reads table str handle := by
  cases str with
  | none => exact hanswered
  | some str =>
    by_cases hlen : str.length ≤ uint32Max
    · obtain ⟨k, rfl, hget⟩ := (if_pos hlen).mp hanswered
      obtain ⟨slot, hslot, hcopied, -⟩ := h.stored k str hget
      have hlt := (List.getElem?_eq_some_iff.mp hslot).1
      have hvalid : ¬(k + 1 = 0 ∨ k + 1 ≥ table.slots.length) := by omega
      refine (if_pos hlen).mpr ⟨⟨slot.string, ?_, hcopied.bytes⟩, ?_⟩
      · unfold strGet
        rw [if_neg hvalid, hslot]
        rfl
      · unfold strLen
        rw [if_neg hvalid, hslot]
        exact hcopied.length
    · exact (if_neg hlen).mpr ((if_neg hlen).mp hanswered)

/-- In every run from a fresh table in which no allocation fails and the capacity does not wrap,
whatever the hashes are: each handle leads to its string ever after, and strings that a
`uint32_t` counts have the same handle exactly where they are equal. -/
theorem handles_identify (hmap : map.Lawful) {table₀ table : Table M} {es : List Event} (hfresh : Fresh map table₀)
    (h : Run (Restrict (Step map hash) (Allowed map hash)) table₀ es table) :
    (∀ str host handle, .intern str host handle ∈ es → Reads table str handle) ∧
    (∀ str str' host host' handle handle', .intern (some str) host handle ∈ es → .intern (some str') host' handle' ∈ es →
      str.length ≤ uint32Max → str'.length ≤ uint32Max → (handle = handle' ↔ str = str')) ∧
    ∀ str host handle, HostLawful host → Allowed map hash table (.intern str host handle) →
      (internN map hash host table str).isSome := by
  obtain ⟨contents, hholds, -, hanswered⟩ := (hfresh.holds hmap).run hmap h
  refine ⟨fun str host handle hmem => hholds.reads (hanswered str host handle hmem), ?_, ?_⟩
  · intro str str' host host' handle handle' hmem hmem' hlen hlen'
    obtain ⟨k, rfl, hget⟩ := (if_pos hlen).mp (hanswered _ _ _ hmem)
    obtain ⟨k', rfl, hget'⟩ := (if_pos hlen').mp (hanswered _ _ _ hmem')
    constructor
    · intro heq
      obtain rfl := Nat.succ.inj heq
      exact Option.some.inj (hget.symm.trans hget')
    · rintro rfl
      have hlt := (List.getElem?_eq_some_iff.mp hget).1
      rw [(List.getElem?_inj hlt hholds.nodup).mp (hget.trans hget'.symm)]
  · intro str host handle hhost hallowed
    cases str with
    | none => rfl
    | some str =>
      by_cases hlen : str.length ≤ uint32Max
      · obtain ⟨table', contents', k, heq, -⟩ := hholds.internN hmap hhost hlen (hallowed hlen)
        rw [heq]
        rfl
      · rw [internN_long (Nat.not_le.mp hlen)]
        rfl

/-! ## Two tables -/

/-- A map as a function. -/
def functionMap : Internmap (UInt64 → Option Nat) :=
  ⟨fun _ => none, fun m => m, fun m key value => fun key' => if key' = key then some value else m key'⟩

theorem functionMap_lawful : functionMap.Lawful := ⟨fun _ => rfl, fun _ _ _ _ _ => rfl⟩

/-- No further chunk is needed. -/
def noHost : Host := fun _ _ => none

theorem noHost_lawful : HostLawful noHost := fun w call => givenFor_none w call

/-- A table for two slots, the null handle's included. -/
def small : Table (UInt64 → Option Nat) := (init functionMap noHost started 2).get (by decide)

theorem small_fresh : Fresh functionMap small :=
  ⟨started, [], started, noHost, 2, started_fresh, .nil _, noHost_lawful, by decide, (Option.some_get _).symm⟩

theorem canAppend_small : CanAppend noHost small [7] := by
  have hroom : small.slots.length < small.capacity := by decide
  refine ⟨fun hfull => absurd hroom (Nat.not_lt.mpr hfull), fun grown ok hgrown => ?_⟩
  have hsame : growIfFull noHost small = some (small, true) := if_neg (Nat.not_le.mpr hroom)
  obtain ⟨rfl, rfl⟩ := Prod.mk.inj (Option.some.inj (hgrown.symm.trans hsame))
  exact ⟨rfl, by decide⟩

theorem handles_identify_first : ∃ (table : Table (UInt64 → Option Nat)) (handle : Nat), Reads table (some [7]) handle := by
  have hallowed : Allowed functionMap hashFnv1a small (.intern (some [7]) noHost 0) := fun _ _ _ => canAppend_small
  have hreturns := (handles_identify functionMap_lawful small_fresh (.nil small)).2.2 _ _ _ noHost_lawful hallowed
  obtain ⟨⟨table, handle⟩, heq⟩ := Option.isSome_iff_exists.mp hreturns
  have hrun : Run (Restrict (Step functionMap hashFnv1a) (Allowed functionMap hashFnv1a)) small
      [.intern (some [7]) noHost handle] table := .single ⟨.intern noHost_lawful heq, hallowed⟩
  exact ⟨table, handle, (handles_identify functionMap_lawful small_fresh hrun).1 _ _ _ List.mem_cons_self⟩

/-- Strings of 4 GiB all have the null handle. -/
theorem long_strings_share : ∃ (str str' : List UInt8) (table : Table (UInt64 → Option Nat)), str ≠ str' ∧
    Run (Restrict (Step functionMap hashFnv1a) (Allowed functionMap hashFnv1a)) small
      [.intern (some str) noHost 0, .intern (some str') noHost 0] table := by
  have hlong (byte : UInt8) : uint32Max < (List.replicate (2 ^ 32) byte).length := by
    rw [List.length_replicate]
    decide
  have hone (byte : UInt8) : Restrict (Step functionMap hashFnv1a) (Allowed functionMap hashFnv1a) small
      (.intern (some (List.replicate (2 ^ 32) byte)) noHost 0) small :=
    ⟨.intern noHost_lawful (internN_long (hlong byte)), fun hshort => absurd hshort (Nat.not_le.mpr (hlong byte))⟩
  refine ⟨_, _, small, fun heq => ?_, .cons (hone 0) (.single (hone 1))⟩
  rcases (List.replicate_inj.mp heq).2 with hzero | hbyte
  · omega
  · exact absurd hbyte (by decide)

end Bebop.Compiler.Interning
