import Mathlib.Data.List.Basic
import Mathlib.Data.List.Count

/-!
# Bebop — names of streams

Streams that are numbered in the order they were opened, and the owner of each. A
stream's name is its owner and its number among the owner's streams, which does not
depend on the streams of others.
-/

namespace Bebop.Rpc

variable {Owner : Type} [DecidableEq Owner] {streams : List Owner} {owner owner' : Owner}
  {ref ref' : Nat}

/-- How many streams of the owner come before `ref`. -/
def streamNumber (streams : List Owner) (owner : Owner) (ref : Nat) : Nat :=
  (streams.take ref).count owner

def streamName (streams : List Owner) (ref : Nat) : Option (Owner × Nat) :=
  (streams[ref]?).map fun owner => (owner, streamNumber streams owner ref)

theorem streamNumber_lt (h : streams[ref]? = some owner) (hlt : ref < ref') :
    streamNumber streams owner ref < streamNumber streams owner ref' := by
  have hnext : streams.take (ref + 1) = streams.take ref ++ [owner] := by
    rw [List.take_add_one, h]
    rfl
  have hcount : (streams.take (ref + 1)).count owner = (streams.take ref).count owner + 1 := by
    rw [hnext, List.count_append, List.count_singleton_self]
  have hle : (streams.take (ref + 1)).count owner ≤ (streams.take ref').count owner :=
    (List.take_sublist_take_left hlt).count_le owner
  unfold streamNumber
  omega

theorem streamNumber_injective (h : streams[ref]? = some owner) (h' : streams[ref']? = some owner)
    (heq : streamNumber streams owner ref = streamNumber streams owner ref') : ref = ref' := by
  rcases Nat.lt_trichotomy ref ref' with hlt | hsame | hlt
  · exact absurd heq (Nat.ne_of_lt (streamNumber_lt h hlt))
  · exact hsame
  · exact absurd heq (Nat.ne_of_gt (streamNumber_lt h' hlt))

theorem streamNumber_lt_count (h : streams[ref]? = some owner) :
    streamNumber streams owner ref < streams.count owner := by
  have hlength := (List.getElem?_eq_some_iff.mp h).1
  have hlt := streamNumber_lt h hlength
  rwa [streamNumber, streamNumber, List.take_length] at hlt

theorem streamNumber_append (h : ref ≤ streams.length) (owner owner' : Owner) :
    streamNumber (streams ++ [owner']) owner ref = streamNumber streams owner ref := by
  rw [streamNumber, List.take_append_of_le_length h, streamNumber]

theorem streamNumber_length (streams : List Owner) (owner : Owner) :
    streamNumber streams owner streams.length = streams.count owner := by
  rw [streamNumber, List.take_length]

theorem count_append (streams : List Owner) (owner owner' : Owner) :
    (streams ++ [owner']).count owner = streams.count owner + if owner' = owner then 1 else 0 := by
  rw [List.count_append, List.count_singleton]
  simp only [beq_iff_eq]

theorem streamName_of_owner (h : streams[ref]? = some owner) :
    streamName streams ref = some (owner, streamNumber streams owner ref) := by
  rw [streamName, h]
  rfl

theorem streamName_replicate {n : Nat} (h : ref < n) (owner : Owner) :
    streamName (List.replicate n owner) ref = some (owner, ref) := by
  rw [streamName, List.getElem?_replicate, if_pos h, Option.map_some, streamNumber, List.take_replicate,
    List.count_replicate_self, Nat.min_eq_left (Nat.le_of_lt h)]

theorem streamName_eq_some {stream : Nat} (h : streamName streams ref = some (owner, stream)) :
    streams[ref]? = some owner ∧ stream = streamNumber streams owner ref := by
  obtain ⟨owner', href, hpair⟩ := Option.map_eq_some_iff.mp h
  obtain ⟨rfl, rfl⟩ := Prod.mk.inj hpair
  exact ⟨href, rfl⟩

theorem streamName_injective {name : Owner × Nat} (h : streamName streams ref = some name)
    (h' : streamName streams ref' = some name) : ref = ref' := by
  obtain ⟨owner, stream⟩ := name
  obtain ⟨href, rfl⟩ := streamName_eq_some h
  obtain ⟨href', heq⟩ := streamName_eq_some h'
  exact streamNumber_injective href href' heq

end Bebop.Rpc
