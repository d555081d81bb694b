import Bebop.TypeScript.Frame

/-!
# Bebop — the byte queue

A `ByteQueue` stands for the bytes that were pushed and not read yet (`content`). A read
takes them from the front (`read_eq`), whichever chunks they are spread over.
-/

namespace Bebop.TypeScript.Rpc.ByteQueue

open Checked

/-- The bytes in a queue, in the order of their pushes. -/
def content (queue : ByteQueue) : List UInt8 := queue.chunks.live.flatten.drop queue.offset

/-- The byte count is right, no chunk is empty, and the first has bytes left. -/
structure Wf (queue : ByteQueue) : Prop where
  byteLength : queue.byteLength = queue.content.length
  nonempty : ∀ chunk ∈ queue.chunks.live, chunk ≠ []
  offset : ∀ chunk ∈ queue.chunks.live.head?, queue.offset < chunk.length
  offset_eq : queue.chunks.live = [] → queue.offset = 0

theorem content_empty : empty.content = [] := rfl

theorem wf_empty : empty.Wf := ⟨rfl, nofun, nofun, fun _ => rfl⟩

/-! ## Pushing -/

theorem offset_le {queue : ByteQueue} (h : queue.Wf) :
    queue.offset ≤ queue.chunks.live.flatten.length := by
  cases hlive : queue.chunks.live with
  | nil =>
    rw [h.offset_eq hlive]
    exact Nat.zero_le _
  | cons first rest =>
    have hfirst := h.offset first (by rw [hlive]; rfl)
    rw [List.flatten_cons, List.length_append]
    omega

theorem content_push {queue : ByteQueue} (h : queue.Wf) (chunk : List UInt8) :
    (queue.push chunk).content = queue.content ++ chunk := by
  unfold push
  split
  · rename_i hempty
    rw [List.length_eq_zero_iff.mp hempty, List.append_nil]
  · have hlive := DropQueue.live_push queue.chunks chunk
    unfold content
    dsimp only
    rw [hlive, List.flatten_append, List.flatten_singleton,
      List.drop_append_of_le_length (offset_le h)]

theorem wf_push {queue : ByteQueue} (h : queue.Wf) (chunk : List UInt8) : (queue.push chunk).Wf := by
  have hcontent := content_push h chunk
  unfold push at hcontent ⊢
  split
  · exact h
  · rename_i hempty
    rw [if_neg hempty] at hcontent
    have hlive := DropQueue.live_push queue.chunks chunk
    refine ⟨?_, ?_, ?_, ?_⟩
    · rw [hcontent, List.length_append, ← h.byteLength]
    · intro c hc
      rw [hlive, List.mem_append, List.mem_singleton] at hc
      rcases hc with hc | rfl
      · exact h.nonempty c hc
      · exact List.length_pos_iff.mp (Nat.pos_of_ne_zero hempty)
    · intro c hc
      dsimp only at hc ⊢
      rw [hlive] at hc
      -- the new chunk is the first one exactly when the queue was empty
      cases hold : queue.chunks.live with
      | nil =>
        rw [hold] at hc
        obtain rfl := Option.some.inj hc
        rw [h.offset_eq hold]
        exact Nat.pos_of_ne_zero hempty
      | cons first rest =>
        rw [hold] at hc
        exact h.offset c (by rw [hold]; exact hc)
    · intro hnil
      rw [hlive] at hnil
      exact absurd hnil (List.append_ne_nil_of_right_ne_nil _ (List.cons_ne_nil _ _))

/-! ## Reading -/

theorem content_front {queue : ByteQueue} (h : queue.Wf)
    (hfront : queue.chunks.head < queue.chunks.values.length) :
    queue.offset < (queue.chunks.front hfront).length ∧
      queue.content =
        (queue.chunks.front hfront).drop queue.offset ++ queue.chunks.live.tail.flatten := by
  have hlive := DropQueue.live_eq_cons hfront
  have hoffset : queue.offset < (queue.chunks.front hfront).length :=
    h.offset _ (by rw [hlive]; rfl)
  refine ⟨hoffset, ?_⟩
  rw [content, hlive, List.flatten_cons, List.drop_append_of_le_length hoffset.le, List.tail_cons]

theorem live_dropFirst (chunks : DropQueue (List UInt8)) (h : chunks.head < chunks.values.length) :
    (dropFirst chunks h).live = chunks.live.tail := by
  rw [dropFirst, DropQueue.live_advance, DropQueue.live_setFront h, List.tail_cons]

theorem front_exists {queue : ByteQueue} (h : queue.content ≠ []) :
    queue.chunks.head < queue.chunks.values.length := by
  rw [DropQueue.head_lt_iff]
  intro hnil
  rw [content, hnil, List.flatten_nil, List.drop_nil] at h
  exact h rfl

theorem consume_eq {queue : ByteQueue} (h : queue.Wf)
    (hfront : queue.chunks.head < queue.chunks.values.length) {count : Nat}
    (hcount : queue.offset + count ≤ (queue.chunks.front hfront).length) :
    (queue.consume hfront count).Wf ∧
      (queue.consume hfront count).content = queue.content.drop count := by
  obtain ⟨hoffset, hcontent⟩ := content_front h hfront
  have hlive := DropQueue.live_eq_cons hfront
  have hrest : queue.content.drop count =
      (queue.chunks.front hfront).drop (queue.offset + count) ++ queue.chunks.live.tail.flatten := by
    rw [hcontent, List.drop_append_of_le_length (by rw [List.length_drop]; omega), List.drop_drop]
  unfold consume
  by_cases hdone : queue.offset + count = (queue.chunks.front hfront).length
  · -- the chunk is used up: the next one becomes the first
    rw [if_pos hdone]
    rw [List.drop_eq_nil_of_le hdone.ge, List.nil_append] at hrest
    have hnew : (⟨dropFirst queue.chunks hfront, 0, queue.byteLength - count⟩ : ByteQueue).content =
        queue.content.drop count := by
      rw [hrest, content]
      dsimp only
      rw [live_dropFirst, List.drop_zero]
    refine ⟨⟨?_, ?_, ?_, fun _ => rfl⟩, hnew⟩
    · rw [hnew, List.length_drop, ← h.byteLength]
    · intro c hc
      rw [live_dropFirst] at hc
      exact h.nonempty c (List.mem_of_mem_tail hc)
    · intro c hc
      rw [live_dropFirst] at hc
      exact List.length_pos_iff.mpr (h.nonempty c (List.mem_of_mem_tail (List.mem_of_mem_head? hc)))
  · rw [if_neg hdone]
    have hnew : (⟨queue.chunks, queue.offset + count, queue.byteLength - count⟩ : ByteQueue).content =
        queue.content.drop count := by
      rw [content, content, List.drop_drop]
    refine ⟨⟨?_, h.nonempty, ?_, ?_⟩, hnew⟩
    · rw [hnew, List.length_drop, ← h.byteLength]
    · intro c hc
      dsimp only at hc ⊢
      rw [hlive] at hc
      obtain rfl := Option.some.inj hc
      omega
    · intro hnil
      rw [hlive] at hnil
      cases hnil

theorem piece_eq {queue : ByteQueue} (h : queue.Wf)
    (hfront : queue.chunks.head < queue.chunks.values.length) {count : Nat}
    (hcount : queue.offset + count ≤ (queue.chunks.front hfront).length) :
    ((queue.chunks.front hfront).take (queue.offset + count)).drop queue.offset =
      queue.content.take count := by
  rw [(content_front h hfront).2, List.drop_take, Nat.add_sub_cancel_left,
    List.take_append_of_le_length (by rw [List.length_drop]; omega)]

theorem readLoop_eq {fuel : Nat} {queue : ByteQueue} (h : queue.Wf) {remaining : Nat}
    (hfuel : remaining ≤ fuel) (hroom : remaining ≤ queue.content.length) (value : List UInt8) :
    ∃ queue', readLoop fuel queue remaining value = .ok (value ++ queue.content.take remaining, queue') ∧
      queue'.Wf ∧ queue'.content = queue.content.drop remaining := by
  induction fuel generalizing queue remaining value with
  | zero =>
    obtain rfl : remaining = 0 := by omega
    exact ⟨queue, by rw [List.take_zero, List.append_nil]; rfl, h, rfl⟩
  | succ fuel ih =>
    by_cases hzero : remaining = 0
    · subst hzero
      exact ⟨queue, by rw [List.take_zero, List.append_nil]; rfl, h, rfl⟩
    · have hne : queue.content ≠ [] := by
        intro hnil
        rw [hnil] at hroom
        exact hzero (Nat.le_zero.mp hroom)
      have hfront := front_exists hne
      obtain ⟨hoffset, -⟩ := content_front h hfront
      let count := min ((queue.chunks.front hfront).length - queue.offset) remaining
      have hcount : count = min ((queue.chunks.front hfront).length - queue.offset) remaining := rfl
      have hpos : 0 < count := by omega
      have hle : count ≤ remaining := by omega
      have hchunk : queue.offset + count ≤ (queue.chunks.front hfront).length := by omega
      obtain ⟨hwf, hrest⟩ := consume_eq h hfront hchunk
      have hfewer : remaining - count ≤ fuel := by omega
      have hleft : remaining - count ≤ (queue.consume hfront count).content.length := by
        rw [hrest, List.length_drop]
        omega
      obtain ⟨queue', hloop, hwf', hrest'⟩ := ih hwf hfewer hleft (value ++ queue.content.take count)
      refine ⟨queue', ?_, hwf', ?_⟩
      · have hsplit : queue.content.take remaining =
            queue.content.take count ++ (queue.content.drop count).take (remaining - count) := by
          rw [← List.take_add, Nat.add_sub_cancel' hle]
        rw [readLoop, if_neg hzero, dif_pos hfront]
        dsimp only
        rw [← hcount, piece_eq h hfront hchunk, hloop, hrest, hsplit, List.append_assoc]
      · rw [hrest', hrest, List.drop_drop, Nat.add_sub_cancel' hle]

theorem read_eq {queue : ByteQueue} (h : queue.Wf) {length : Nat}
    (hroom : length ≤ queue.content.length) :
    ∃ queue', queue.read length = .ok (queue.content.take length, queue') ∧ queue'.Wf ∧
      queue'.content = queue.content.drop length := by
  have hfits : ¬length > queue.byteLength := by
    rw [h.byteLength]
    omega
  unfold read
  rw [rejectIf_of_not hfits, ok_bind]
  by_cases hzero : length = 0
  · subst hzero
    exact ⟨queue, by rw [if_pos rfl, List.take_zero]; rfl, h, rfl⟩
  · have hne : queue.content ≠ [] := by
      intro hnil
      rw [hnil] at hroom
      exact hzero (Nat.le_zero.mp hroom)
    have hfront := front_exists hne
    obtain ⟨hoffset, -⟩ := content_front h hfront
    rw [if_neg hzero, dif_pos hfront]
    dsimp only
    by_cases hone : length ≤ (queue.chunks.front hfront).length - queue.offset
    · have hchunk : queue.offset + length ≤ (queue.chunks.front hfront).length := by omega
      obtain ⟨hwf, hrest⟩ := consume_eq h hfront hchunk
      rw [if_pos hone, piece_eq h hfront hchunk]
      exact ⟨_, rfl, hwf, hrest⟩
    · rw [if_neg hone]
      exact readLoop_eq h (Nat.le_refl length) hroom []

end Bebop.TypeScript.Rpc.ByteQueue
