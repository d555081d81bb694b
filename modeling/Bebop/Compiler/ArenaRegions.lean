import Bebop.Compiler.Arena
import Bebop.Lib.Transition

/-!
# Bebop — the regions that the compiler's arena hands out

A program allocates and reallocates regions of any sizes, and writes to those it has. In every
run its regions lie within a chunk each and apart from each other (`Sound`), and each call
answers as it should (`Answers`). The host's allocator is the environment: a chunk that it
gives lies in the address space, apart from those it has given.
-/

namespace Bebop.Compiler.Arena

open Region Transition
open C (sizeMax Grant memcpy)

/-- The arena, the memory, and the regions in use. -/
structure World where
  arena : State
  memory : Nat → UInt8
  live : List Region

/-- The calls, with the pointer and the size that the program has for a region in use. -/
inductive Call
  | alloc (size align : Nat)
  | realloc (ptr : Option Nat) (oldSize newSize : Nat)

/-- The size that is asked for. -/
def Call.size : Call → Nat
  | .alloc size _ => size
  | .realloc _ _ newSize => newSize

def Call.align : Call → Nat
  | .alloc _ align => align
  | .realloc _ _ _ => minAlign

/-- The regions that the call does not give back. -/
def others (s : World) : Call → List Region
  | .realloc (some ptr) oldSize _ => s.live.erase ⟨ptr, oldSize⟩
  | _ => s.live

def invoke (s : World) (call : Call) (grant : Option Grant) : State × (Nat → UInt8) × Option Nat :=
  match call with
  | .alloc size align => alloc s.arena s.memory size align grant
  | .realloc ptr oldSize newSize => realloc s.arena s.memory ptr oldSize newSize grant

/-- A call takes the new region into use for the old one, if it returns one. -/
def respond (s : World) (call : Call) (grant : Option Grant) : World × Option Nat :=
  match invoke s call grant with
  | (arena, memory, none) => (⟨arena, memory, s.live⟩, none)
  | (arena, memory, some ptr) => (⟨arena, memory, ⟨ptr, call.size⟩ :: others s call⟩, some ptr)

/-- The alignment is a power of two, and what is reallocated is in use. -/
def Owned (s : World) : Call → Prop
  | .alloc _ align => IsAlign align
  | .realloc ptr oldSize _ => ∀ p ∈ ptr, 0 < oldSize → ⟨p, oldSize⟩ ∈ s.live

/-- A chunk that the host gives lies in the address space, apart from those it has given. -/
def HostGives (chunks : List Chunk) (needed : Nat) (grant : Option Grant) : Prop :=
  InSpace grant needed ∧ ∀ given ∈ grant, ∀ dataSize ∈ chunkDataSize needed true, ∀ chunk ∈ chunks,
    Apart ⟨given.address, headerSize + dataSize⟩ chunk.extent

/-- What the host may give for a call. -/
def GivenFor (s : World) (call : Call) (grant : Option Grant) : Prop :=
  HostGives s.arena.chunks (call.size + raisedAlign call.align) grant

inductive Event
  | call (call : Call) (grant : Option Grant)
  | write (region : Region) (contents : Nat → UInt8)

inductive Step : World → Event → World → Prop
  | call {s : World} {call : Call} {grant : Option Grant} : Owned s call → GivenFor s call grant →
      Step s (.call call grant) (respond s call grant).1
  | write {s : World} {region r : Region} (contents : Nat → UInt8) : r ∈ s.live → region.Within r →
      Step s (.write region contents) { s with memory := overwrite s.memory region contents }

/-- `bebop_arena_init` has returned, for some initial size. -/
def Fresh (s : World) : Prop :=
  s.live = [] ∧ ∃ memory initial grant, init memory initial grant = some (s.arena, s.memory) ∧ s.arena.current.Ok

/-! ## What a program relies on -/

/-- Every region lies within a chunk, behind its header, and apart from the others. -/
structure Sound (s : World) : Prop where
  space : ∀ chunk ∈ s.arena.chunks, chunk.extent.start + chunk.extent.size ≤ 2 ^ 64
  inside : ∀ r ∈ s.live, ∃ chunk ∈ s.arena.chunks,
    r.Within ⟨chunk.data, chunk.capacity⟩ ∧ Within ⟨chunk.data, chunk.capacity⟩ chunk.extent
  apart : s.live.Pairwise Apart

/-- What a region has from a call: the bytes that a reallocation keeps, and zeros. -/
def contentsOf (s : World) : Call → Nat → UInt8
  | .realloc (some ptr) oldSize _, i => if i < oldSize then s.memory (ptr + i) else 0
  | _, _ => 0

structure Answers (s : World) (call : Call) (s' : World) (result : Option Nat) : Prop where
  live : ∀ ptr ∈ result, s'.live = ⟨ptr, call.size⟩ :: others s call
  aligned : ∀ ptr ∈ result, call.align ∣ ptr ∧ minAlign ∣ ptr
  contents : ∀ ptr ∈ result, ∀ i < call.size, s'.memory (ptr + i) = contentsOf s call i
  others : ∀ r ∈ others s call, ∀ i < r.size, s'.memory (r.start + i) = s.memory (r.start + i)
  failed : result = none → s' = s
  impossible : sizeMax < call.size + raisedAlign call.align → result = none

/-! ## The invariant -/

structure Inv (chunks : List Chunk) (live : List Region) : Prop where
  chunk : ∀ chunk ∈ chunks, chunk.Ok
  chunksApart : chunks.Pairwise fun chunk chunk' => chunk.extent.Apart chunk'.extent
  held : ∀ r ∈ live, (0 < r.size ∧ minAlign ∣ r.start) ∧ ∃ chunk ∈ chunks, r.Within ⟨chunk.data, chunk.used⟩
  apart : live.Pairwise Apart

variable {chunks rest : List Chunk} {current : Chunk} {live : List Region}

theorem within_extent {chunk : Chunk} {used : Nat} (h : used ≤ chunk.capacity) :
    Within ⟨chunk.data, used⟩ chunk.extent := by
  unfold Within Chunk.extent Chunk.data sizeofChunk
  rw [headerSize_eq]
  dsimp only
  omega

theorem Inv.sound {s : World} (h : Inv s.arena.chunks s.live) : Sound s where
  space chunk hchunk := (h.chunk chunk hchunk).2
  inside r hr := by
    obtain ⟨-, chunk, hchunk, hwithin⟩ := h.held r hr
    refine ⟨chunk, hchunk, hwithin.trans ⟨Nat.le_refl _, ?_⟩, within_extent (Nat.le_refl _)⟩
    exact Nat.add_le_add_left (h.chunk chunk hchunk).1 _
  apart := h.apart

theorem Inv.sublist (h : Inv chunks live) {live' : List Region} (hsub : live'.Sublist live) : Inv chunks live' where
  chunk := h.chunk
  chunksApart := h.chunksApart
  held r hr := h.held r (hsub.subset hr)
  apart := h.apart.sublist hsub

/-- A region is at the top of the current chunk, with the others in it below. -/
theorem Inv.resize (h : Inv (current :: rest) live) {ptr size : Nat} (hsize : 0 < size) (haligned : minAlign ∣ ptr)
    (hstart : current.data ≤ ptr) (hroom : ptr + size ≤ current.data + current.capacity)
    (hbelow : ∀ r ∈ live, r.Within ⟨current.data, current.used⟩ → r.start + r.size ≤ ptr) :
    Inv ({ current with used := ptr - current.data + size } :: rest) (⟨ptr, size⟩ :: live) := by
  obtain ⟨hcurrent, hrest⟩ := List.forall_mem_cons.mp h.chunk
  obtain ⟨hapart, hrestApart⟩ := List.pairwise_cons.mp h.chunksApart
  have hnew : Within ⟨ptr, size⟩ ⟨current.data, ptr - current.data + size⟩ := by
    unfold Within
    dsimp only
    omega
  refine ⟨List.forall_mem_cons.mpr ⟨⟨?_, hcurrent.2⟩, hrest⟩, List.pairwise_cons.mpr ⟨hapart, hrestApart⟩,
    List.forall_mem_cons.mpr ⟨⟨⟨hsize, haligned⟩, _, List.mem_cons_self, hnew⟩, fun r hr => ?_⟩,
    List.pairwise_cons.mpr ⟨fun r hr => ?_, h.apart⟩⟩
  · show ptr - current.data + size ≤ current.capacity
    omega
  · obtain ⟨hr', chunk, hchunk, hwithin⟩ := h.held r hr
    rcases List.mem_cons.mp hchunk with rfl | hchunk
    · have hend := hbelow r hr hwithin
      -- `used` may have gone down, but not below the end of another region
      refine ⟨hr', _, List.mem_cons_self, hwithin.1, ?_⟩
      show r.start + r.size ≤ chunk.data + (ptr - chunk.data + size)
      omega
    · exact ⟨hr', chunk, List.mem_cons_of_mem _ hchunk, hwithin⟩
  · obtain ⟨-, chunk, hchunk, hwithin⟩ := h.held r hr
    rcases List.mem_cons.mp hchunk with rfl | hmem
    · exact .inr (hbelow r hr hwithin)
    · have hextent := hwithin.trans (within_extent (h.chunk chunk hchunk).1)
      have hthis : Within ⟨ptr, size⟩ current.extent := hnew.trans (within_extent (by omega))
      exact (hapart chunk hmem).within hthis hextent

theorem Inv.opens {arena : State} {memory memory' : Nat → UInt8} {needed : Nat} {grant : Option Grant} {chunk : Chunk}
    {earlier : List Chunk} (h : Inv arena.chunks live) (hgives : HostGives arena.chunks needed grant)
    (hopens : Opens arena memory needed grant chunk earlier memory') :
    Inv (chunk :: earlier) live ∧ ∀ r ∈ live, ∀ i < r.size, memory' (r.start + i) = memory (r.start + i) := by
  cases hopens with
  | current => exact ⟨h, fun _ _ _ _ => rfl⟩
  | @new given dataSize hgrant hdata =>
    have hok := hgives.1 given hgrant dataSize hdata
    have hfresh := hgives.2 given hgrant dataSize hdata
    refine ⟨⟨List.forall_mem_cons.mpr ⟨hok, h.chunk⟩, List.pairwise_cons.mpr ⟨hfresh, h.chunksApart⟩,
      fun r hr => ?_, h.apart⟩, fun r hr i hi => ?_⟩
    · obtain ⟨hr', chunk, hchunk, hwithin⟩ := h.held r hr
      exact ⟨hr', chunk, List.mem_cons_of_mem _ hchunk, hwithin⟩
    · obtain ⟨-, chunk, hchunk, hwithin⟩ := h.held r hr
      have hextent := hwithin.trans (within_extent (h.chunk chunk hchunk).1)
      exact overwrite_outside ((hfresh chunk hchunk).within ⟨Nat.le_refl _, Nat.le_refl _⟩ hextent) hi

/-! ## Steps -/

theorem zeroed_inside {memory : Nat → UInt8} {ptr size address : Nat} (hle : ptr ≤ address) (hlt : address < ptr + size) :
    zeroed memory ptr size address = 0 := if_pos ⟨hle, hlt⟩

theorem zeroed_outside {memory : Nat → UInt8} {ptr size address : Nat} (h : address < ptr) :
    zeroed memory ptr size address = memory address := if_neg fun hin => Nat.not_lt.mpr hin.1 h

/-- What is behind a pointer that a call returns, and what the call leaves as it was. -/
structure Serves (s : World) (call : Call) (arena : State) (memory : Nat → UInt8) (ptr : Nat) : Prop where
  possible : call.size + raisedAlign call.align ≤ sizeMax
  inv : Inv arena.chunks (⟨ptr, call.size⟩ :: others s call)
  aligned : call.align ∣ ptr ∧ minAlign ∣ ptr
  contents : ∀ i < call.size, memory (ptr + i) = contentsOf s call i
  others : ∀ r ∈ others s call, ∀ i < r.size, memory (r.start + i) = s.memory (r.start + i)

theorem Inv.alloc {s : World} (h : Inv s.arena.chunks s.live) {size align : Nat} {grant : Option Grant}
    (halign : IsAlign align) (hgives : HostGives s.arena.chunks (size + raisedAlign align) grant)
    {arena : State} {memory : Nat → UInt8} {result : Option Nat}
    (heq : Arena.alloc s.arena s.memory size align grant = (arena, memory, result)) :
    (result = none → arena = s.arena ∧ memory = s.memory) ∧
      ∀ ptr ∈ result, Serves s (.alloc size align) arena memory ptr := by
  have hcases := alloc_cases (h.chunk _ List.mem_cons_self) halign hgives.1 s.memory
  rw [heq] at hcases
  rcases hcases with hrefused | ⟨hsize, hneeded, chunk, earlier, memory', ptr, hopens, hroom, hplaced⟩
  · obtain ⟨rfl, hrest⟩ := Prod.mk.inj hrefused
    obtain ⟨rfl, rfl⟩ := Prod.mk.inj hrest
    refine ⟨fun _ => ⟨rfl, rfl⟩, ?_⟩
    rintro ptr ⟨⟩
  · obtain ⟨rfl, hrest⟩ := Prod.mk.inj hplaced
    obtain ⟨rfl, rfl⟩ := Prod.mk.inj hrest
    refine ⟨fun hnone => (Option.some_ne_none _ hnone).elim, ?_⟩
    rintro _ ⟨⟩
    obtain ⟨hopened, hkept⟩ := h.opens hgives hopens
    obtain ⟨-, hdvd, hmin⟩ := raisedAlign_spec halign
    have hinv := hopened.resize (Nat.pos_of_ne_zero hsize) (hmin.trans hroom.aligned)
      (Nat.le_trans (Nat.le_add_right _ _) hroom.above) hroom.below fun r _ hwithin => Nat.le_trans hwithin.2 hroom.above
    refine ⟨hneeded, hinv, ⟨hdvd.trans hroom.aligned, hmin.trans hroom.aligned⟩, fun i hi => ?_, fun r hr i hi => ?_⟩
    · exact zeroed_inside (Nat.le_add_right _ _) (Nat.add_lt_add_left hi _)
    · have hapart := (List.pairwise_cons.mp hinv.apart).1 r hr
      exact (overwrite_outside hapart hi).trans (hkept r hr i hi)

theorem apart_erase (h : live.Pairwise Apart) {old : Region} (hold : old ∈ live) : ∀ r ∈ live.erase old, old.Apart r := by
  have hperm := List.perm_cons_erase hold
  exact (List.pairwise_cons.mp ((hperm.pairwise_iff fun hapart => hapart.symm).mp h)).1

theorem Inv.extend (h : Inv (current :: rest) live) {ptr oldSize newSize : Nat} (hold : ⟨ptr, oldSize⟩ ∈ live)
    (hnew : newSize ≠ 0) (hextends : ExtendsInPlace current ptr oldSize newSize) :
    Inv ({ current with used := C.addSize (ptr - current.data) newSize } :: rest) (⟨ptr, newSize⟩ :: live.erase ⟨ptr, oldSize⟩) := by
  obtain ⟨hstart, hin, hle, htop, hroom⟩ := hextends
  have hspace := (h.chunk current List.mem_cons_self).bounds.2
  rw [C.addSize_eq (by unfold C.sizeMax; omega)]
  refine (h.sublist List.erase_sublist).resize (Nat.pos_of_ne_zero hnew) (h.held _ hold).1.2 hstart (by omega) ?_
  intro r hr hwithin
  -- what is apart from the top and yet in use is below it
  have hapart := apart_erase h.apart hold r hr
  have hpos := (h.held r (List.mem_of_mem_erase hr)).1.1
  unfold Apart Within at *
  dsimp only at *
  omega

/-- A region that is in use, or has no bytes, is reallocated. -/
theorem Inv.realloc {s : World} (h : Inv s.arena.chunks s.live) {ptr oldSize newSize : Nat} {grant : Option Grant}
    (hold : 0 < oldSize → ⟨ptr, oldSize⟩ ∈ s.live) (hgives : HostGives s.arena.chunks (newSize + raisedAlign minAlign) grant)
    {arena : State} {memory : Nat → UInt8} {result : Option Nat}
    (heq : Arena.realloc s.arena s.memory (some ptr) oldSize newSize grant = (arena, memory, result)) :
    (result = none → arena = s.arena ∧ memory = s.memory) ∧
      ∀ newPtr ∈ result, Serves s (.realloc (some ptr) oldSize newSize) arena memory newPtr := by
  unfold Arena.realloc at heq
  by_cases hnew : newSize = 0
  · rw [if_pos hnew] at heq
    cases heq
    refine ⟨fun _ => ⟨rfl, rfl⟩, ?_⟩
    rintro newPtr ⟨⟩
  rw [if_neg hnew] at heq
  dsimp only at heq
  split at heq
  · rename_i hextends
    obtain ⟨hpos, hextends⟩ := hextends
    have hinv := h.extend (hold hpos) hnew hextends
    have hspace := (h.chunk _ List.mem_cons_self).bounds.2
    cases heq
    refine ⟨fun hnone => (Option.some_ne_none _ hnone).elim, ?_⟩
    rintro _ ⟨⟩
    have haligned := (h.held _ (hold hpos)).1.2
    refine ⟨?_, hinv, ⟨haligned, haligned⟩, fun i hi => ?_, fun r hr i hi => ?_⟩
    · obtain ⟨-, -, -, -, hroom⟩ := hextends
      have hdata : 24 ≤ s.arena.current.data := Nat.le_add_left _ _
      show newSize + 16 ≤ 2 ^ 64 - 1
      omega
    · have hi' : i < newSize := hi
      unfold contentsOf
      dsimp only
      by_cases hlt : i < oldSize
      · rw [if_pos hlt]
        split
        · exact zeroed_outside (Nat.add_lt_add_left hlt _)
        · rfl
      · rw [if_neg hlt, if_pos (by omega)]
        exact zeroed_inside (by omega) (by omega)
    · have hapart := (List.pairwise_cons.mp hinv.apart).1 r hr
      split
      · refine overwrite_outside (hapart.within ?_ ⟨Nat.le_refl _, Nat.le_refl _⟩) hi
        unfold Within
        dsimp only
        omega
      · rfl
  · cases hmalloc : malloc s.arena s.memory newSize grant with
    | mk arena' rest =>
      obtain ⟨memory', result'⟩ := rest
      obtain ⟨hfails, hgiven⟩ := h.alloc isAlign_minAlign hgives hmalloc
      rw [hmalloc] at heq
      cases result' with
      | none =>
        cases heq
        refine ⟨hfails, ?_⟩
        rintro newPtr ⟨⟩
      | some newPtr =>
        cases heq
        refine ⟨fun hnone => (Option.some_ne_none _ hnone).elim, ?_⟩
        rintro _ ⟨⟩
        obtain ⟨hneeded, hinv, haligned, hzero, hsame⟩ := hgiven newPtr rfl
        have hapart := (List.pairwise_cons.mp hinv.apart).1
        refine ⟨hneeded, hinv.sublist (List.erase_sublist.cons_cons _), haligned, fun i hi => ?_, fun r hr i hi => ?_⟩
        · have hi' : i < newSize := hi
          unfold contentsOf
          dsimp only
          by_cases hlt : i < oldSize
          · have hpos : oldSize > 0 := Nat.zero_lt_of_lt hlt
            rw [if_pos hlt, if_pos hpos]
            have hcopied : memcpy memory' newPtr ptr (min oldSize newSize) (newPtr + i) = memory' (ptr + i) := by
              unfold C.memcpy overwrite
              dsimp only
              rw [if_pos (by omega), Nat.add_sub_cancel_left]
            exact hcopied.trans (hsame _ (hold hpos) i hlt)
          · rw [if_neg hlt]
            split
            · have hrest : memcpy memory' newPtr ptr (min oldSize newSize) (newPtr + i) = memory' (newPtr + i) := by
                unfold C.memcpy overwrite
                exact if_neg (by dsimp only; omega)
              exact hrest.trans (hzero i hi)
            · exact hzero i hi
        · have hr' := List.mem_of_mem_erase hr
          split
          · have hwithin : Within ⟨newPtr, min oldSize newSize⟩ ⟨newPtr, newSize⟩ :=
              ⟨Nat.le_refl _, Nat.add_le_add_left (Nat.min_le_right _ _) _⟩
            exact (overwrite_outside ((hapart r hr').within hwithin ⟨Nat.le_refl _, Nat.le_refl _⟩) hi).trans (hsame r hr' i hi)
          · exact hsame r hr' i hi

theorem invoke_cases {s : World} (h : Inv s.arena.chunks s.live) {call : Call} {grant : Option Grant}
    (howned : Owned s call) (hgiven : GivenFor s call grant) {arena : State} {memory : Nat → UInt8} {result : Option Nat}
    (heq : invoke s call grant = (arena, memory, result)) :
    (result = none → arena = s.arena ∧ memory = s.memory) ∧ ∀ ptr ∈ result, Serves s call arena memory ptr := by
  cases call with
  | alloc size align => exact h.alloc howned hgiven heq
  | realloc ptr oldSize newSize =>
    cases ptr with
    | some ptr => exact h.realloc (howned ptr rfl) hgiven heq
    | none =>
      -- the pointer is null: the code goes to `bebop_arena_malloc`
      by_cases hnew : newSize = 0
      · rw [show invoke s (.realloc none oldSize newSize) grant = (s.arena, s.memory, none) from if_pos hnew] at heq
        cases heq
        refine ⟨fun _ => ⟨rfl, rfl⟩, ?_⟩
        rintro ptr ⟨⟩
      · rw [show invoke s (.realloc none oldSize newSize) grant = malloc s.arena s.memory newSize grant from if_neg hnew] at heq
        obtain ⟨hfails, hserves⟩ := h.alloc isAlign_minAlign hgiven heq
        refine ⟨hfails, fun ptr hptr => ?_⟩
        obtain ⟨hpossible, hinv, haligned, hcontents, hothers⟩ := hserves ptr hptr
        exact ⟨hpossible, hinv, haligned, hcontents, hothers⟩

theorem Inv.respond {s : World} (h : Inv s.arena.chunks s.live) {call : Call} {grant : Option Grant}
    (howned : Owned s call) (hgiven : GivenFor s call grant) :
    Inv (respond s call grant).1.arena.chunks (respond s call grant).1.live ∧
      Answers s call (respond s call grant).1 (respond s call grant).2 := by
  rcases hinvoke : invoke s call grant with ⟨arena, memory, result⟩
  obtain ⟨hfails, hserves⟩ := invoke_cases h howned hgiven hinvoke
  unfold Arena.respond
  rw [hinvoke]
  cases result with
  | none =>
    obtain ⟨rfl, rfl⟩ := hfails rfl
    refine ⟨h, ⟨?_, ?_, ?_, fun _ _ _ _ => rfl, fun _ => rfl, fun _ => rfl⟩⟩
    · rintro ptr ⟨⟩
    · rintro ptr ⟨⟩
    · rintro ptr ⟨⟩
  | some ptr =>
    obtain ⟨hpossible, hinv, haligned, hcontents, hothers⟩ := hserves ptr rfl
    refine ⟨hinv, ⟨?_, ?_, ?_, hothers, fun hnone => (Option.some_ne_none _ hnone).elim,
      fun hlarge => absurd hpossible (Nat.not_le.mpr hlarge)⟩⟩
    · rintro _ ⟨⟩
      rfl
    · rintro _ ⟨⟩
      exact haligned
    · rintro _ ⟨⟩
      exact hcontents

theorem Inv.step {s s' : World} {e : Event} (h : Inv s.arena.chunks s.live) (hstep : Step s e s') :
    Inv s'.arena.chunks s'.live := by
  cases hstep with
  | call howned hgiven => exact (h.respond howned hgiven).1
  | write contents hr hwithin => exact h

theorem Fresh.inv {s : World} (h : Fresh s) : Inv s.arena.chunks s.live := by
  obtain ⟨hlive, memory, initial, grant, hinit, hok⟩ := h
  -- the arena of `bebop_arena_init` has one chunk
  have hearlier : s.arena.earlier = [] := by
    unfold init at hinit
    obtain ⟨chunk, -, heq⟩ := Option.map_eq_some_iff.mp hinit
    exact congrArg (fun out => out.1.earlier) heq.symm
  unfold State.chunks
  rw [hearlier, hlive]
  refine ⟨List.forall_mem_singleton.mpr hok, List.pairwise_singleton _ _, ?_, .nil⟩
  intro r hr
  cases hr

/-- In every run the regions are in their chunks and apart, and calls answer as they should. -/
theorem arena_regions {s₀ s : World} {es : List Event} (hfresh : Fresh s₀) (h : Run Step s₀ es s) :
    Sound s ∧ ∀ call grant, Owned s call → GivenFor s call grant →
      Sound (respond s call grant).1 ∧ Answers s call (respond s call grant).1 (respond s call grant).2 := by
  have hinv : Inv s.arena.chunks s.live :=
    h.invariant (I := fun s => Inv s.arena.chunks s.live) (fun _ _ _ hinv hstep => hinv.step hstep) hfresh.inv
  refine ⟨hinv.sound, fun call grant howned hgiven => ?_⟩
  obtain ⟨hinv', hanswers⟩ := hinv.respond howned hgiven
  exact ⟨hinv'.sound, hanswers⟩

/-- The arena of a context, whose first chunk the host has put at this address. -/
def started : World := ⟨⟨⟨65536, 65536, 0⟩, []⟩, overwrite (fun _ => 1) ⟨65536, 65568⟩ fun _ => 1, []⟩

theorem started_fresh : Fresh started :=
  ⟨rfl, fun _ => 1, 0, some ⟨65536, fun _ => 1⟩, rfl, by decide, by decide⟩

theorem givenFor_none (s : World) (call : Call) : GivenFor s call none := by
  refine ⟨?_, ?_⟩ <;> rintro given ⟨⟩

/-- A region that is extended in place. -/
theorem arena_regions_extended :
    (respond (respond started (.alloc 24 8) none).1 (.realloc (some 65568) 24 40) none).2 = some 65568 ∧
      Sound (respond (respond started (.alloc 24 8) none).1 (.realloc (some 65568) 24 40) none).1 := by
  have halign : IsAlign 8 := ⟨3, by decide, rfl⟩
  have hrun : Run Step started [.call (.alloc 24 8) none] (respond started (.alloc 24 8) none).1 :=
    .single (.call halign (givenFor_none _ _))
  have howned : Owned (respond started (.alloc 24 8) none).1 (.realloc (some 65568) 24 40) := by
    rintro _ ⟨⟩ -
    exact List.mem_cons_self
  exact ⟨by decide, ((arena_regions started_fresh hrun).2 _ none howned (givenFor_none _ _)).1⟩

end Bebop.Compiler.Arena
