import Bebop.C.Arena
import Bebop.Lib.Transition

/-!
# Bebop — what a program gets from the arena

A program allocates and reallocates regions, and writes to the ones it has. The allocator
of the options is the environment: a block that it gives is apart from the blocks it has
given. What is proved holds as long as no sum of a call wraps (`CallFits`).
-/

namespace Bebop.C

open Region Transition

/-! ## Runs -/

/-- The arena, the memory, and the regions that the program has. -/
structure World where
  arena : Arena
  memory : Nat → UInt8
  live : List Region

/-- An arena without a block, after `bebop_wire_arena_create`. -/
def freshWorld (options : ArenaOptions) (memory : Nat → UInt8) : World := ⟨⟨options, [], 0, 0⟩, memory, []⟩

inductive Call
  | alloc (size : Nat)
  | realloc (pointer : Option Nat) (oldSize newSize : Nat)
  | write (region : Region) (contents : Nat → UInt8)

structure Event where
  call : Call
  grant : Option Grant
  result : Option Nat

/-- What a call does. A region that is reallocated takes the place of the old one. -/
def respond (s : World) (call : Call) (grant : Option Grant) : Option (World × Option Nat) :=
  match call with
  | .alloc size =>
    (arenaAlloc s.arena s.memory size grant).map fun (arena, memory, result) =>
      (⟨arena, memory, result.elim s.live fun pointer => ⟨pointer, size⟩ :: s.live⟩, result)
  | .realloc pointer oldSize newSize =>
    (arenaRealloc s.arena s.memory pointer oldSize newSize grant).map fun (arena, memory, result) =>
      (⟨arena, memory, result.elim s.live fun newPointer =>
        ⟨newPointer, newSize⟩ :: pointer.elim s.live fun pointer => s.live.erase ⟨pointer, oldSize⟩⟩, result)
  | .write region contents => some (⟨s.arena, overwrite s.memory region contents, s.live⟩, none)

/-- The program reallocates, and writes to, what it has. -/
def Owned (s : World) : Call → Prop
  | .alloc _ => True
  | .realloc pointer oldSize _ => ∀ p ∈ pointer, ⟨p, oldSize⟩ ∈ s.live
  | .write region _ => ∃ r ∈ s.live, region.Within r

/-- A block that the allocator gives is apart from those it has given. -/
def Given (s : World) (size : Nat) (grant : Option Grant) : Prop :=
  ∀ given ∈ grant, ∀ capacity ∈ blockCapacity s.arena.options (alignSize size), ∀ block ∈ s.arena.blocks,
    Apart ⟨given.address, totalSize capacity⟩ block.extent

def GivenFor (s : World) (grant : Option Grant) : Call → Prop
  | .alloc size => Given s size grant
  | .realloc _ _ newSize => Given s newSize grant
  | .write _ _ => True

def Step (s : World) (e : Event) (s' : World) : Prop :=
  Owned s e.call ∧ GivenFor s e.grant e.call ∧ respond s e.call e.grant = some (s', e.result)

def CallFits (s : World) (e : Event) : Prop :=
  match e.call with
  | .alloc size => AllocFits s.arena size
  | .realloc pointer oldSize newSize => ReallocFits s.arena pointer oldSize newSize
  | .write _ _ => True

/-! ## What a program relies on -/

/-- Every region lies within the capacity of a block and apart from the others. -/
structure Sound (s : World) : Prop where
  used : ∀ block ∈ s.arena.blocks, block.used ≤ block.capacity
  inside : ∀ r ∈ s.live, ∃ block ∈ s.arena.blocks, r.Within ⟨block.data, block.capacity⟩
  apart : s.live.Pairwise Apart

/-- What a call returns is one of the program's regions, of the size it has asked for. -/
def Answers (e : Event) (s' : World) : Prop :=
  ∀ pointer ∈ e.result, match e.call with
    | .alloc size => ⟨pointer, size⟩ ∈ s'.live
    | .realloc _ _ newSize => ⟨pointer, newSize⟩ ∈ s'.live
    | .write _ _ => False

/-- A region that is reallocated keeps the bytes that the old and the new one both have. -/
def Preserves (s : World) (e : Event) (s' : World) : Prop :=
  ∀ pointer oldSize newSize newPointer, e.call = .realloc (some pointer) oldSize newSize → e.result = some newPointer →
    ∀ i < min oldSize newSize, s'.memory (newPointer + i) = s.memory (pointer + i)

/-! ## The invariant -/

def roomOf (r : Region) : Region := ⟨r.start, alignSize r.size⟩

def HeldIn (blocks : List Block) (r : Region) : Prop :=
  (0 < r.size ∧ r.size + (arenaAlign - 1) ≤ sizeMax) ∧ ∃ block ∈ blocks, (roomOf r).Within ⟨block.data, block.used⟩

structure Inv (blocks : List Block) (live : List Region) : Prop where
  block : ∀ block ∈ blocks, block.used ≤ block.capacity ∧ blockHeader + block.capacity ≤ sizeMax
  blocksApart : blocks.Pairwise fun block block' => block.extent.Apart block'.extent
  held : ∀ r ∈ live, HeldIn blocks r
  roomsApart : live.Pairwise fun r r' => (roomOf r).Apart (roomOf r')

theorem extent_eq {block : Block} (h : blockHeader + block.capacity ≤ sizeMax) :
    block.extent = ⟨block.address, blockHeader + block.capacity⟩ := by
  unfold Block.extent totalSize
  rw [addSize_eq h]

theorem within_extent {block : Block} (h : block.used ≤ block.capacity ∧ blockHeader + block.capacity ≤ sizeMax) {r : Region}
    (hr : r.Within ⟨block.data, block.used⟩) : r.Within block.extent := by
  rw [extent_eq h.2]
  unfold Within Block.data blockHeader at *
  dsimp only at *
  omega

theorem within_roomOf {r : Region} (h : r.size + (arenaAlign - 1) ≤ sizeMax) : r.Within (roomOf r) :=
  ⟨Nat.le_refl _, Nat.add_le_add_left (alignSize_spec h).1 _⟩

variable {blocks rest : List Block} {current : Block} {live : List Region}

theorem Inv.sound {s : World} (h : Inv s.arena.blocks s.live) : Sound s where
  used block hblock := (h.block block hblock).1
  inside r hr := by
    obtain ⟨⟨-, hround⟩, block, hblock, hroom⟩ := h.held r hr
    refine ⟨block, hblock, (within_roomOf hround).trans (hroom.trans ⟨Nat.le_refl _, ?_⟩)⟩
    exact Nat.add_le_add_left (h.block block hblock).1 _
  apart := by
    refine h.roomsApart.imp_of_mem fun hr hr' hapart => ?_
    exact hapart.within (within_roomOf (h.held _ hr).1.2) (within_roomOf (h.held _ hr').1.2)

theorem Inv.perm (h : Inv blocks live) {live' : List Region} (hperm : live.Perm live') : Inv blocks live' where
  block := h.block
  blocksApart := h.blocksApart
  held r hr := h.held r (hperm.mem_iff.mpr hr)
  roomsApart := (hperm.pairwise_iff fun hapart => hapart.symm).mp h.roomsApart

theorem Inv.tail {r : Region} (h : Inv blocks (r :: live)) : Inv blocks live where
  block := h.block
  blocksApart := h.blocksApart
  held r' hr' := h.held r' (List.mem_cons_of_mem _ hr')
  roomsApart := (List.pairwise_cons.mp h.roomsApart).2

theorem Inv.push (h : Inv blocks live) {address capacity : Nat} (htotal : blockHeader + capacity ≤ sizeMax)
    (hfresh : ∀ block ∈ blocks, Apart ⟨address, totalSize capacity⟩ block.extent) :
    Inv (⟨address, 0, capacity⟩ :: blocks) live where
  block := List.forall_mem_cons.mpr ⟨⟨Nat.zero_le _, htotal⟩, h.block⟩
  blocksApart := List.pairwise_cons.mpr ⟨hfresh, h.blocksApart⟩
  held r hr := by
    obtain ⟨hsize, block, hblock, hroom⟩ := h.held r hr
    exact ⟨hsize, block, List.mem_cons_of_mem _ hblock, hroom⟩
  roomsApart := h.roomsApart

/-- A region is at the top of the current block, with the rooms of the others in it below. -/
theorem Inv.resize (h : Inv (current :: rest) live) {pointer size used : Nat} (hsize : size ≠ 0)
    (hround : size + (arenaAlign - 1) ≤ sizeMax) (hstart : current.data ≤ pointer)
    (hused : current.data + used = pointer + alignSize size) (hroom : used ≤ current.capacity)
    (hbelow : ∀ r ∈ live, (roomOf r).Within ⟨current.data, current.used⟩ → r.start + alignSize r.size ≤ pointer) :
    Inv ({ current with used } :: rest) (⟨pointer, size⟩ :: live) := by
  obtain ⟨hcurrent, hrest⟩ := List.forall_mem_cons.mp h.block
  obtain ⟨hapart, hrestApart⟩ := List.pairwise_cons.mp h.blocksApart
  have hnew : (roomOf ⟨pointer, size⟩).Within ⟨current.data, used⟩ := ⟨hstart, Nat.le_of_eq hused.symm⟩
  refine ⟨List.forall_mem_cons.mpr ⟨⟨hroom, hcurrent.2⟩, hrest⟩, List.pairwise_cons.mpr ⟨hapart, hrestApart⟩,
    List.forall_mem_cons.mpr ⟨⟨⟨Nat.pos_of_ne_zero hsize, hround⟩, _, List.mem_cons_self, hnew⟩, fun r hr => ?_⟩,
    List.pairwise_cons.mpr ⟨fun r hr => ?_, h.roomsApart⟩⟩
  · obtain ⟨hr', block, hblock, hheld⟩ := h.held r hr
    rcases List.mem_cons.mp hblock with rfl | hblock
    · refine ⟨hr', _, List.mem_cons_self, hheld.1, ?_⟩
      have hend := hbelow r hr hheld
      show r.start + alignSize r.size ≤ block.data + used
      omega
    · exact ⟨hr', block, List.mem_cons_of_mem _ hblock, hheld⟩
  · obtain ⟨-, block, hblock, hheld⟩ := h.held r hr
    rcases List.mem_cons.mp hblock with rfl | hmem
    · exact .inr (hbelow r hr hheld)
    · have hextent : (roomOf ⟨pointer, size⟩).Within current.extent :=
        @within_extent { current with used } ⟨hroom, hcurrent.2⟩ _ hnew
      exact (hapart block hmem).within hextent (within_extent (h.block block hblock) hheld)

/-- A region is put on top of the current block. -/
theorem Inv.reserve (h : Inv (current :: rest) live) {size : Nat} (hsize : size ≠ 0) (hround : size + (arenaAlign - 1) ≤ sizeMax)
    (hroom : current.used + alignSize size ≤ current.capacity) :
    Inv ({ current with used := current.used + alignSize size } :: rest) (⟨current.data + current.used, size⟩ :: live) :=
  h.resize hsize hround (Nat.le_add_right _ _) (Nat.add_assoc _ _ _).symm hroom fun _ _ hheld => hheld.2

theorem Inv.shrink {pointer oldSize newSize : Nat} (h : Inv blocks (⟨pointer, oldSize⟩ :: live)) (hne : newSize ≠ 0)
    (hle : newSize ≤ oldSize) : Inv blocks (⟨pointer, newSize⟩ :: live) := by
  obtain ⟨⟨⟨-, hround⟩, block, hblock, hroom⟩, hheld⟩ := List.forall_mem_cons.mp h.held
  obtain ⟨hapart, hrooms⟩ := List.pairwise_cons.mp h.roomsApart
  have hwithin : (roomOf ⟨pointer, newSize⟩).Within (roomOf ⟨pointer, oldSize⟩) :=
    ⟨Nat.le_refl _, Nat.add_le_add_left (alignSize_mono hle hround) _⟩
  have hround' : newSize + (arenaAlign - 1) ≤ sizeMax := Nat.le_trans (Nat.add_le_add_right hle _) hround
  refine ⟨h.block, h.blocksApart, List.forall_mem_cons.mpr ⟨⟨⟨?_, hround'⟩, block, hblock, hwithin.trans hroom⟩, hheld⟩,
    List.pairwise_cons.mpr ⟨fun r hr => ?_, hrooms⟩⟩
  · exact Nat.pos_of_ne_zero hne
  · exact (hapart r hr).within hwithin ⟨Nat.le_refl _, Nat.le_refl _⟩

theorem Inv.topmost {r : Region} (h : Inv (current :: rest) live) (hr : r ∈ live)
    (htop : r.start + alignSize r.size = current.data + current.used) : (roomOf r).Within ⟨current.data, current.used⟩ := by
  obtain ⟨⟨hpos, hround⟩, block, hblock, hroom⟩ := h.held r hr
  rcases List.mem_cons.mp hblock with rfl | hmem
  · exact hroom
  · -- the memory of another block would overlap that of the current one
    exfalso
    have hsize := (alignSize_spec hround).1
    have hcurrent := h.block current List.mem_cons_self
    have hother := h.block block hblock
    have hapart := (List.pairwise_cons.mp h.blocksApart).1 block hmem
    rw [extent_eq hcurrent.2, extent_eq hother.2] at hapart
    unfold Apart Within roomOf Block.data blockHeader at *
    dsimp only at *
    omega

theorem Inv.extend {pointer oldSize newSize : Nat} (h : Inv (current :: rest) (⟨pointer, oldSize⟩ :: live))
    (hlt : oldSize < newSize) (hround : newSize + (arenaAlign - 1) ≤ sizeMax)
    (htop : pointer + alignSize oldSize = current.data + current.used)
    (hroom : current.used + (alignSize newSize - alignSize oldSize) ≤ current.capacity) :
    Inv ({ current with used := current.used + (alignSize newSize - alignSize oldSize) } :: rest)
      (⟨pointer, newSize⟩ :: live) := by
  have hmono := alignSize_mono (Nat.le_of_lt hlt) hround
  have hold := h.topmost List.mem_cons_self htop
  obtain ⟨hapart, -⟩ := List.pairwise_cons.mp h.roomsApart
  refine h.tail.resize (Nat.ne_of_gt (Nat.zero_lt_of_lt hlt)) hround hold.1 (by omega) hroom fun r hr hheld => ?_
  -- what is apart from the top and yet in use is below it
  have hbelow : pointer + alignSize oldSize ≤ r.start ∨ r.start + alignSize r.size ≤ pointer := hapart r hr
  have hpositive := (h.held r (List.mem_cons_of_mem _ hr)).1
  have hsize := (alignSize_spec hpositive.2).1
  have hend : r.start + alignSize r.size ≤ current.data + current.used := hheld.2
  omega

/-! ## Steps -/

theorem Inv.allocated {arena arena' : Arena} {memory memory' : Nat → UInt8} {size : Nat} {grant : Option Grant}
    {result : Option Nat} (h : Inv arena.blocks live) (hround : size ≠ 0 → size + (arenaAlign - 1) ≤ sizeMax)
    (hfresh : ∀ given ∈ grant, ∀ capacity ∈ blockCapacity arena.options (alignSize size), ∀ block ∈ arena.blocks,
      Apart ⟨given.address, totalSize capacity⟩ block.extent)
    (halloc : Allocated arena memory size grant arena' memory' result) :
    Inv arena'.blocks (result.elim live fun pointer => ⟨pointer, size⟩ :: live) ∧
      ∀ r ∈ live, ∀ i < r.size, memory' (r.start + i) = memory (r.start + i) := by
  cases halloc with
  | refused => exact ⟨h, fun _ _ _ _ => rfl⟩
  | @inBlock current rest _ hsize hblocks hroom _ hblocks' =>
    rw [hblocks']
    rw [hblocks] at h
    exact ⟨h.reserve hsize (hround hsize) hroom, fun _ _ _ _ => rfl⟩
  | @newBlock given capacity _ hsize hgrant hroom hcapacity htotal _ hblocks =>
    have hapart := hfresh given hgrant capacity hcapacity
    have hpushed := h.push htotal hapart
    have hreserved := hpushed.reserve hsize (hround hsize) (show 0 + alignSize size ≤ capacity by omega)
    rw [hblocks]
    dsimp only at hreserved
    rw [Nat.zero_add] at hreserved
    refine ⟨hreserved, fun r hr i hi => ?_⟩
    obtain ⟨⟨-, hsize⟩, block, hblock, hheld⟩ := h.held r hr
    have hextent := (within_roomOf hsize).trans (within_extent (h.block block hblock) hheld)
    have hblockApart := hapart block hblock
    rw [show totalSize capacity = blockHeader + capacity from addSize_eq htotal] at hblockApart
    exact overwrite_outside (hblockApart.within ⟨Nat.le_refl _, Nat.le_refl _⟩ hextent) hi

theorem step_alloc {s s' : World} {size : Nat} {grant : Option Grant} {result : Option Nat} (h : Inv s.arena.blocks s.live)
    (hgiven : Given s size grant) (hfits : AllocFits s.arena size)
    (hrespond : respond s (.alloc size) grant = some (s', result)) :
    Inv s'.arena.blocks s'.live ∧ ∀ pointer ∈ result, ⟨pointer, size⟩ ∈ s'.live := by
  obtain ⟨arena', memory', result', heq, halloc⟩ := arenaAlloc_eq hfits s.memory grant
  unfold respond at hrespond
  dsimp only at hrespond
  rw [heq] at hrespond
  cases hrespond
  refine ⟨(h.allocated (fun hsize => (hfits hsize).1) hgiven halloc).1, ?_⟩
  rintro pointer ⟨⟩
  exact List.mem_cons_self

theorem step_realloc {s s' : World} {pointer oldSize newSize : Nat} {grant : Option Grant} {result : Option Nat}
    (h : Inv s.arena.blocks s.live) (howned : ⟨pointer, oldSize⟩ ∈ s.live) (hgiven : Given s newSize grant)
    (hfits : ReallocFits s.arena (some pointer) oldSize newSize)
    (hrespond : respond s (.realloc (some pointer) oldSize newSize) grant = some (s', result)) :
    Inv s'.arena.blocks s'.live ∧ ∀ newPointer ∈ result, ⟨newPointer, newSize⟩ ∈ s'.live ∧
      ∀ i < min oldSize newSize, s'.memory (newPointer + i) = s.memory (pointer + i) := by
  obtain ⟨arena', memory', result', heq, hrealloc⟩ := arenaRealloc_eq hfits s.memory grant
  have hperm := List.perm_cons_erase howned
  have hold := h.perm hperm
  unfold respond at hrespond
  dsimp only at hrespond
  rw [heq] at hrespond
  cases hrespond
  cases hrealloc with
  | refused => exact ⟨h, nofun⟩
  | shrunk hne hle =>
    refine ⟨hold.shrink hne hle, ?_⟩
    rintro newPointer ⟨⟩
    exact ⟨List.mem_cons_self, fun _ _ => rfl⟩
  | @extended current rest _ hlt hround hblocks htop hroom _ hblocks' =>
    rw [hblocks] at hold
    refine ⟨?_, ?_⟩
    · show Inv arena'.blocks _
      rw [hblocks']
      exact hold.extend hlt hround htop hroom
    · rintro newPointer ⟨⟩
      exact ⟨List.mem_cons_self, fun _ _ => rfl⟩
  | @moved _ copied newPointer hlt halloc =>
    have hround : newSize ≠ 0 → newSize + (arenaAlign - 1) ≤ sizeMax := fun _ => (hfits hlt).1
    obtain ⟨hinv, hkept⟩ := h.allocated hround hgiven halloc
    refine ⟨(hinv.perm ((hperm.cons _).trans (.swap _ _ _))).tail, ?_⟩
    rintro _ ⟨⟩
    refine ⟨List.mem_cons_self, fun i hi => ?_⟩
    have hcopy : memcpy copied newPointer pointer oldSize (newPointer + i) = copied (pointer + i) := by
      unfold memcpy overwrite
      dsimp only
      rw [if_pos (by omega), Nat.add_sub_cancel_left]
    exact hcopy.trans (hkept ⟨pointer, oldSize⟩ howned i (Nat.lt_of_lt_of_le hi (Nat.min_le_left _ _)))

theorem inv_step {s s' : World} {e : Event} (h : Inv s.arena.blocks s.live) (hstep : Step s e s') (hfits : CallFits s e) :
    Inv s'.arena.blocks s'.live ∧ Answers e s' ∧ Preserves s e s' := by
  obtain ⟨howned, hgiven, hrespond⟩ := hstep
  obtain ⟨call, grant, result⟩ := e
  cases call with
  | alloc size =>
    obtain ⟨hinv, hanswers⟩ := step_alloc h hgiven hfits hrespond
    exact ⟨hinv, hanswers, fun _ _ _ _ hcall => nomatch hcall⟩
  | realloc pointer oldSize newSize =>
    cases pointer with
    | none =>
      have hgiven' : Given s newSize grant := hgiven
      obtain ⟨hinv, hanswers⟩ := step_alloc h hgiven' hfits hrespond
      exact ⟨hinv, hanswers, fun _ _ _ _ hcall => nomatch hcall⟩
    | some pointer =>
      obtain ⟨hinv, hall⟩ := step_realloc h (howned pointer rfl) hgiven hfits hrespond
      refine ⟨hinv, fun newPointer hresult => (hall newPointer hresult).1, ?_⟩
      rintro _ _ _ newPointer ⟨⟩ hresult
      exact (hall newPointer hresult).2
  | write region contents =>
    cases hrespond
    exact ⟨h, nofun, fun _ _ _ _ hcall => nomatch hcall⟩

theorem inv_run {options : ArenaOptions} {memory : Nat → UInt8} {es : List Event} {s : World}
    (h : Run (Restrict Step CallFits) (freshWorld options memory) es s) : Inv s.arena.blocks s.live := by
  refine h.invariant (I := fun s => Inv s.arena.blocks s.live) (fun s e s' hinv hstep => (inv_step hinv hstep.1 hstep.2).1) ?_
  exact ⟨nofun, .nil, nofun, .nil⟩

/-- If no sum wraps, regions are in blocks and apart, and reallocations keep bytes. -/
theorem arena_sound {options : ArenaOptions} {memory : Nat → UInt8} {es : List Event} {s : World}
    (h : Run (Restrict Step CallFits) (freshWorld options memory) es s) :
    Sound s ∧ ∀ e s', Step s e s' → CallFits s e → Sound s' ∧ Answers e s' ∧ Preserves s e s' := by
  have hinv := inv_run h
  refine ⟨hinv.sound, fun e s' hstep hfits => ?_⟩
  obtain ⟨hinv', hanswers, hpreserves⟩ := inv_step hinv hstep hfits
  exact ⟨hinv'.sound, hanswers, hpreserves⟩

/-! ## Two arenas -/

/-- The sizes of `bebop_context_options` -/
def defaultArena : World := freshWorld ⟨4096, 1048576⟩ fun _ => 0

def firstGrant : Grant := ⟨65536, fun _ => 0⟩

def afterFirst (size : Nat) : World :=
  ⟨⟨⟨4096, 1048576⟩, [⟨65536, 32, 4096⟩], 4120, 32⟩, overwrite (fun _ => 0) ⟨65536, 4120⟩ fun _ => 0, [⟨65560, size⟩]⟩

theorem defaultArena_alloc : Restrict Step CallFits defaultArena ⟨.alloc 24, some firstGrant, some 65560⟩ (afterFirst 24) := by
  refine ⟨⟨trivial, fun _ _ _ _ _ hblock => ?_, rfl⟩, fun _ => ⟨by decide, nofun, ?_⟩⟩
  · cases hblock
  · rintro - capacity ⟨⟩
    decide

theorem arena_sound_alloc : Sound (afterFirst 24) :=
  (arena_sound (.cons defaultArena_alloc (.nil _))).1

/-- Eight bytes less than all of the memory are rounded to nothing. -/
theorem arena_wraps : ∃ s, Run Step defaultArena
    [⟨.alloc 24, some firstGrant, some 65560⟩, ⟨.alloc (2 ^ 64 - 8), none, some 65592⟩] s ∧ ¬Sound s := by
  refine ⟨_, .cons defaultArena_alloc.1 (.cons ⟨trivial, nofun, rfl⟩ (.nil _)), fun hsound => ?_⟩
  obtain ⟨block, hblock, hwithin⟩ := hsound.inside ⟨65592, 2 ^ 64 - 8⟩ List.mem_cons_self
  obtain rfl := List.mem_singleton.mp hblock
  revert hwithin
  decide

end Bebop.C
