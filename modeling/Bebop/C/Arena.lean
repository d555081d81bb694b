import Bebop.C.MessageIndex
import Bebop.Lib.Regions

/-!
# Bebop — the arena of the C runtime

`bebop_wire_arena_alloc` and `bebop_wire_arena_realloc` of `bebop_wire.c`, in the build for
one thread. An arena is the list of its blocks, the current one first. An address is a
number; what the allocator of the options gives for a block, and the contents of that
memory, are an input of each call. The roundings and sums of `size_t` wrap.
-/

namespace Bebop.C

open Region

/-- `bebop_wire_arena_block_impl_t`, without `next` -/
structure Block where
  address : Nat
  used : Nat
  capacity : Nat
  deriving DecidableEq, Repr

/-- `Bebop_ArenaOptions`, without the allocator -/
structure ArenaOptions where
  initialBlockSize : Nat
  maxBlockSize : Nat

/-- `bebop_wire_arena_impl_t` -/
structure Arena where
  options : ArenaOptions
  blocks : List Block
  totalAllocated : Nat
  totalUsed : Nat

/-- A block that the allocator gives, and what is in it. -/
structure Grant where
  address : Nat
  contents : Nat → UInt8

/-- `sizeof(bebop_wire_arena_block_impl_t)`: a pointer and two sizes. -/
def blockHeader : Nat := 24

/-- `BEBOP_ARENA_ALIGN` -/
def arenaAlign : Nat := 16

/-- A sum in `size_t`. -/
def addSize (a b : Nat) : Nat := (a + b) % (sizeMax + 1)

/-- A difference in `size_t`. -/
def subSize (a b : Nat) : Nat := (a + (sizeMax + 1) - b) % (sizeMax + 1)

/-- `bebop_wire_align_size`, where the mask takes the remainder away. -/
def alignSize (size : Nat) : Nat :=
  let sum := addSize size (arenaAlign - 1)
  sum - sum % arenaAlign

/-- The first byte behind the header, `current + 1`. -/
def Block.data (block : Block) : Nat := block.address + blockHeader

/-- The capacity that `bebop_wire_arena_allocate_block` chooses. -/
def blockCapacity (options : ArenaOptions) (minSize : Nat) : Option Nat :=
  let required := alignSize minSize
  if required > options.maxBlockSize then none
  else
    let capacity := if options.initialBlockSize < required then required else options.initialBlockSize
    some (if capacity > options.maxBlockSize then options.maxBlockSize else capacity)

/-- What the allocator is asked for, `total_size`. -/
def totalSize (capacity : Nat) : Nat := addSize blockHeader capacity

def Block.extent (block : Block) : Region := ⟨block.address, totalSize block.capacity⟩

/-- `bebop_wire_arena_allocate_block` -/
def allocateBlock (options : ArenaOptions) (minSize : Nat) (grant : Option Grant) : Option Block :=
  (blockCapacity options minSize).bind fun capacity => grant.map fun grant => ⟨grant.address, 0, capacity⟩

variable (arena : Arena)

/-- The second half of the loop: room in the current block, or another turn. -/
def takeRoom (alignedSize : Nat) : Option (Arena × Nat) :=
  match arena.blocks with
  | [] => none
  | current :: rest =>
    if addSize current.used alignedSize ≤ current.capacity then
      some ({ arena with
        blocks := { current with used := addSize current.used alignedSize } :: rest
        totalUsed := addSize arena.totalUsed alignedSize }, current.data + current.used)
    else none

/-- There is no current block, or not enough room in it. -/
def needsBlock (alignedSize : Nat) : Bool :=
  match arena.blocks with
  | [] => true
  | current :: _ => addSize current.used alignedSize > current.capacity

/-- `bebop_wire_arena_alloc`, unless the loop goes round again. -/
def arenaAlloc (memory : Nat → UInt8) (size : Nat) (grant : Option Grant) :
    Option (Arena × (Nat → UInt8) × Option Nat) :=
  if size = 0 then some (arena, memory, none)
  else
    let alignedSize := alignSize size
    if needsBlock arena alignedSize then
      match allocateBlock arena.options alignedSize grant, grant with
      | some block, some grant =>
        let arena := { arena with
          blocks := block :: arena.blocks
          totalAllocated := addSize arena.totalAllocated (totalSize block.capacity) }
        (takeRoom arena alignedSize).map fun (arena, pointer) =>
          (arena, overwrite memory block.extent grant.contents, some pointer)
      | _, _ => some (arena, memory, none)
    else (takeRoom arena alignedSize).map fun (arena, pointer) => (arena, memory, some pointer)

/-- `memcpy` -/
def memcpy (memory : Nat → UInt8) (target source size : Nat) : Nat → UInt8 :=
  overwrite memory ⟨target, size⟩ fun address => memory (source + (address - target))

/-- The current block after the topmost allocation, of `pointer`, has been extended in place. -/
def extendInPlace (pointer oldSize newSize : Nat) : Option Arena :=
  match arena.blocks with
  | [] => none
  | current :: rest =>
    if pointer + alignSize oldSize = current.data + current.used then
      let extra := subSize (alignSize newSize) (alignSize oldSize)
      if addSize current.used extra ≤ current.capacity then
        some { arena with
          blocks := { current with used := addSize current.used extra } :: rest
          totalUsed := addSize arena.totalUsed extra }
      else none
    else none

/-- `bebop_wire_arena_realloc` -/
def arenaRealloc (memory : Nat → UInt8) (pointer : Option Nat) (oldSize newSize : Nat)
    (grant : Option Grant) : Option (Arena × (Nat → UInt8) × Option Nat) :=
  match pointer with
  | none => arenaAlloc arena memory newSize grant
  | some pointer =>
    if newSize = 0 then some (arena, memory, none)
    else if newSize ≤ oldSize then some (arena, memory, some pointer)
    else
      match extendInPlace arena pointer oldSize newSize with
      | some arena => some (arena, memory, some pointer)
      | none =>
        (arenaAlloc arena memory newSize grant).map fun (arena, memory, newPointer) =>
          match newPointer with
          | some newPointer => (arena, memcpy memory newPointer pointer oldSize, some newPointer)
          | none => (arena, memory, none)

/-! ## Sizes -/

theorem addSize_eq {a b : Nat} (h : a + b ≤ sizeMax) : addSize a b = a + b :=
  Nat.mod_eq_of_lt (by omega)

theorem alignSize_spec {size : Nat} (h : size + (arenaAlign - 1) ≤ sizeMax) :
    size ≤ alignSize size ∧ alignSize size < size + arenaAlign ∧ alignSize size % arenaAlign = 0 ∧
      alignSize size + (arenaAlign - 1) ≤ sizeMax := by
  unfold alignSize
  rw [addSize_eq h]
  unfold arenaAlign sizeMax at *
  dsimp only
  omega

theorem alignSize_self {size : Nat} (hsize : size % arenaAlign = 0) (h : size + (arenaAlign - 1) ≤ sizeMax) :
    alignSize size = size := by
  obtain ⟨hle, hlt, hmod, -⟩ := alignSize_spec h
  unfold arenaAlign at *
  omega

theorem alignSize_mono {size size' : Nat} (hle : size ≤ size') (h : size' + (arenaAlign - 1) ≤ sizeMax) :
    alignSize size ≤ alignSize size' := by
  have hspec := alignSize_spec h
  have hspec' := alignSize_spec (Nat.le_trans (Nat.add_le_add_right hle _) h)
  unfold arenaAlign at *
  omega

theorem le_blockCapacity {options : ArenaOptions} {minSize capacity : Nat} (hsize : minSize % arenaAlign = 0)
    (h : minSize + (arenaAlign - 1) ≤ sizeMax) (hcapacity : blockCapacity options minSize = some capacity) :
    minSize ≤ capacity := by
  unfold blockCapacity at hcapacity
  rw [alignSize_self hsize h] at hcapacity
  dsimp only at hcapacity
  split at hcapacity
  · cases hcapacity
  · obtain rfl := Option.some.inj hcapacity
    by_cases hinitial : options.initialBlockSize < minSize
    · rw [if_pos hinitial]
      split <;> omega
    · rw [if_neg hinitial]
      split <;> omega

/-! ## Calls for which nothing wraps -/

/-- No sum of an allocation wraps: rounding, end of the region, size of a new block. -/
def AllocFits (size : Nat) : Prop :=
  size ≠ 0 → size + (arenaAlign - 1) ≤ sizeMax ∧
    (∀ current ∈ arena.blocks.head?, current.used + alignSize size ≤ sizeMax) ∧
    (needsBlock arena (alignSize size) → ∀ capacity ∈ blockCapacity arena.options (alignSize size),
      blockHeader + capacity ≤ sizeMax)

/-- What an allocation does: nothing, or it takes room in the current block, or in a new one. -/
inductive Allocated (arena : Arena) (memory : Nat → UInt8) (size : Nat) (grant : Option Grant) :
    Arena → (Nat → UInt8) → Option Nat → Prop
  | refused : Allocated arena memory size grant arena memory none
  | inBlock {current rest arena'} : size ≠ 0 → arena.blocks = current :: rest →
      current.used + alignSize size ≤ current.capacity → arena'.options = arena.options →
      arena'.blocks = { current with used := current.used + alignSize size } :: rest →
      Allocated arena memory size grant arena' memory (some (current.data + current.used))
  | newBlock {given capacity arena'} : size ≠ 0 → grant = some given → alignSize size ≤ capacity →
      blockCapacity arena.options (alignSize size) = some capacity → blockHeader + capacity ≤ sizeMax →
      arena'.options = arena.options → arena'.blocks = ⟨given.address, alignSize size, capacity⟩ :: arena.blocks →
      Allocated arena memory size grant arena' (overwrite memory ⟨given.address, blockHeader + capacity⟩ given.contents)
        (some (given.address + blockHeader))

theorem takeRoom_eq {arena : Arena} {current : Block} {rest : List Block} {alignedSize : Nat}
    (hblocks : arena.blocks = current :: rest) (hsum : current.used + alignedSize ≤ sizeMax)
    (hroom : current.used + alignedSize ≤ current.capacity) : ∃ arena', takeRoom arena alignedSize =
      some (arena', current.data + current.used) ∧ arena'.options = arena.options ∧
        arena'.blocks = { current with used := current.used + alignedSize } :: rest := by
  unfold takeRoom
  rw [hblocks]
  dsimp only
  rw [addSize_eq hsum, if_pos hroom]
  exact ⟨_, rfl, rfl, rfl⟩

theorem arenaAlloc_eq {arena : Arena} {size : Nat} (h : AllocFits arena size) (memory : Nat → UInt8)
    (grant : Option Grant) : ∃ arena' memory' result,
      arenaAlloc arena memory size grant = some (arena', memory', result) ∧
        Allocated arena memory size grant arena' memory' result := by
  unfold arenaAlloc
  by_cases hsize : size = 0
  · exact ⟨arena, memory, none, if_pos hsize, .refused⟩
  rw [if_neg hsize]
  obtain ⟨hround, hcurrent, hblock⟩ := h hsize
  obtain ⟨hle, -, hmod, hrounded⟩ := alignSize_spec hround
  dsimp only
  split
  · rename_i hneeds
    unfold allocateBlock
    cases hcapacity : blockCapacity arena.options (alignSize size) with
    | none => exact ⟨arena, memory, none, rfl, .refused⟩
    | some capacity =>
      cases grant with
      | none => exact ⟨arena, memory, none, rfl, .refused⟩
      | some given =>
        have hroom := le_blockCapacity hmod hrounded hcapacity
        have htotal := hblock hneeds capacity hcapacity
        have hextent : totalSize capacity = blockHeader + capacity := addSize_eq htotal
        let pushed : Arena := { arena with
          blocks := ⟨given.address, 0, capacity⟩ :: arena.blocks
          totalAllocated := addSize arena.totalAllocated (totalSize capacity) }
        obtain ⟨arena', htake, hoptions, hblocks⟩ := takeRoom_eq (show pushed.blocks = ⟨given.address, 0, capacity⟩ :: arena.blocks from rfl)
          (show 0 + alignSize size ≤ sizeMax by omega) (show 0 + alignSize size ≤ capacity by omega)
        refine ⟨arena', overwrite memory ⟨given.address, blockHeader + capacity⟩ given.contents, some (given.address + blockHeader), ?_, ?_⟩
        · show (takeRoom pushed (alignSize size)).map _ = _
          rw [htake, Option.map_some, ← hextent]
          rfl
        · rw [Nat.zero_add] at hblocks
          exact .newBlock hsize rfl hroom hcapacity htotal hoptions hblocks
  · rename_i hneeds
    unfold needsBlock at hneeds
    cases hblocks : arena.blocks with
    | nil =>
      rw [hblocks] at hneeds
      exact absurd rfl hneeds
    | cons current rest =>
      have hsum := hcurrent current (by rw [hblocks]; rfl)
      rw [hblocks] at hneeds
      dsimp only at hneeds
      rw [addSize_eq hsum, decide_eq_true_eq, Nat.not_lt] at hneeds
      obtain ⟨arena', htake, hoptions, hblocks'⟩ := takeRoom_eq hblocks hsum hneeds
      exact ⟨arena', memory, _, by rw [htake]; rfl, .inBlock hsize hblocks hneeds hoptions hblocks'⟩

/-- The current block has the region of this pointer and size at its top, and room for more. -/
def ExtendsInPlace (pointer oldSize newSize : Nat) : Prop :=
  (extendInPlace arena pointer oldSize newSize).isSome

/-- No sum of a reallocation wraps: neither the rounding of the new size, nor the end of the
region if it is at the top of the current block, nor a sum of the allocation if one is made. -/
def ReallocFits (pointer : Option Nat) (oldSize newSize : Nat) : Prop :=
  match pointer with
  | none => AllocFits arena newSize
  | some pointer => oldSize < newSize → newSize + (arenaAlign - 1) ≤ sizeMax ∧
      (∀ current ∈ arena.blocks.head?, pointer + alignSize oldSize = current.data + current.used →
        current.used + (alignSize newSize - alignSize oldSize) ≤ sizeMax) ∧
      (¬ExtendsInPlace arena pointer oldSize newSize → AllocFits arena newSize)

/-- What a reallocation does besides: nothing, it extends the region, or it moves it. -/
inductive Reallocated (arena : Arena) (memory : Nat → UInt8) (pointer oldSize newSize : Nat) (grant : Option Grant) :
    Arena → (Nat → UInt8) → Option Nat → Prop
  | refused : Reallocated arena memory pointer oldSize newSize grant arena memory none
  | shrunk : newSize ≠ 0 → newSize ≤ oldSize →
      Reallocated arena memory pointer oldSize newSize grant arena memory (some pointer)
  | extended {current rest arena'} : oldSize < newSize → newSize + (arenaAlign - 1) ≤ sizeMax →
      arena.blocks = current :: rest → pointer + alignSize oldSize = current.data + current.used →
      current.used + (alignSize newSize - alignSize oldSize) ≤ current.capacity → arena'.options = arena.options →
      arena'.blocks = { current with used := current.used + (alignSize newSize - alignSize oldSize) } :: rest →
      Reallocated arena memory pointer oldSize newSize grant arena' memory (some pointer)
  | moved {arena' memory' newPointer} : oldSize < newSize →
      Allocated arena memory newSize grant arena' memory' (some newPointer) →
      Reallocated arena memory pointer oldSize newSize grant arena' (memcpy memory' newPointer pointer oldSize) (some newPointer)

theorem extendInPlace_eq_some {arena arena' : Arena} {pointer oldSize newSize : Nat} (hle : oldSize < newSize)
    (hround : newSize + (arenaAlign - 1) ≤ sizeMax)
    (hsum : ∀ current ∈ arena.blocks.head?, pointer + alignSize oldSize = current.data + current.used →
      current.used + (alignSize newSize - alignSize oldSize) ≤ sizeMax)
    (h : extendInPlace arena pointer oldSize newSize = some arena') (memory : Nat → UInt8) (grant : Option Grant) :
    Reallocated arena memory pointer oldSize newSize grant arena' memory (some pointer) := by
  unfold extendInPlace at h
  split at h
  · cases h
  · rename_i current rest hblocks
    split at h
    · rename_i htop
      have hle' := alignSize_mono (Nat.le_of_lt hle) hround
      have hnew := (alignSize_spec hround).2.2.2
      have hextra : subSize (alignSize newSize) (alignSize oldSize) = alignSize newSize - alignSize oldSize := by
        unfold subSize
        rw [show alignSize newSize + (sizeMax + 1) - alignSize oldSize =
          alignSize newSize - alignSize oldSize + (sizeMax + 1) by omega, Nat.add_mod_right]
        exact Nat.mod_eq_of_lt (by omega)
      have hfits := hsum current (by rw [hblocks]; rfl) htop
      dsimp only at h
      rw [hextra, addSize_eq hfits] at h
      split at h
      · rename_i hroom
        obtain rfl := Option.some.inj h
        exact .extended hle hround hblocks htop hroom rfl rfl
      · cases h
    · cases h

theorem arenaRealloc_eq {arena : Arena} {pointer oldSize newSize : Nat}
    (h : ReallocFits arena (some pointer) oldSize newSize) (memory : Nat → UInt8) (grant : Option Grant) : ∃ arena' memory' result,
      arenaRealloc arena memory (some pointer) oldSize newSize grant = some (arena', memory', result) ∧
        Reallocated arena memory pointer oldSize newSize grant arena' memory' result := by
  unfold arenaRealloc
  dsimp only
  by_cases hzero : newSize = 0
  · exact ⟨arena, memory, none, if_pos hzero, .refused⟩
  rw [if_neg hzero]
  by_cases hle : newSize ≤ oldSize
  · exact ⟨arena, memory, some pointer, if_pos hle, .shrunk hzero hle⟩
  rw [if_neg hle]
  obtain ⟨hround, hsum, halloc⟩ := h (Nat.not_le.mp hle)
  cases hextend : extendInPlace arena pointer oldSize newSize with
  | some arena' => exact ⟨arena', memory, some pointer, rfl, extendInPlace_eq_some (Nat.not_le.mp hle) hround hsum hextend memory grant⟩
  | none =>
    have hnot : ¬ExtendsInPlace arena pointer oldSize newSize := by
      unfold ExtendsInPlace
      rw [hextend]
      exact nofun
    obtain ⟨arena', memory', result, heq, hallocated⟩ := arenaAlloc_eq (halloc hnot) memory grant
    dsimp only
    rw [heq]
    cases result with
    | some newPointer => exact ⟨arena', _, some newPointer, rfl, .moved (Nat.not_le.mp hle) hallocated⟩
    | none =>
      cases hallocated
      exact ⟨arena, memory, none, rfl, .refused⟩

end Bebop.C
