import Bebop.C.Arena

/-!
# Bebop — the arena of the compiler

`bebop_arena_alloc` and `bebop_arena_realloc` of `bebop_arena.c`. An address is a number; what
the host's allocator gives for a chunk, and the contents of that memory, are an input of each
call. The code rounds with a mask and compares sizes of 64 bits. Where a rounding wraps, the
comparison that follows refuses the room, and a new chunk is tried (`alloc_cases`).
-/

namespace Bebop.Compiler.Arena

open Region
open C (addSize subSize sizeMax Grant memcpy addSize_eq)

/-- `bebop__chunk_t`, without `next` -/
structure Chunk where
  address : Nat
  capacity : Nat
  used : Nat
  deriving DecidableEq, Repr

/-- `bebop_arena_t`, without the allocator: the current chunk and those before it. -/
structure State where
  current : Chunk
  earlier : List Chunk

/-- `BEBOP_ARENA_MIN_ALIGN`, the alignment of `max_align_t`. -/
def minAlign : Nat := 16

/-- `BEBOP_ARENA_CHUNK_SIZE` -/
def arenaChunkSize : Nat := 64 * 1024

/-- `sizeof(bebop__chunk_t)`: a pointer and two sizes. -/
def sizeofChunk : Nat := 24

/-- `bebop__align_up` and `bebop__align_ptr`. -/
def alignUp (val align : Nat) : Nat := addSize val (align - 1) &&& (sizeMax - (align - 1))

def headerSize : Nat := alignUp sizeofChunk minAlign

/-- `bebop__chunk_data`: behind the fields, not behind the header size. -/
def Chunk.data (chunk : Chunk) : Nat := chunk.address + sizeofChunk

/-- The memory that a chunk was asked for. -/
def Chunk.extent (chunk : Chunk) : Region := ⟨chunk.address, headerSize + chunk.capacity⟩

def State.chunks (arena : State) : List Chunk := arena.current :: arena.earlier

/-- The capacity that `bebop__chunk_alloc` chooses, if the size of the chunk does not wrap. -/
def chunkDataSize (minDataSize : Nat) (useDefault : Bool) : Option Nat :=
  let defaultData := arenaChunkSize - headerSize
  let dataSize := if useDefault ∧ minDataSize < defaultData then defaultData else minDataSize
  if dataSize > sizeMax - headerSize then none else some dataSize

/-- `bebop__chunk_alloc` -/
def chunkAlloc (memory : Nat → UInt8) (minDataSize : Nat) (useDefault : Bool) (grant : Option Grant) :
    Option (Chunk × (Nat → UInt8)) :=
  (chunkDataSize minDataSize useDefault).bind fun dataSize => grant.map fun given =>
    let chunk : Chunk := ⟨given.address, dataSize, 0⟩
    (chunk, overwrite memory chunk.extent given.contents)

/-- `bebop_arena_init` -/
def init (memory : Nat → UInt8) (initial : Nat) (grant : Option Grant) : Option (State × (Nat → UInt8)) :=
  let initSize := if initial > 0 then initial else arenaChunkSize
  (chunkAlloc memory initSize (initial = 0) grant).map fun (chunk, memory) => (⟨chunk, []⟩, memory)

/-- `memset` to zero. -/
def zeroed (memory : Nat → UInt8) (ptr size : Nat) : Nat → UInt8 := overwrite memory ⟨ptr, size⟩ fun _ => 0

def raisedAlign (align : Nat) : Nat := if align < minAlign then minAlign else align

/-- The end of `bebop_arena_alloc`, where there is room at the pointer. -/
def place (chunk : Chunk) (earlier : List Chunk) (memory : Nat → UInt8) (ptr size : Nat) :
    State × (Nat → UInt8) × Option Nat :=
  let offset := subSize ptr chunk.data
  (⟨{ chunk with used := addSize offset size }, earlier⟩, zeroed memory ptr size, some ptr)

/-- `bebop_arena_alloc`: the arena, the memory and the pointer. -/
def alloc (arena : State) (memory : Nat → UInt8) (size align : Nat) (grant : Option Grant) :
    State × (Nat → UInt8) × Option Nat :=
  if size = 0 then (arena, memory, none)
  else
    let align := raisedAlign align
    if size > sizeMax - align then (arena, memory, none)
    else
      let chunk := arena.current
      let ptr := alignUp (chunk.data + chunk.used) align
      let offset := subSize ptr chunk.data
      if offset > chunk.capacity ∨ size > chunk.capacity - offset then
        -- the rest of the current chunk is given up
        match chunkAlloc memory (addSize size align) true grant with
        | none => (arena, memory, none)
        | some (chunk, memory) => place chunk arena.chunks memory (alignUp chunk.data align) size
      else place chunk arena.earlier memory ptr size

/-- The region is the last one of the chunk, and there is room in the chunk for the new size. -/
def ExtendsInPlace (chunk : Chunk) (ptr oldSize newSize : Nat) : Prop :=
  ptr ≥ chunk.data ∧ ptr - chunk.data ≤ chunk.capacity ∧ oldSize ≤ chunk.used ∧
    ptr - chunk.data = chunk.used - oldSize ∧ newSize ≤ chunk.capacity - (ptr - chunk.data)

instance (chunk : Chunk) (ptr oldSize newSize : Nat) : Decidable (ExtendsInPlace chunk ptr oldSize newSize) :=
  inferInstanceAs (Decidable (_ ∧ _))

/-- `bebop_arena_malloc` -/
def malloc (arena : State) (memory : Nat → UInt8) (size : Nat) (grant : Option Grant) :
    State × (Nat → UInt8) × Option Nat :=
  alloc arena memory size minAlign grant

/-- `bebop_arena_realloc` -/
def realloc (arena : State) (memory : Nat → UInt8) (ptr : Option Nat) (oldSize newSize : Nat)
    (grant : Option Grant) : State × (Nat → UInt8) × Option Nat :=
  if newSize = 0 then (arena, memory, none)
  else
    match ptr with
    | none => malloc arena memory newSize grant
    | some ptr =>
      let chunk := arena.current
      if oldSize > 0 ∧ ExtendsInPlace chunk ptr oldSize newSize then
        (⟨{ chunk with used := addSize (ptr - chunk.data) newSize }, arena.earlier⟩,
          if newSize > oldSize then zeroed memory (ptr + oldSize) (newSize - oldSize) else memory, some ptr)
      else
        match malloc arena memory newSize grant with
        | (arena, memory, none) => (arena, memory, none)
        | (arena, memory, some newPtr) =>
          (arena, if oldSize > 0 then memcpy memory newPtr ptr (min oldSize newSize) else memory, some newPtr)

/-! ## Roundings -/

/-- What `BEBOP_ASSERT` asks of an alignment. -/
def IsAlign (align : Nat) : Prop := ∃ k < 64, align = 2 ^ k

theorem and_mask {sum k : Nat} (hk : k < 64) (hsum : sum ≤ sizeMax) :
    sum &&& (sizeMax - (2 ^ k - 1)) = 2 ^ k * (sum / 2 ^ k) := by
  have hpow : 2 ^ k * 2 ^ (64 - k) = 2 ^ 64 := by
    rw [← pow_add, Nat.add_sub_cancel' (Nat.le_of_lt hk)]
  have hmask : sizeMax - (2 ^ k - 1) = 2 ^ k * (2 ^ (64 - k) - 1) := by
    have hpos := Nat.two_pow_pos k
    unfold sizeMax
    rw [Nat.mul_sub, Nat.mul_one, hpow]
    omega
  rw [hmask]
  refine Nat.eq_of_testBit_eq fun i => ?_
  rw [Nat.testBit_and, Nat.testBit_two_pow_mul, Nat.testBit_two_pow_mul, Nat.testBit_two_pow_sub_one,
    Nat.testBit_div_two_pow]
  by_cases hi : i < 64
  · by_cases hle : k ≤ i
    · have hlt : i - k < 64 - k := by omega
      rw [decide_eq_true hle, decide_eq_true hlt, Nat.sub_add_cancel hle]
      exact Bool.and_true _
    · rw [decide_eq_false hle, Bool.false_and, Bool.false_and, Bool.and_false]
  · -- no word has a bit there
    have hbit : sum.testBit i = false := by
      refine Nat.testBit_lt_two_pow (Nat.lt_of_lt_of_le (Nat.lt_succ_of_le hsum) ?_)
      exact Nat.pow_le_pow_right (Nat.zero_lt_two) (Nat.not_lt.mp hi)
    by_cases hle : k ≤ i
    · rw [Nat.sub_add_cancel hle, hbit, Bool.false_and, Bool.and_false]
    · rw [decide_eq_false hle, Bool.false_and, Bool.false_and, Bool.and_false]

theorem alignUp_spec {val align : Nat} (halign : IsAlign align) (h : val + (align - 1) ≤ sizeMax) :
    val ≤ alignUp val align ∧ alignUp val align < val + align ∧ align ∣ alignUp val align := by
  obtain ⟨k, hk, rfl⟩ := halign
  have hsum : alignUp val (2 ^ k) = 2 ^ k * ((val + (2 ^ k - 1)) / 2 ^ k) := by
    unfold alignUp
    rw [addSize_eq h]
    exact and_mask hk h
  have hpos := Nat.two_pow_pos k
  have hdiv := Nat.div_add_mod (val + (2 ^ k - 1)) (2 ^ k)
  have hmod := Nat.mod_lt (val + (2 ^ k - 1)) hpos
  rw [hsum]
  exact ⟨by omega, by omega, Nat.dvd_mul_right _ _⟩

theorem alignUp_wrapped {val align : Nat} (halign : IsAlign align) (hval : val ≤ sizeMax) (h : sizeMax < val + (align - 1)) :
    alignUp val align = 0 := by
  obtain ⟨k, hk, rfl⟩ := halign
  have hpow : 2 ^ k ≤ 2 ^ 63 := Nat.pow_le_pow_right Nat.zero_lt_two (by omega)
  have hsum : addSize val (2 ^ k - 1) < 2 ^ k := by
    unfold C.addSize sizeMax at *
    omega
  unfold alignUp
  rw [and_mask hk (by unfold sizeMax; omega), Nat.div_eq_of_lt hsum, Nat.mul_zero]

theorem isAlign_minAlign : IsAlign minAlign := ⟨4, by decide, rfl⟩

theorem raisedAlign_spec {align : Nat} (halign : IsAlign align) :
    IsAlign (raisedAlign align) ∧ align ∣ raisedAlign align ∧ minAlign ∣ raisedAlign align := by
  obtain ⟨k, hk, rfl⟩ := halign
  unfold raisedAlign
  split
  · rename_i hlt
    refine ⟨isAlign_minAlign, ?_, Nat.dvd_refl _⟩
    exact pow_dvd_pow 2 (Nat.le_of_lt ((Nat.pow_lt_pow_iff_right (a := 2) (by decide)).mp (show 2 ^ k < 2 ^ 4 from hlt)))
  · rename_i hge
    refine ⟨⟨k, hk, rfl⟩, Nat.dvd_refl _, ?_⟩
    exact pow_dvd_pow 2 ((Nat.pow_le_pow_iff_right (a := 2) (by decide)).mp (show 2 ^ 4 ≤ 2 ^ k from Nat.not_lt.mp hge))

theorem headerSize_eq : headerSize = 32 := by decide

/-! ## Calls -/

/-- A chunk lies in the address space, and no more of it is used than there is. -/
def Chunk.Ok (chunk : Chunk) : Prop :=
  chunk.used ≤ chunk.capacity ∧ chunk.extent.start + chunk.extent.size ≤ sizeMax + 1

theorem Chunk.Ok.bounds {chunk : Chunk} (h : chunk.Ok) :
    chunk.used ≤ chunk.capacity ∧ chunk.data + 8 + chunk.capacity ≤ 2 ^ 64 := by
  obtain ⟨hused, hspace⟩ := h
  unfold Chunk.extent at hspace
  rw [headerSize_eq] at hspace
  unfold Chunk.data sizeofChunk
  unfold sizeMax at hspace
  dsimp only at hspace
  exact ⟨hused, by omega⟩

theorem le_chunkDataSize {minDataSize dataSize : Nat} {useDefault : Bool}
    (h : chunkDataSize minDataSize useDefault = some dataSize) : minDataSize ≤ dataSize := by
  unfold chunkDataSize at h
  extract_lets defaultData size at h
  have hle : minDataSize ≤ size := by
    unfold size
    split <;> omega
  split at h
  · cases h
  · exact Option.some.inj h ▸ hle

/-- Room for the size at the pointer, above all that is used. -/
structure Room (chunk : Chunk) (size align ptr : Nat) : Prop where
  above : chunk.data + chunk.used ≤ ptr
  below : ptr + size ≤ chunk.data + chunk.capacity
  aligned : align ∣ ptr

theorem place_eq {chunk : Chunk} {size align ptr : Nat} (hok : chunk.Ok) (h : Room chunk size align ptr)
    (earlier : List Chunk) (memory : Nat → UInt8) : place chunk earlier memory ptr size =
      (⟨{ chunk with used := ptr - chunk.data + size }, earlier⟩, zeroed memory ptr size, some ptr) := by
  have hspace := hok.bounds.2
  have habove := h.above
  have hbelow := h.below
  have hoffset : subSize ptr chunk.data = ptr - chunk.data := by
    unfold C.subSize sizeMax
    omega
  unfold place
  dsimp only
  rw [hoffset, addSize_eq (by unfold sizeMax; omega)]

/-- The room that `bebop_arena_alloc` accepts is there, also where the rounding wraps. -/
theorem room_of_fits {chunk : Chunk} {size align : Nat} (hok : chunk.Ok) (halign : IsAlign align)
    (hfits : ¬(subSize (alignUp (chunk.data + chunk.used) align) chunk.data > chunk.capacity ∨
      size > chunk.capacity - subSize (alignUp (chunk.data + chunk.used) align) chunk.data)) :
    Room chunk size align (alignUp (chunk.data + chunk.used) align) := by
  obtain ⟨hused, hspace⟩ := hok.bounds
  by_cases hwraps : sizeMax < chunk.data + chunk.used + (align - 1)
  · -- the offset is what lies above the chunk, which is too much
    exfalso
    rw [alignUp_wrapped halign (by unfold sizeMax; omega) hwraps] at hfits
    have hdata : 0 < chunk.data := Nat.add_pos_right _ (by decide)
    unfold C.subSize sizeMax at hfits
    omega
  · obtain ⟨hle, hlt, hdvd⟩ := alignUp_spec halign (Nat.not_lt.mp hwraps)
    have hpos : 0 < align := by
      obtain ⟨k, -, rfl⟩ := halign
      exact Nat.two_pow_pos k
    refine ⟨hle, ?_, hdvd⟩
    unfold C.subSize sizeMax at *
    omega

theorem room_of_new {chunk : Chunk} {size align : Nat} (hok : chunk.Ok) (halign : IsAlign align)
    (hused : chunk.used = 0) (hcapacity : size + align ≤ chunk.capacity) :
    Room chunk size align (alignUp chunk.data align) := by
  have hspace := hok.bounds.2
  have hround : chunk.data + (align - 1) ≤ sizeMax := by unfold sizeMax; omega
  obtain ⟨hle, hlt, hdvd⟩ := alignUp_spec halign hround
  exact ⟨by omega, by omega, hdvd⟩

/-- The chunk that an allocation uses: the current one, or a new one for these many bytes. -/
inductive Opens (arena : State) (memory : Nat → UInt8) (needed : Nat) (grant : Option Grant) :
    Chunk → List Chunk → (Nat → UInt8) → Prop
  | current : Opens arena memory needed grant arena.current arena.earlier memory
  | new {given : Grant} {dataSize : Nat} : grant = some given → chunkDataSize needed true = some dataSize →
      Opens arena memory needed grant ⟨given.address, dataSize, 0⟩ arena.chunks
        (overwrite memory ⟨given.address, headerSize + dataSize⟩ given.contents)

/-- What the host gives lies in the address space. -/
def InSpace (grant : Option Grant) (needed : Nat) : Prop :=
  ∀ given ∈ grant, ∀ dataSize ∈ chunkDataSize needed true, (Chunk.mk given.address dataSize 0).Ok

/-- An allocation does nothing, or it takes room in the chunk that it opens. -/
theorem alloc_cases {arena : State} {size align : Nat} {grant : Option Grant} (hok : arena.current.Ok)
    (halign : IsAlign align) (hgrant : InSpace grant (size + raisedAlign align)) (memory : Nat → UInt8) :
    alloc arena memory size align grant = (arena, memory, none) ∨
      size ≠ 0 ∧ size + raisedAlign align ≤ sizeMax ∧ ∃ chunk earlier memory' ptr,
        Opens arena memory (size + raisedAlign align) grant chunk earlier memory' ∧
        Room chunk size (raisedAlign align) ptr ∧ alloc arena memory size align grant =
          (⟨{ chunk with used := ptr - chunk.data + size }, earlier⟩, zeroed memory' ptr size, some ptr) := by
  have hraised := (raisedAlign_spec halign).1
  have hmax : raisedAlign align ≤ sizeMax := by
    obtain ⟨k, hk, heq⟩ := hraised
    have hpow : 2 ^ k ≤ 2 ^ 63 := Nat.pow_le_pow_right Nat.zero_lt_two (by omega)
    unfold sizeMax
    omega
  unfold alloc
  by_cases hsize : size = 0
  · exact .inl (if_pos hsize)
  rw [if_neg hsize]
  dsimp only
  by_cases hlarge : size > sizeMax - raisedAlign align
  · exact .inl (if_pos hlarge)
  rw [if_neg hlarge]
  have hneeded : size + raisedAlign align ≤ sizeMax := by omega
  rw [addSize_eq hneeded]
  split
  · unfold chunkAlloc
    cases hdata : chunkDataSize (size + raisedAlign align) true with
    | none => exact .inl rfl
    | some dataSize =>
      cases grant with
      | none => exact .inl rfl
      | some given =>
        have hnew := hgrant given rfl dataSize hdata
        have hroom := room_of_new hnew hraised rfl (le_chunkDataSize hdata)
        exact .inr ⟨hsize, hneeded, _, _, _, _, .new rfl hdata, hroom, place_eq hnew hroom _ _⟩
  · rename_i hfits
    have hroom := room_of_fits hok hraised hfits
    exact .inr ⟨hsize, hneeded, _, _, _, _, .current, hroom, place_eq hok hroom _ _⟩

end Bebop.Compiler.Arena
