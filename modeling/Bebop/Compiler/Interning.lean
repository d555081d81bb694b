import Bebop.Compiler.ArenaRegions

/-!
# Bebop — the table of interned strings

`bebop_intern_n`, `bebop_str_get` and `bebop_str_len` of `bebop_str.c`. A handle is an index into
arrays that grow in the arena, and slot 0 is the null handle. A map leads from a hash to the first
slot with it, and `next` from there to the others. The map is a parameter (`Internmap`), and so is
the hash. The rest of the compiler uses the same arena between the calls (`Step.other`).
-/

namespace Bebop.Compiler.Interning

open Region Transition Arena

/-- `bebop_internmap`: the entry of a hash. -/
structure Internmap (M : Type) where
  new : M
  find : M → UInt64 → Option Nat
  insert : M → UInt64 → Nat → M

/-- A map has what was inserted, under the keys that were not in it. -/
structure Internmap.Lawful {M : Type} (map : Internmap M) : Prop where
  find_new : ∀ key, map.find map.new key = none
  find_insert : ∀ m key value key', map.find m key = none →
    map.find (map.insert m key value) key' = if key' = key then some value else map.find m key'

/-- `bebop_hash_fnv1a` -/
def hashFnv1a (str : List UInt8) : UInt64 :=
  str.foldl (fun hash byte => (hash ^^^ byte.toUInt64) * 0x100000001b3) 0xcbf29ce484222325

/-- What the arrays `strings`, `hashes`, `lengths` and `next` have at an index. -/
structure Slot where
  string : Nat
  hash : UInt64
  length : Nat
  next : Nat

/-- `bebop_intern_t`: the slots below `count`, and the arena with the regions in use. -/
structure Table (M : Type) where
  slots : List Slot
  capacity : Nat
  arena : World
  lookup : M

def uint32Max : Nat := 2 ^ 32 - 1

/-- What the host gives for a call of the arena. -/
abbrev Host := World → Call → Option C.Grant

variable {M : Type} (map : Internmap M) (hash : List UInt8 → UInt64) (host : Host)

def allocate (w : World) (size align : Nat) : World × Option Nat :=
  respond w (.alloc size align) (host w (.alloc size align))

/-- `bebop__arena_alloc_n` -/
def allocN (w : World) (elemSize n align : Nat) : World × Option Nat :=
  if n ≠ 0 ∧ elemSize > C.sizeMax / n then (w, none) else allocate host w (elemSize * n) align

/-- The four arrays of a capacity: whether all of them could be allocated. -/
def newArrays (w : World) (capacity : Nat) : World × Bool :=
  let (w, strings) := allocN host w 8 capacity 8
  let (w, hashes) := allocN host w 8 capacity 8
  let (w, lengths) := allocN host w 4 capacity 4
  let (w, next) := allocN host w 4 capacity 4
  (w, strings.isSome && hashes.isSome && lengths.isSome && next.isSome)

/-- `bebop_intern_init` -/
def init (w : World) (capacity : Nat) : Option (Table M) :=
  let capacity := if capacity = 0 then 256 else capacity
  let (w, ok) := newArrays host w capacity
  if ok then some ⟨[⟨0, 0, 0, 0⟩], capacity, w, map.new⟩ else none

/-- The bytes at a pointer. -/
def bytesAt (memory : Nat → UInt8) (ptr len : Nat) : List UInt8 := (List.range len).map fun i => memory (ptr + i)

/-- The loop over the slots with a hash: the slot of the string, or the last one. -/
def walk (table : Table M) (str : List UInt8) : Nat → Nat → Option (Nat ⊕ Nat)
  | 0, _ => none
  | fuel + 1, idx => do
    let slot ← table.slots[idx]?
    if slot.length = str.length ∧ bytesAt table.arena.memory slot.string str.length = str then some (.inl idx)
    else if slot.next = 0 then some (.inr idx)
    else walk table str fuel slot.next

variable (table : Table M)

/-- The first half of `bebop_intern_n`: the slot of the string, or `chain_tail`. -/
def search (str : List UInt8) : Option (Nat ⊕ Nat) :=
  match map.find table.lookup (hash str) with
  | none => some (.inr 0)
  | some idx => walk table str table.slots.length idx

/-- `bebop__intern_grow`: the table, and whether it could grow. The capacity is doubled in 32
bits; `memcpy` has no result where the slots are more than the new arrays hold. -/
def grow : Option (Table M × Bool) :=
  let newCapacity := table.capacity * 2 % 2 ^ 32
  let (arena, ok) := newArrays host table.arena newCapacity
  if ok then if table.slots.length ≤ newCapacity then some ({ table with capacity := newCapacity, arena }, true) else none
  else some ({ table with arena }, false)

def growIfFull : Option (Table M × Bool) :=
  if table.slots.length ≥ table.capacity then grow host table else some (table, true)

/-- `bebop_arena_strndup` of these bytes, with the zero behind them. -/
def strndup (w : World) (str : List UInt8) : World × Option Nat :=
  match allocate host w (str.length + 1) 1 with
  | (w, none) => (w, none)
  | (w, some dst) =>
    ({ w with memory := overwrite w.memory ⟨dst, str.length + 1⟩ fun address => str.getD (address - dst) 0 }, some dst)

/-- The end of `bebop_intern_n`: a slot for the copy, behind the last one with the hash. -/
def append (str : List UInt8) (copy chainTail : Nat) : Option (Table M × Nat) :=
  let idx := table.slots.length
  if idx < table.capacity then
    let slots := table.slots ++ [⟨copy, hash str, str.length % 2 ^ 32, 0⟩]
    if chainTail ≠ 0 then some ({ table with slots := slots.modify chainTail fun slot => { slot with next := idx } }, idx)
    else some ({ table with slots, lookup := map.insert table.lookup (hash str) idx }, idx)
  else none

/-- `bebop_intern_n` -/
def internN (str : Option (List UInt8)) : Option (Table M × Nat) :=
  match str with
  | none => some (table, 0)
  | some str =>
    if str.length > uint32Max then some (table, 0)
    else do
      match ← search map hash table str with
      | .inl idx => some (table, idx)
      | .inr chainTail =>
        let (table, ok) ← growIfFull host table
        if ok then
          match strndup host table.arena str with
          | (arena, none) => some ({ table with arena }, 0)
          | (arena, some copy) => append map hash { table with arena } str copy chainTail
        else some (table, 0)

/-- `bebop_str_get` -/
def strGet (handle : Nat) : Option Nat :=
  if handle = 0 ∨ handle ≥ table.slots.length then none else (table.slots[handle]?).map Slot.string

/-- `bebop_str_len` -/
def strLen (handle : Nat) : Nat :=
  if handle = 0 ∨ handle ≥ table.slots.length then 0 else ((table.slots[handle]?).map Slot.length).getD 0

/-! ## Runs -/

/-- What the host gives for a call is a chunk of its own, whenever it is asked. -/
def HostLawful : Prop := ∀ w call, GivenFor w call (host w call)

/-- The copy of a string in the arena. -/
def Slot.copy (slot : Slot) : Region := ⟨slot.string, slot.length + 1⟩

/-- The rest of the program leaves the copies alone. -/
def Foreign : Arena.Event → Prop
  | .call (.realloc (some ptr) oldSize _) _ => ∀ slot ∈ table.slots.tail, ⟨ptr, oldSize⟩ ≠ slot.copy
  | .call _ _ => True
  | .write region _ => ∀ slot ∈ table.slots.tail, region.Apart slot.copy

/-- A call with its handle, or something else that happens in the arena. -/
inductive Event
  | intern (str : Option (List UInt8)) (host : Host) (handle : Nat)
  | other (e : Arena.Event)

inductive Step : Table M → Event → Table M → Prop
  | intern {table table' : Table M} {str : Option (List UInt8)} {host : Host} {handle : Nat} : HostLawful host →
      internN map hash host table str = some (table', handle) → Step table (.intern str host handle) table'
  | other {table : Table M} {e : Arena.Event} {arena : World} : Arena.Step table.arena e arena → Foreign table e →
      Step table (.other e) { table with arena }

/-- The table has grown by the handle's slot, or can: no allocation fails, and a full table has
fewer slots than can be doubled in 32 bits. -/
def CanAppend (str : List UInt8) : Prop :=
  (table.slots.length ≥ table.capacity → table.capacity < 2 ^ 31) ∧
    ∀ grown ok, growIfFull host table = some (grown, ok) → ok = true ∧ (strndup host grown.arena str).2.isSome

def Allowed : Event → Prop
  | .intern (some str) host _ => str.length ≤ uint32Max →
      ∀ chainTail, search map hash table str = some (.inr chainTail) → CanAppend host table str
  | _ => True

/-- `bebop_intern_init` has returned, in an arena that may have been used. -/
def Fresh (table : Table M) : Prop :=
  ∃ w₀ es w host capacity, Arena.Fresh w₀ ∧ Run Arena.Step w₀ es w ∧ HostLawful host ∧ capacity < 2 ^ 32 ∧
    init map host w capacity = some table

end Bebop.Compiler.Interning
