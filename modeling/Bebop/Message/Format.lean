import Bebop.Lib.Bytes
import Bebop.Lib.Bits

/-!
# Bebop — the indexed message format

What an encoded message *is*, stated once and without an implementation. An encoding is

    length (4) · payload · boundaries · directory · control (1)

read from the end: the control byte gives the directory kind and the width of a boundary,
and the boundaries split the payload. `decodeDirectory` checks the header and the
directory, as a lazy reader does; `decode` also the boundaries.
-/

namespace Bebop.Message

open Bytes Bits

/-! ## Directories -/

/-- The eight directory kinds, in the order of their codes. -/
inductive DirectoryKind where
  | empty | tiny1 | tiny2 | tiny3 | mask8 | mask16 | mask32 | blocks
  deriving DecidableEq, Repr

namespace DirectoryKind

/-- The three bits of the control byte that name the kind. -/
def code : DirectoryKind → Nat
  | empty => 0
  | tiny1 => 1
  | tiny2 => 2
  | tiny3 => 3
  | mask8 => 4
  | mask16 => 5
  | mask32 => 6
  | blocks => 7

def ofCode : Nat → Option DirectoryKind
  | 0 => some empty
  | 1 => some tiny1
  | 2 => some tiny2
  | 3 => some tiny3
  | 4 => some mask8
  | 5 => some mask16
  | 6 => some mask32
  | 7 => some blocks
  | _ => none

@[simp] theorem ofCode_code (k : DirectoryKind) : ofCode k.code = some k := by
  cases k <;> rfl

theorem code_of_ofCode {n : Nat} {k : DirectoryKind} (h : ofCode n = some k) : n = k.code := by
  unfold ofCode at h
  split at h <;> cases h <;> rfl

theorem ofCode_isSome {n : Nat} (h : n < 8) : ∃ k, ofCode n = some k := by
  match n, h with
  | 0, _ => exact ⟨_, rfl⟩
  | 1, _ => exact ⟨_, rfl⟩
  | 2, _ => exact ⟨_, rfl⟩
  | 3, _ => exact ⟨_, rfl⟩
  | 4, _ => exact ⟨_, rfl⟩
  | 5, _ => exact ⟨_, rfl⟩
  | 6, _ => exact ⟨_, rfl⟩
  | 7, _ => exact ⟨_, rfl⟩

end DirectoryKind

/-- The bytes a directory takes. `top` is the block mask, before the control byte. -/
def directorySize (kind : DirectoryKind) (top : Nat) : Nat :=
  match kind with
  | .empty => 0
  | .tiny1 => 1
  | .tiny2 => 2
  | .tiny3 => 3
  | .mask8 => 1
  | .mask16 => 2
  | .mask32 => 4
  | .blocks => 1 + 5 * popcount 8 top

/-- A tiny directory lists its tags; they ascend from above zero. -/
def tinyTags (bs : List UInt8) (dir n : Nat) : Option (List Nat) :=
  let tags := (List.range n).map fun i => byteAt bs (dir + i)
  if (0 :: tags).Pairwise (· < ·) then some tags else none

/-- A mask directory is one word; bit `i` stands for tag `i + 1`. -/
def maskTags (bs : List UInt8) (dir w : Nat) : Option (List Nat) :=
  let m := leAt bs dir w
  if m = 0 then none else some ((bits (8 * w) m).map (· + 1))

/-- A block directory has one five-byte entry for each bit of `top`: the rank of the first tag
of the block, then its mask. The entries from `b` on start at `entry`; `r` tags precede them. -/
def blockTags (bs : List UInt8) (top : Nat) : (n b entry r : Nat) → Option (List Nat)
  | 0, _, _, _ => some []
  | n + 1, b, entry, r =>
    if top.testBit b then
      let m := leAt bs (entry + 1) 4
      if byteAt bs entry ≠ r ∨ m = 0 ∨ (b = 7 ∧ m.testBit 31) then none
      else (blockTags bs top n (b + 1) (entry + 5) (r + popcount 32 m)).map
        ((bits 32 m).map (· + (32 * b + 1)) ++ ·)
    else blockTags bs top n (b + 1) entry r

/-- The tags a directory at `dir` declares. -/
def directoryTags (bs : List UInt8) (kind : DirectoryKind) (dir : Nat) : Option (List Nat) :=
  match kind with
  | .empty => some []
  | .tiny1 => tinyTags bs dir 1
  | .tiny2 => tinyTags bs dir 2
  | .tiny3 => tinyTags bs dir 3
  | .mask8 => maskTags bs dir 1
  | .mask16 => maskTags bs dir 2
  | .mask32 => maskTags bs dir 4
  | .blocks =>
    let top := byteAt bs (bs.length - 2)
    if top = 0 then none else blockTags bs top 8 0 dir 0

/-! ## Encodings -/

/-- Where the directory and the boundaries start, their width, and the tags. -/
structure Decoded where
  kind : DirectoryKind
  width : Nat
  directory : Nat
  boundaries : Nat
  tags : List Nat
  deriving DecidableEq, Repr

namespace Decoded

variable (bs : List UInt8) (d : Decoded)

/-- The bytes between the length prefix and the boundaries. -/
def payloadSize : Nat := d.boundaries - 4

/-- Boundary `i`: where the slice of rank `i` ends and the next one starts. -/
def boundary (i : Nat) : Nat := leAt bs (d.boundaries + i * d.width) d.width

/-- Where the slice of rank `r` starts in the payload. -/
def fieldStart (r : Nat) : Nat := if r = 0 then 0 else d.boundary bs (r - 1)

/-- Where it ends. The last slice ends with the payload. -/
def fieldEnd (r : Nat) : Nat :=
  if r + 1 = d.tags.length then d.payloadSize else d.boundary bs r

/-- The slice of rank `r` lies inside the payload and is not inverted. -/
def FieldOk (r : Nat) : Prop :=
  d.fieldStart bs r ≤ d.fieldEnd bs r ∧ d.fieldEnd bs r ≤ d.payloadSize

instance (r : Nat) : Decidable (d.FieldOk bs r) := inferInstanceAs (Decidable (_ ∧ _))

def BoundariesOk : Prop := ∀ r < d.tags.length, d.FieldOk bs r

instance : Decidable (d.BoundariesOk bs) := inferInstanceAs (Decidable (∀ r < _, _))

/-- The position of `t` among the tags, when it is one of them. -/
def rank? (t : Nat) : Option Nat := if t ∈ d.tags then some (rank t d.tags) else none

/-- The bytes of the field `t`: the range they take in the encoding. -/
def lookup (t : Nat) : Option (Nat × Nat) :=
  (d.rank? t).map fun r => (4 + d.fieldStart bs r, 4 + d.fieldEnd bs r)

end Decoded

def control (bs : List UInt8) : Nat := byteAt bs (bs.length - 1)

/-- The header: a length prefix that covers the rest, and a control byte with
its top three bits clear and a width code below three. -/
def HeaderOk (bs : List UInt8) : Prop :=
  5 ≤ bs.length ∧ leAt bs 0 4 = bs.length - 4 ∧ control bs < 32 ∧ control bs % 4 ≠ 3

instance (bs : List UInt8) : Decidable (HeaderOk bs) := inferInstanceAs (Decidable (_ ∧ _))

def decodeDirectory (bs : List UInt8) : Option Decoded :=
  if HeaderOk bs then do
    let kind ← DirectoryKind.ofCode (control bs / 4)
    let width := 2 ^ (control bs % 4)
    let size := directorySize kind (byteAt bs (bs.length - 2))
    if size + 1 ≤ bs.length - 4 then
      let directory := bs.length - 1 - size
      let tags ← directoryTags bs kind directory
      let boundarySize := (tags.length - 1) * width
      if boundarySize + size + 1 ≤ bs.length - 4 ∧ (tags = [] → bs.length = 5) then
        some ⟨kind, width, directory, directory - boundarySize, tags⟩
      else none
    else none
  else none

def decode (bs : List UInt8) : Option Decoded :=
  (decodeDirectory bs).filter fun d => d.BoundariesOk bs

end Bebop.Message
