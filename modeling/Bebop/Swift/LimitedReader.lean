import Bebop.Lib.Bytes

/-!
# Bebop — the Swift readers and their limits

The body of a union is bounded in two ways. `BebopReader` shares one cursor between a union
and everything nested in it: limits are stacked, and one is dropped as soon as the offset
reaches it. `BebopViewReader` reads each body through a reader of its own over the slice.
What a generated `decode` does with a reader is a `Reads`, whatever the record is.
-/

namespace Bebop.Swift.Limits

open Bytes

/-- The cases of `BebopDecodingError` that a read can throw. -/
inductive DecodingError where
  | unexpectedEndOfData
  | invalidLength
  | trailingData
  | invalidEnumValue
  | invalidUTF8
  | invalidStringTerminator
  | malformedMessage
  | limitExceeded
  | duplicateMapKey
  deriving DecidableEq, Repr

/-- The bytes from `i` on, `n` of them. -/
def slice (data : List UInt8) (i n : Nat) : List UInt8 := (data.drop i).take n

/-! ## `BebopReader` -/

structure BebopReader where
  /-- `base` and `end`: the buffer. -/
  data : List UInt8
  limit : Nat
  /-- The limit pushed last comes first. -/
  limitStack : List Nat
  offset : Nat
  /-- The part of `decodeLimits` that is read here. -/
  maxDepth : Nat
  depth : Nat
  /-- Not a field of the source: where bytes were loaded, and how many. -/
  loads : List (Nat × Nat)
  deriving DecidableEq, Repr

abbrev Decoder := StateT BebopReader (Except DecodingError)

namespace BebopReader

/-- `init(data:limits:depth:)` -/
def ofData (data : List UInt8) (maxDepth depth : Nat) : BebopReader where
  data := data
  limit := data.length
  limitStack := []
  offset := 0
  maxDepth := maxDepth
  depth := depth
  loads := []

/-- The loop of `popExpiredLimitIfNeeded`. -/
def popExpired (offset : Nat) : Nat → List Nat → Nat × List Nat
  | limit, [] => (limit, [])
  | limit, restored :: stack =>
    if offset = limit then popExpired offset restored stack else (limit, restored :: stack)

def popExpiredLimitIfNeeded (r : BebopReader) : BebopReader :=
  let popped := popExpired r.offset r.limit r.limitStack
  { r with limit := popped.1, limitStack := popped.2 }

def advance (r : BebopReader) (count : Nat) : BebopReader :=
  popExpiredLimitIfNeeded { r with offset := r.offset + count }

def ensureBytes (count : Int) : Decoder Unit := fun r =>
  if 0 ≤ count ∧ (r.offset : Int) ≤ r.limit ∧ count ≤ (r.limit : Int) - r.offset then .ok ((), r)
  else .error .unexpectedEndOfData

/-- `readBytes`, and with it every read of a value of fixed size. -/
def readBytes (count : Int) : Decoder (List UInt8) := do
  ensureBytes count
  let r ← get
  -- the load comes before the offset moves
  set ({ r with loads := r.loads ++ [(r.offset, count.toNat)] }.advance count.toNat)
  return slice r.data r.offset count.toNat

def readByte : Decoder UInt8 := do return (← readBytes 1).headD 0

def readUInt32 : Decoder Nat := do return leNat (← readBytes 4)

/-- `readMessage`: the whole message is skipped, and its fields are decoded by readers of their
own, so that `decode` depends on nothing but its bytes and the depth. -/
def readMessage {V : Type} (decode : Nat → List UInt8 → Except DecodingError V) : Decoder V := do
  ensureBytes 4
  let r ← get
  let bodyLength := leAt r.data r.offset 4
  if 0 < bodyLength ∧ bodyLength + 4 ≤ r.limit - r.offset then
    let count := bodyLength + 4
    set ({ r with loads := r.loads ++ [(r.offset, count)] }.advance count)
    decode r.depth (slice r.data r.offset count)
  else throw .unexpectedEndOfData

/-- The reader that `readNested` passes on. -/
def nested (r : BebopReader) : BebopReader :=
  { ofData r.data r.maxDepth (r.depth + 1) with
    offset := r.offset, limit := r.limit, limitStack := r.limitStack, loads := r.loads }

/-- What `readNested` copies back. -/
def resume (r nested : BebopReader) : BebopReader :=
  { r with offset := nested.offset, limit := nested.limit, limitStack := nested.limitStack, loads := nested.loads }

def readNested {V : Type} (decode : Decoder V) : Decoder V := fun r =>
  if r.depth < r.maxDepth then
    match decode r.nested with
    | .ok (value, nested) => .ok (value, r.resume nested)
    | .error e => .error e
  else .error .limitExceeded

def beginLengthPrefixedValue : Decoder Nat := do
  let length ← readUInt32
  if 0 < length then
    ensureBytes length
    modify fun r => { r with limitStack := r.limit :: r.limitStack, limit := r.offset + length }
    return length
  else throw .unexpectedEndOfData

end BebopReader

/-! ## Generated records -/

inductive UnionValue (V : Type) where
  | branch (discriminator : UInt8) (value : V)
  | unknown (discriminator : UInt8) (data : List UInt8)
  deriving DecidableEq, Repr

def UnionValue.map {V W : Type} (f : W → V) : UnionValue W → UnionValue V
  | .branch discriminator value => .branch discriminator (f value)
  | .unknown discriminator data => .unknown discriminator data

open BebopReader

/-- The `switch` over the discriminator. -/
def decodeCase {V : Type} (discriminators : List UInt8) (decode : UInt8 → Decoder V) (stop : Nat) (disc : UInt8) :
    Decoder (UnionValue V) :=
  if disc ∈ discriminators then UnionValue.branch disc <$> readNested (decode disc)
  else do
    let remaining := (stop : Int) - (← get).offset
    let data ← readBytes remaining
    return .unknown disc data

/-- The `decode` that is generated for a union, of the branches' own. -/
def decodeUnion {V : Type} (discriminators : List UInt8) (decode : UInt8 → Decoder V) : Decoder (UnionValue V) := do
  let length ← beginLengthPrefixedValue
  let stop := (← get).offset + length
  let disc ← readByte
  let result ← decodeCase discriminators decode stop disc
  if (← get).offset = stop then return result else throw .trailingData

/-- What a generated `decode` does with its reader. `bytes` is a read of so many bytes,
whose value decides how it goes on, and `fail` a check on values that did not hold. -/
inductive Reads (V : Type) where
  | done (value : V)
  | fail (error : DecodingError)
  | bytes (count : Nat) (next : List UInt8 → Reads V)
  | message (decode : Nat → List UInt8 → Except DecodingError V) (next : V → Reads V)
  | nested (record : Reads V) (next : V → Reads V)
  | union (discriminators : List UInt8) (branch : UInt8 → Reads V) (next : UnionValue V → Reads V)

def Reads.run {V : Type} : Reads V → Decoder V
  | .done value => pure value
  | .fail error => throw error
  | .bytes count next => do (next (← readBytes count)).run
  | .message decode next => do (next (← readMessage decode)).run
  | .nested record next => do (next (← readNested record.run)).run
  | .union discriminators branch next => do
    (next (← decodeUnion discriminators fun disc => (branch disc).run)).run

/-! ## `BebopViewReader` -/

structure BebopViewReader where
  encoded : List UInt8
  offset : Nat
  maxDepth : Nat
  depth : Nat
  deriving DecidableEq, Repr

abbrev ViewDecoder := StateT BebopViewReader (Except DecodingError)

namespace BebopViewReader

def remaining (v : BebopViewReader) : Nat := v.encoded.length - v.offset

def finish : ViewDecoder Unit := fun v =>
  if v.offset = v.encoded.length then .ok ((), v) else .error .trailingData

/-- `readBytesView`, and `readInteger` of so many bytes. -/
def readBytesView (count : Nat) : ViewDecoder (List UInt8) := fun v =>
  if (count : Int) ≤ (v.encoded.length : Int) - v.offset then
    .ok (slice v.encoded v.offset count, { v with offset := v.offset + count })
  else .error .unexpectedEndOfData

def readByte : ViewDecoder UInt8 := do return (← readBytesView 1).headD 0

def readUInt32 : ViewDecoder Nat := do return leNat (← readBytesView 4)

def nested (v : BebopViewReader) : BebopViewReader := ⟨v.encoded, v.offset, v.maxDepth, v.depth + 1⟩

def readNested {W : Type} (decode : ViewDecoder W) : ViewDecoder W := fun v =>
  if v.depth < v.maxDepth then
    match decode v.nested with
    | .ok (value, nested) => .ok (value, { v with offset := nested.offset })
    | .error e => .error e
  else .error .limitExceeded

def readLengthPrefixedValue {W : Type} (decode : ViewDecoder W) : ViewDecoder W := do
  let bodyLength ← readUInt32
  let v ← get
  if 0 < bodyLength ∧ bodyLength ≤ v.remaining then
    set { v with offset := v.offset + bodyLength }
    -- the body is read by a reader over its own slice
    let body : BebopViewReader := ⟨slice v.encoded v.offset bodyLength, 0, v.maxDepth, v.depth⟩
    match (do let value ← decode; finish; return value : ViewDecoder W) body with
    | .ok (value, _) => return value
    | .error e => throw e
  else throw .unexpectedEndOfData

end BebopViewReader

/-- The `readView` that is generated for a union, of the branches' own. -/
def readUnionView {W : Type} (discriminators : List UInt8) (view : UInt8 → ViewDecoder W) :
    ViewDecoder (UnionValue W) :=
  BebopViewReader.readLengthPrefixedValue do
    let discriminator ← BebopViewReader.readByte
    if discriminator ∈ discriminators then
      UnionValue.branch discriminator <$> BebopViewReader.readNested (view discriminator)
    else UnionValue.unknown discriminator <$> BebopViewReader.readBytesView (← get).remaining

/-! ## Limits -/

namespace BebopReader

theorem popExpired_of_ne {offset limit : Nat} (h : offset ≠ limit) (stack : List Nat) :
    popExpired offset limit stack = (limit, stack) := by
  cases stack with
  | nil => rfl
  | cons restored stack => exact if_neg h

theorem popExpired_self (limit restored : Nat) (stack : List Nat) :
    popExpired limit limit (restored :: stack) = popExpired limit restored stack := if_pos rfl

theorem popExpired_suffix (offset limit : Nat) (stack : List Nat) :
    (popExpired offset limit stack).1 :: (popExpired offset limit stack).2 <:+ limit :: stack := by
  induction stack generalizing limit with
  | nil => exact List.suffix_refl _
  | cons restored stack ih =>
    unfold popExpired
    split
    · exact (ih restored).trans (List.suffix_cons ..)
    · exact List.suffix_refl _

theorem popExpired_popExpired (offset limit : Nat) (stack : List Nat) :
    popExpired offset (popExpired offset limit stack).1 (popExpired offset limit stack).2 =
      popExpired offset limit stack := by
  induction stack generalizing limit with
  | nil => rfl
  | cons restored stack ih =>
    by_cases h : offset = limit
    · subst h
      rw [popExpired_self]
      exact ih restored
    · rw [popExpired_of_ne h, popExpired_of_ne h]

def Sorted (limit : Nat) (stack : List Nat) : Prop := (limit :: stack).Pairwise (· ≤ ·)

theorem Sorted.popExpired {limit : Nat} {stack : List Nat} (h : Sorted limit stack) (offset : Nat) :
    Sorted (popExpired offset limit stack).1 (popExpired offset limit stack).2 :=
  List.Pairwise.sublist (popExpired_suffix offset limit stack).sublist h

theorem Sorted.le_popExpired {limit : Nat} {stack : List Nat} (h : Sorted limit stack) (offset : Nat) :
    limit ≤ (BebopReader.popExpired offset limit stack).1 := by
  have hmem := (popExpired_suffix offset limit stack).subset (List.mem_cons_self ..)
  rcases List.mem_cons.mp hmem with heq | hmem
  · exact Nat.le_of_eq heq.symm
  · exact List.rel_of_pairwise_cons h hmem

theorem Sorted.push {limit stop : Nat} {stack : List Nat} (h : Sorted limit stack) (hle : stop ≤ limit) :
    Sorted stop (limit :: stack) := by
  refine List.Pairwise.cons ?_ h
  intro l hl
  rcases List.mem_cons.mp hl with rfl | hl
  · exact hle
  · exact hle.trans (List.rel_of_pairwise_cons h hl)

/-! ## Reads -/

theorem bind_run {σ ε α β : Type} (x : StateT σ (Except ε) α) (f : α → StateT σ (Except ε) β) (s : σ) :
    (x >>= f) s = match x s with
      | .ok (a, s') => f a s'
      | .error e => .error e := by
  show (x s >>= fun p => f p.1 p.2) = _
  cases x s with
  | ok p => rfl
  | error e => rfl

theorem map_run {σ ε α β : Type} (f : α → β) (x : StateT σ (Except ε) α) (s : σ) :
    (f <$> x) s = match x s with
      | .ok (a, s') => .ok (f a, s')
      | .error e => .error e := by
  rw [map_eq_pure_bind, bind_run]
  cases x s <;> rfl

/-- The reader after so many bytes were loaded and skipped. -/
def skip (r : BebopReader) (count : Nat) : BebopReader :=
  { r with loads := r.loads ++ [(r.offset, count)] }.advance count

theorem readBytes_run (r : BebopReader) (count : Nat) :
    readBytes count r = if r.offset + count ≤ r.limit then .ok (slice r.data r.offset count, r.skip count)
      else .error .unexpectedEndOfData := by
  unfold readBytes
  rw [bind_run]
  unfold ensureBytes
  by_cases h : r.offset + count ≤ r.limit
  · rw [if_pos (by omega), if_pos h]
    rfl
  · rw [if_neg (by omega), if_neg h]

theorem readByte_run (r : BebopReader) : readByte r =
    if r.offset + 1 ≤ r.limit then .ok ((slice r.data r.offset 1).headD 0, r.skip 1)
    else .error .unexpectedEndOfData := by
  unfold readByte
  have hrun : readBytes 1 r = _ := readBytes_run r 1
  rw [bind_run, hrun]
  by_cases h : r.offset + 1 ≤ r.limit
  · rw [if_pos h, if_pos h]
    rfl
  · rw [if_neg h, if_neg h]

theorem readUInt32_run (r : BebopReader) : readUInt32 r =
    if r.offset + 4 ≤ r.limit then .ok (leAt r.data r.offset 4, r.skip 4) else .error .unexpectedEndOfData := by
  unfold readUInt32
  have hrun : readBytes 4 r = _ := readBytes_run r 4
  rw [bind_run, hrun]
  by_cases h : r.offset + 4 ≤ r.limit
  · rw [if_pos h, if_pos h]
    rfl
  · rw [if_neg h, if_neg h]

theorem readMessage_run {V : Type} (decode : Nat → List UInt8 → Except DecodingError V) (r : BebopReader) :
    readMessage decode r =
      if 0 < leAt r.data r.offset 4 ∧ r.offset + (leAt r.data r.offset 4 + 4) ≤ r.limit then
        match decode r.depth (slice r.data r.offset (leAt r.data r.offset 4 + 4)) with
        | .ok value => .ok (value, r.skip (leAt r.data r.offset 4 + 4))
        | .error e => .error e
      else .error .unexpectedEndOfData := by
  unfold readMessage
  rw [bind_run]
  unfold ensureBytes
  by_cases h : 0 < leAt r.data r.offset 4 ∧ r.offset + (leAt r.data r.offset 4 + 4) ≤ r.limit
  · rw [if_pos (by omega), if_pos h]
    show (ite _ _ _ : Decoder V) r = _
    rw [if_pos (by omega)]
    show (monadLift (decode _ _) : Decoder V) (r.skip _) = _
    cases decode r.depth (slice r.data r.offset (leAt r.data r.offset 4 + 4)) <;> rfl
  · rw [if_neg h]
    by_cases hfour : r.offset + 4 ≤ r.limit
    · rw [if_pos (by omega)]
      show (ite _ _ _ : Decoder V) r = _
      rw [if_neg (by omega)]
      rfl
    · rw [if_neg (by omega)]

end BebopReader

/-! ## A body on its own

A reader under a limit is compared with one over the bytes up to the limit alone. -/

theorem slice_slice {data : List UInt8} {i n j m : Nat} (h : j + m ≤ n) :
    slice (slice data i n) j m = slice data (i + j) m := by
  unfold slice
  rw [List.drop_take, List.take_take, List.drop_drop, Nat.min_eq_left (by omega)]

theorem leAt_eq_slice (data : List UInt8) (i w : Nat) : leAt data i w = leNat (slice data i w) := rfl

/-- `shared` is, up to `stop`, where `own` is in its buffer. The limits from `stop` on
are `stop` itself and `stack`, and the expired ones of them are gone. -/
structure Follows (stop : Nat) (stack : List Nat) (own shared : BebopReader) : Prop where
  whole : own.limit = own.data.length
  plain : own.limitStack = []
  room : own.offset ≤ own.limit
  place : shared.offset + own.limit = stop + own.offset
  window : slice own.data own.offset (own.limit - own.offset) = slice shared.data shared.offset (own.limit - own.offset)
  depth : shared.depth = own.depth
  maxDepth : shared.maxDepth = own.maxDepth
  limits : (shared.limit, shared.limitStack) = popExpired shared.offset stop stack
  sorted : Sorted stop stack

namespace Follows

variable {stop : Nat} {stack : List Nat} {own shared : BebopReader}

theorem slice_length {data : List UInt8} {i n : Nat} : (slice data i n).length = min n (data.length - i) := by
  unfold slice
  rw [List.length_take, List.length_drop]

theorem skip_of_plain {own : BebopReader} (h : own.limitStack = []) (n : Nat) :
    own.skip n = { own with loads := own.loads ++ [(own.offset, n)], offset := own.offset + n } := by
  unfold BebopReader.skip advance popExpiredLimitIfNeeded
  simp only [h, popExpired]

variable (h : Follows stop stack own shared)

include h

theorem limit_eq : shared.limit = (popExpired shared.offset stop stack).1 :=
  congrArg Prod.fst h.limits

theorem limitStack_eq :
    shared.limitStack = (popExpired shared.offset stop stack).2 := congrArg Prod.snd h.limits

theorem stop_le : stop ≤ shared.limit := by
  rw [h.limit_eq]
  exact h.sorted.le_popExpired _

theorem limit_of_lt (hlt : shared.offset < stop) : shared.limit = stop := by
  rw [h.limit_eq, popExpired_of_ne (Nat.ne_of_lt hlt)]

theorem slice_eq {i n : Nat} (hin : own.offset + (i + n) ≤ own.limit) :
    slice own.data (own.offset + i) n = slice shared.data (shared.offset + i) n := by
  have hfit : i + n ≤ own.limit - own.offset := by omega
  rw [← slice_slice hfit, h.window, slice_slice hfit]

theorem leAt_eq {n : Nat} (hin : own.offset + n ≤ own.limit) :
    leAt own.data own.offset n = leAt shared.data shared.offset n := by
  rw [leAt_eq_slice, leAt_eq_slice]
  exact congrArg leNat (h.slice_eq (i := 0) (by omega))

theorem inside {n : Nat} (hpos : 0 < n) (hin : own.offset + n ≤ own.limit) :
    shared.offset + n ≤ shared.data.length := by
  have hlength := congrArg List.length (h.slice_eq (i := 0) (n := n) (by omega))
  have hwhole := h.whole
  rw [slice_length, slice_length] at hlength
  omega

theorem skip {n : Nat} (hin : own.offset + n ≤ own.limit) :
    Follows stop stack (own.skip n) (shared.skip n) := by
  have hplace := h.place
  have hroom := h.room
  rw [skip_of_plain h.plain]
  refine ⟨h.whole, h.plain, hin, ?_, ?_, h.depth, h.maxDepth, ?_, h.sorted⟩
  · show shared.offset + n + own.limit = stop + (own.offset + n)
    omega
  · show slice own.data (own.offset + n) (own.limit - (own.offset + n)) =
      slice shared.data (shared.offset + n) (own.limit - (own.offset + n))
    exact h.slice_eq (by omega)
  · show popExpired (shared.offset + n) shared.limit shared.limitStack = popExpired (shared.offset + n) stop stack
    by_cases hlt : shared.offset < stop
    · rw [h.limitStack_eq, h.limit_eq, popExpired_of_ne (Nat.ne_of_lt hlt)]
    · -- nothing is left, and what had expired is popped already
      have hzero : n = 0 := by omega
      subst hzero
      rw [h.limitStack_eq, h.limit_eq]
      exact popExpired_popExpired ..

theorem nested : Follows stop stack own.nested shared.nested where
  whole := h.whole
  plain := h.plain
  room := h.room
  place := h.place
  window := h.window
  depth := congrArg (· + 1) h.depth
  maxDepth := h.maxDepth
  limits := h.limits
  sorted := h.sorted

theorem resume {own' shared' : BebopReader} (h' : Follows stop stack own' shared')
    (hown : own'.data = own.data) (hshared : shared'.data = shared.data) :
    Follows stop stack (own.resume own') (shared.resume shared') where
  whole := by
    have hwhole := h'.whole
    rw [hown] at hwhole
    exact hwhole
  plain := h'.plain
  room := h'.room
  place := h'.place
  window := by
    have hwindow := h'.window
    rw [hown, hshared] at hwindow
    exact hwindow
  depth := h.depth
  maxDepth := h.maxDepth
  limits := h'.limits
  sorted := h.sorted

end Follows

/-- What a reader keeps, and where it loads, while a value is decoded. -/
structure Extends (r r' : BebopReader) : Prop where
  offset : r.offset ≤ r'.offset
  data : r'.data = r.data
  depth : r'.depth = r.depth
  maxDepth : r'.maxDepth = r.maxDepth
  loads : ∃ more, r'.loads = r.loads ++ more ∧ ∀ load ∈ more, r.offset ≤ load.1 ∧ load.1 + load.2 ≤ r'.offset

namespace Extends

theorem refl (r : BebopReader) : Extends r r :=
  ⟨Nat.le_refl _, rfl, rfl, rfl, [], (List.append_nil _).symm, by simp⟩

theorem trans {r r' r'' : BebopReader} (h : Extends r r') (h' : Extends r' r'') : Extends r r'' := by
  obtain ⟨more, hmore, hin⟩ := h.loads
  obtain ⟨more', hmore', hin'⟩ := h'.loads
  have hle := h.offset
  have hle' := h'.offset
  refine ⟨hle.trans hle', h'.data.trans h.data, h'.depth.trans h.depth, h'.maxDepth.trans h.maxDepth, more ++ more',
    by rw [hmore', hmore, List.append_assoc], ?_⟩
  intro load hload
  rcases List.mem_append.mp hload with hload | hload
  · have := hin load hload
    omega
  · have := hin' load hload
    omega

theorem skip (r : BebopReader) (n : Nat) : Extends r (r.skip n) := by
  refine ⟨Nat.le_add_right _ _, rfl, rfl, rfl, [(r.offset, n)], rfl, ?_⟩
  intro load hload
  rw [List.mem_singleton.mp hload]
  exact ⟨Nat.le_refl _, Nat.le_refl _⟩

theorem resume {r r' : BebopReader} (h : Extends r.nested r') : Extends r (r.resume r') :=
  ⟨h.offset, rfl, rfl, rfl, h.loads⟩

end Extends

/-- `shared` does what `own` does; where `own` refuses, it may run past `stop`. -/
def Simulates {α : Type} (stop : Nat) (stack : List Nat) :
    Except DecodingError (α × BebopReader) → Except DecodingError (α × BebopReader) → Prop
  | .ok (value, own), shared => ∃ r, shared = .ok (value, r) ∧ Follows stop stack own r
  | .error _, shared => ∀ value r, shared = .ok (value, r) → stop < r.offset

structure Disciplined {α : Type} (decode : Decoder α) : Prop where
  extend : ∀ r value r', decode r = .ok (value, r') → Extends r r'
  simulate : ∀ stop stack own shared, Follows stop stack own shared →
    Simulates stop stack (decode own) (decode shared)

namespace Disciplined

variable {α β V : Type}

theorem pure (value : α) : Disciplined (pure value : Decoder α) where
  extend := by
    intro r value' r' h
    cases h
    exact Extends.refl r
  simulate := by
    intro stop stack own shared h
    exact ⟨shared, rfl, h⟩

theorem throw (e : DecodingError) : Disciplined (throw e : Decoder α) where
  extend := by
    intro r value r' h
    cases h
  simulate := by
    intro stop stack own shared _ value r h
    cases h

theorem bind {x : Decoder α} {f : α → Decoder β} (hx : Disciplined x) (hf : ∀ a, Disciplined (f a)) :
    Disciplined (x >>= f) where
  extend := by
    intro r value r' h
    rw [bind_run] at h
    cases hfirst : x r with
    | error e =>
      rw [hfirst] at h
      cases h
    | ok p =>
      rw [hfirst] at h
      exact (hx.extend r p.1 p.2 hfirst).trans ((hf p.1).extend p.2 value r' h)
  simulate := by
    intro stop stack own shared h
    have hsim := hx.simulate stop stack own shared h
    rw [bind_run, bind_run]
    cases hown : x own with
    | ok p =>
      rw [hown] at hsim
      obtain ⟨r, hshared, hfollows⟩ := hsim
      rw [hshared]
      exact (hf p.1).simulate stop stack p.2 r hfollows
    | error e =>
      -- once past `stop`, `shared` does not come back
      rw [hown] at hsim
      intro value r hr
      cases hshared : x shared with
      | error e =>
        rw [hshared] at hr
        cases hr
      | ok p =>
        rw [hshared] at hr
        exact Nat.lt_of_lt_of_le (hsim p.1 p.2 hshared) ((hf p.1).extend p.2 value r hr).offset

theorem readBytes (count : Nat) : Disciplined (readBytes count) where
  extend := by
    intro r value r' h
    rw [readBytes_run] at h
    split at h
    · cases h
      exact Extends.skip r count
    · cases h
  simulate := by
    intro stop stack own shared h
    have hplace := h.place
    have hstop := h.stop_le
    rw [readBytes_run, readBytes_run]
    by_cases hin : own.offset + count ≤ own.limit
    · rw [if_pos hin, if_pos (by omega)]
      have hslice := h.slice_eq (i := 0) (n := count) (by omega)
      simp only [Nat.add_zero] at hslice
      exact ⟨_, by rw [hslice], h.skip hin⟩
    · rw [if_neg hin]
      intro value r hr
      split at hr
      · cases hr
        show stop < shared.offset + count
        omega
      · cases hr

theorem readMessage (decode : Nat → List UInt8 → Except DecodingError V) : Disciplined (readMessage decode) where
  extend := by
    intro r value r' h
    rw [readMessage_run] at h
    split at h
    · split at h
      · cases h
        exact Extends.skip r _
      · cases h
    · cases h
  simulate := by
    intro stop stack own shared h
    have hplace := h.place
    have hstop := h.stop_le
    rw [readMessage_run, readMessage_run]
    by_cases hfour : own.offset + 4 ≤ own.limit
    · rw [← h.leAt_eq hfour, h.depth]
      generalize leAt own.data own.offset 4 = length
      by_cases hin : 0 < length ∧ own.offset + (length + 4) ≤ own.limit
      · have hslice := h.slice_eq (i := 0) (n := length + 4) (by omega)
        simp only [Nat.add_zero] at hslice
        rw [if_pos hin, if_pos (by omega), hslice]
        cases decode own.depth (slice shared.data shared.offset (length + 4)) with
        | ok value => exact ⟨_, rfl, h.skip hin.2⟩
        | error e =>
          intro value r hr
          cases hr
      · rw [if_neg hin]
        intro value r hr
        split at hr
        · split at hr
          · cases hr
            show stop < shared.offset + (length + 4)
            omega
          · cases hr
        · cases hr
    · -- the prefix itself runs past the end
      rw [if_neg (by omega)]
      intro value r hr
      split at hr
      · split at hr
        · cases hr
          show stop < shared.offset + (leAt shared.data shared.offset 4 + 4)
          omega
        · cases hr
      · cases hr

theorem readNested {decode : Decoder V} (hdecode : Disciplined decode) : Disciplined (readNested decode) where
  extend := by
    intro r value r' h
    unfold BebopReader.readNested at h
    split at h
    · split at h
      · rename_i v nested hnested
        cases h
        exact (hdecode.extend r.nested _ nested hnested).resume
      · cases h
    · cases h
  simulate := by
    intro stop stack own shared h
    have hsim := hdecode.simulate stop stack own.nested shared.nested h.nested
    unfold BebopReader.readNested
    rw [h.depth, h.maxDepth]
    by_cases hdepth : own.depth < own.maxDepth
    · rw [if_pos hdepth, if_pos hdepth]
      cases hown : decode own.nested with
      | ok p =>
        rw [hown] at hsim
        obtain ⟨r, hshared, hfollows⟩ := hsim
        rw [hshared]
        exact ⟨_, rfl, h.resume hfollows (hdecode.extend _ _ _ hown).data (hdecode.extend _ _ _ hshared).data⟩
      | error e =>
        rw [hown] at hsim
        intro value r hr
        split at hr
        · rename_i v nested hshared
          cases hr
          exact hsim _ nested hshared
        · cases hr
    · rw [if_neg hdepth]
      intro value r hr
      rw [if_neg hdepth] at hr
      cases hr

end Disciplined

end Bebop.Swift.Limits
