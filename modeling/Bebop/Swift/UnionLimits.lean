import Bebop.Swift.LimitedReader

/-!
# Bebop — Swift unions stay inside their length prefix

A union is decoded under the limits as its body is alone (`readBody_enter`), and so as
its view is read (`accepts_of_fits`). What goes wrong is the limit of an enclosing
union: it is dropped when the offset reaches it, though a union that ends there, or
whose prefix does, is still being read (`contained_iff`).
-/

namespace Bebop.Swift.Limits

open Bytes BebopReader

/-! ## The body of a union -/

namespace BebopReader

/-- The length that the union at this position declares. -/
def declared (r : BebopReader) : Nat := leAt r.data r.offset 4

def stop (r : BebopReader) : Nat := r.offset + 4 + r.declared

/-- The declared body is there, under the limit in force after the prefix. -/
def Fits (r : BebopReader) : Prop := r.offset + 4 ≤ r.limit ∧ 0 < r.declared ∧ r.stop ≤ (r.skip 4).limit

instance (r : BebopReader) : Decidable r.Fits := inferInstanceAs (Decidable (_ ∧ _ ∧ _))

def enter (r : BebopReader) : BebopReader :=
  { r.skip 4 with limitStack := (r.skip 4).limit :: (r.skip 4).limitStack, limit := r.stop }

def body (r : BebopReader) : BebopReader := ofData (slice r.data (r.offset + 4) r.declared) r.maxDepth r.depth

theorem begin_run (r : BebopReader) : beginLengthPrefixedValue r =
    if r.Fits then .ok (r.declared, r.enter) else .error .unexpectedEndOfData := by
  have hdeclared : leAt r.data r.offset 4 = r.declared := rfl
  have hoffset : (r.skip 4).offset = r.offset + 4 := rfl
  have hstop : r.stop = r.offset + 4 + r.declared := rfl
  unfold beginLengthPrefixedValue
  rw [bind_run, readUInt32_run, hdeclared]
  by_cases hfits : r.Fits
  · obtain ⟨hfour, hpos, hroom⟩ := id hfits
    rw [if_pos hfits, if_pos hfour]
    dsimp only
    rw [if_pos hpos, bind_run]
    unfold ensureBytes
    rw [if_pos (by omega)]
    rfl
  · rw [if_neg hfits]
    unfold Fits at hfits
    by_cases hfour : r.offset + 4 ≤ r.limit
    · rw [if_pos hfour]
      dsimp only
      by_cases hpos : 0 < r.declared
      · rw [if_pos hpos, bind_run]
        unfold ensureBytes
        rw [if_neg (by omega)]
      · rw [if_neg hpos]
        rfl
    · rw [if_neg hfour]

end BebopReader

/-- The discriminator and the branch, or what is left of the body. -/
def readBody {V : Type} (discriminators : List UInt8) (decode : UInt8 → Decoder V) (length : Nat) :
    Decoder (UnionValue V) := do
  let disc ← readByte
  if disc ∈ discriminators then UnionValue.branch disc <$> readNested (decode disc)
  else do
    let data ← readBytes ((length - 1 : Nat) : Int)
    return .unknown disc data

section Union

variable {V : Type} {discriminators : List UInt8} {decode : UInt8 → Decoder V}

theorem Disciplined.map {α β : Type} (f : α → β) {x : Decoder α} (h : Disciplined x) : Disciplined (f <$> x) :=
  h.bind fun a => Disciplined.pure (f a)

theorem Disciplined.readByte : Disciplined readByte :=
  Disciplined.map (fun bytes : List UInt8 => bytes.headD 0) (Disciplined.readBytes 1)

variable (discriminators) in
theorem Disciplined.readBody (h : ∀ disc, Disciplined (decode disc)) (length : Nat) :
    Disciplined (readBody discriminators decode length) := by
  refine Disciplined.readByte.bind ?_
  intro disc
  split
  · exact (h disc).readNested.map _
  · exact (Disciplined.readBytes _).bind fun data => Disciplined.pure _

theorem decodeUnion_run (r : BebopReader) : decodeUnion discriminators decode r =
    if r.Fits then
      match readBody discriminators decode r.declared r.enter with
      | .ok (value, r') => if r'.offset = r.stop then .ok (value, r') else .error .trailingData
      | .error e => .error e
    else .error .unexpectedEndOfData := by
  unfold decodeUnion
  rw [bind_run, begin_run]
  by_cases hfits : r.Fits
  · rw [if_pos hfits, if_pos hfits]
    unfold readBody
    rw [bind_run, readByte_run]
    show (do
      let disc ← readByte
      let result ← decodeCase discriminators decode r.stop disc
      if (← get).offset = r.stop then return result else throw .trailingData : Decoder (UnionValue V)) r.enter = _
    rw [bind_run, readByte_run]
    by_cases hroom : r.enter.offset + 1 ≤ r.enter.limit
    · have hrest : (r.stop : Int) - (r.enter.skip 1).offset = ((r.declared - 1 : Nat) : Int) := by
        show ((r.offset + 4 + r.declared : Nat) : Int) - ((r.offset + 4 + 1 : Nat) : Int) = _
        have hpos := hfits.2.1
        omega
      rw [if_pos hroom]
      dsimp only
      generalize (slice r.enter.data r.enter.offset 1).headD 0 = disc
      show (decodeCase discriminators decode r.stop disc >>= _) (r.enter.skip 1) = _
      have hcase : decodeCase discriminators decode r.stop disc (r.enter.skip 1) =
          (if disc ∈ discriminators then UnionValue.branch disc <$> readNested (decode disc)
          else do
            let data ← readBytes ((r.declared - 1 : Nat) : Int)
            return .unknown disc data : Decoder (UnionValue V)) (r.enter.skip 1) := by
        rw [← hrest]
        unfold decodeCase
        split <;> rfl
      rw [bind_run, hcase]
      split
      · rename_i value r' hbody
        rw [hbody]
        dsimp only
        show (ite (r'.offset = r.stop) _ _ : Decoder (UnionValue V)) r' = _
        split <;> rfl
      · rename_i e hbody
        rw [hbody]
    · rw [if_neg hroom]
  · rw [if_neg hfits, if_neg hfits]

namespace BebopReader

theorem skip_limit_of_lt {r : BebopReader} {n : Nat} (h : r.offset + n < r.limit) :
    (r.skip n).limit = r.limit ∧ (r.skip n).limitStack = r.limitStack := by
  unfold BebopReader.skip advance popExpiredLimitIfNeeded
  dsimp only
  rw [popExpired_of_ne (by omega)]
  exact ⟨rfl, rfl⟩

theorem follows_enter {r : BebopReader} (hfits : r.Fits) (hsorted : Sorted r.limit r.limitStack)
    (hdata : r.stop ≤ r.data.length) : Follows r.stop r.enter.limitStack r.body r.enter := by
  have hstop : r.stop = r.offset + 4 + r.declared := rfl
  have hlength : (slice r.data (r.offset + 4) r.declared).length = r.declared := by
    unfold slice
    rw [List.length_take, List.length_drop]
    omega
  have hlimit : r.body.limit = r.declared := hlength
  have hpopped := hsorted.popExpired (r.offset + 4)
  refine ⟨rfl, rfl, Nat.zero_le _, ?_, ?_, rfl, rfl, ?_, hpopped.push hfits.2.2⟩
  · show r.offset + 4 + r.body.limit = r.stop + 0
    omega
  · show slice (slice r.data (r.offset + 4) r.declared) 0 (r.body.limit - 0) =
      slice r.data (r.offset + 4) (r.body.limit - 0)
    rw [slice_slice (by omega)]
  · show (r.stop, r.enter.limitStack) = popExpired (r.offset + 4) r.stop r.enter.limitStack
    have hpos := hfits.2.1
    rw [popExpired_of_ne (by omega)]

end BebopReader

theorem Follows.limits_stop {stop : Nat} {stack : List Nat} {own shared : BebopReader} {limit : Nat}
    (h : Follows stop (limit :: stack) own shared) (hend : shared.offset = stop) :
    (shared.limit, shared.limitStack) = popExpired stop limit stack := by
  rw [h.limits, hend, popExpired_self]

theorem Extends.enter (r : BebopReader) : Extends r r.enter := by
  obtain ⟨hoffset, hdata, hdepth, hmaxDepth, hloads⟩ := Extends.skip r 4
  exact ⟨hoffset, hdata, hdepth, hmaxDepth, hloads⟩

variable (discriminators) in
theorem readBody_enter (h : ∀ disc, Disciplined (decode disc)) {r : BebopReader} (hfits : r.Fits)
    (hsorted : Sorted r.limit r.limitStack) (hdata : r.stop ≤ r.data.length) (value : UnionValue V) :
    (∃ r', decodeUnion discriminators decode r = .ok (value, r')) ↔
      ∃ own, readBody discriminators decode r.declared r.body = .ok (value, own) ∧ own.offset = own.limit := by
  have hsim := (Disciplined.readBody discriminators h r.declared).simulate _ _ _ _
    (follows_enter hfits hsorted hdata)
  rw [decodeUnion_run, if_pos hfits]
  cases hown : readBody discriminators decode r.declared r.body with
  | error e =>
    rw [hown] at hsim
    refine iff_of_false ?_ (by simp)
    rintro ⟨r', hr'⟩
    split at hr'
    · rename_i value' shared hshared
      have hpast := hsim _ _ hshared
      rw [if_neg (by omega)] at hr'
      cases hr'
    · cases hr'
  | ok p =>
    rw [hown] at hsim
    obtain ⟨shared, hshared, hfollows⟩ := hsim
    rw [hshared]
    have hplace := hfollows.place
    have hroom := hfollows.room
    dsimp only
    by_cases hend : shared.offset = r.stop
    · rw [if_pos hend]
      constructor
      · rintro ⟨r', hr'⟩
        cases hr'
        exact ⟨p.2, rfl, by omega⟩
      · rintro ⟨own, hp, -⟩
        cases hp
        exact ⟨shared, rfl⟩
    · rw [if_neg hend]
      refine iff_of_false (by simp) ?_
      rintro ⟨own, hp, hwhole⟩
      cases hp
      dsimp only at hplace
      exact hend (by omega)

theorem decodeUnion_ends (h : ∀ disc, Disciplined (decode disc)) {r : BebopReader} {value : UnionValue V}
    {r' : BebopReader}
    (hdecode : decodeUnion discriminators decode r = .ok (value, r')) :
    r.Fits ∧ r'.offset = r.stop ∧ Extends r r' := by
  rw [decodeUnion_run] at hdecode
  split at hdecode
  · rename_i hfits
    split at hdecode
    · rename_i value' shared hshared
      split at hdecode
      · rename_i hend
        cases hdecode
        exact ⟨hfits, hend, (Extends.enter r).trans ((Disciplined.readBody _ h _).extend _ _ _ hshared)⟩
      · cases hdecode
    · cases hdecode
  · cases hdecode

theorem decodeUnion_limits (h : ∀ disc, Disciplined (decode disc)) {r : BebopReader}
    (hsorted : Sorted r.limit r.limitStack) (hdata : r.stop ≤ r.data.length) {value : UnionValue V} {r' : BebopReader}
    (hdecode : decodeUnion discriminators decode r = .ok (value, r')) :
    (r'.limit, r'.limitStack) = popExpired r.stop (r.skip 4).limit (r.skip 4).limitStack := by
  obtain ⟨hfits, hend, -⟩ := decodeUnion_ends h hdecode
  have hsim := (Disciplined.readBody discriminators h r.declared).simulate _ _ _ _
    (follows_enter hfits hsorted hdata)
  rw [decodeUnion_run, if_pos hfits] at hdecode
  cases hshared : readBody discriminators decode r.declared r.enter with
  | error e =>
    rw [hshared] at hdecode
    cases hdecode
  | ok q =>
    rw [hshared] at hdecode
    dsimp only at hdecode
    split at hdecode
    · cases hdecode
      cases hown : readBody discriminators decode r.declared r.body with
      | error e =>
        rw [hown] at hsim
        have hpast := hsim _ _ hshared
        omega
      | ok p =>
        rw [hown] at hsim
        obtain ⟨shared, hshared', hfollows⟩ := hsim
        rw [hshared] at hshared'
        cases hshared'
        exact hfollows.limits_stop hend
    · cases hdecode

theorem Follows.skip_limit {stop : Nat} {stack : List Nat} {own shared : BebopReader}
    (h : Follows stop stack own shared)
    (n : Nat) : (own.skip n).limit = own.limit ∧ (own.skip n).limitStack = [] := by
  rw [skip_of_plain h.plain]
  exact ⟨rfl, h.plain⟩

theorem Follows.fits {stop : Nat} {stack : List Nat} {own shared : BebopReader} (h : Follows stop stack own shared)
    (hfits : own.Fits) :
    shared.Fits ∧ shared.declared = own.declared ∧ shared.body = own.body ∧ shared.stop ≤ stop ∧
      shared.offset + 4 < stop := by
  obtain ⟨hfour, hpos, hroom⟩ := hfits
  have hplace := h.place
  have hstop : own.stop = own.offset + 4 + own.declared := rfl
  have hstop' : shared.stop = shared.offset + 4 + shared.declared := rfl
  have hdeclared : shared.declared = own.declared := (h.leAt_eq hfour).symm
  rw [(h.skip_limit 4).1] at hroom
  have hlimit := h.limit_of_lt (by omega)
  have hslice := h.slice_eq (i := 4) (n := own.declared) (by omega)
  refine ⟨⟨by omega, by omega, ?_⟩, hdeclared, ?_, by omega, by omega⟩
  · rw [(skip_limit_of_lt (by omega)).1]
    omega
  · unfold BebopReader.body
    rw [hdeclared, hslice, h.depth, h.maxDepth]

theorem Follows.fits_of {stop : Nat} {stack : List Nat} {own shared : BebopReader} (h : Follows stop stack own shared)
    (hfits : shared.Fits) (hle : shared.stop ≤ stop) : own.Fits := by
  obtain ⟨-, hpos, -⟩ := hfits
  have hplace := h.place
  have hstop : own.stop = own.offset + 4 + own.declared := rfl
  have hstop' : shared.stop = shared.offset + 4 + shared.declared := rfl
  have hdeclared : own.declared = shared.declared := h.leAt_eq (by omega)
  refine ⟨by omega, by omega, ?_⟩
  rw [(h.skip_limit 4).1]
  omega

theorem Follows.union {stop : Nat} {stack : List Nat} {own shared : BebopReader} (h : Follows stop stack own shared)
    (hdecode : ∀ disc, Disciplined (decode disc)) (hfits : own.Fits) {value value' : UnionValue V} {own' shared' : BebopReader}
    (hown : decodeUnion discriminators decode own = .ok (value, own'))
    (hshared : decodeUnion discriminators decode shared = .ok (value', shared')) : Follows stop stack own' shared' := by
  obtain ⟨hfits', hdeclared, -, hle, hlt⟩ := h.fits hfits
  have hplace := h.place
  have hwhole := h.whole
  have hstop : own.stop = own.offset + 4 + own.declared := rfl
  have hstop' : shared.stop = shared.offset + 4 + shared.declared := rfl
  have hroom := hfits.2.2
  rw [(h.skip_limit 4).1] at hroom
  have hlimit := h.limit_of_lt (by omega)
  have hsorted : Sorted shared.limit shared.limitStack := by
    rw [h.limitStack_eq, h.limit_eq]
    exact h.sorted.popExpired _
  obtain ⟨-, hend, hext⟩ := decodeUnion_ends hdecode hown
  obtain ⟨-, hend', hext'⟩ := decodeUnion_ends hdecode hshared
  have hplain : Sorted own.limit own.limitStack := by
    rw [h.plain]
    exact List.pairwise_singleton ..
  have hlimits := decodeUnion_limits hdecode hplain (by omega) hown
  have hlimits' := decodeUnion_limits hdecode hsorted
    (by have := h.inside (n := 4 + own.declared) (by omega) (by omega); omega) hshared
  rw [(h.skip_limit 4).1, (h.skip_limit 4).2] at hlimits
  rw [(skip_limit_of_lt (by omega)).1, (skip_limit_of_lt (by omega)).2] at hlimits'
  have hlimit' : own'.limit = own.limit := congrArg Prod.fst hlimits
  refine ⟨?_, congrArg Prod.snd hlimits, by omega, by omega, ?_, ?_, ?_, ?_, h.sorted⟩
  · rw [hext.data, hlimit', hwhole]
  · have hwindow := h.slice_eq (i := 4 + own.declared) (n := own.limit - own.stop) (by omega)
    rw [hext.data, hext'.data, hend, hend', hlimit', hstop, hstop', hdeclared, Nat.add_assoc, Nat.add_assoc]
    rw [hstop, Nat.add_assoc] at hwindow
    exact hwindow
  · rw [hext'.depth, hext.depth, h.depth]
  · rw [hext'.maxDepth, hext.maxDepth, h.maxDepth]
  · have hlt' : shared.offset < stop := by omega
    rw [hlimits', hend', hlimit, h.limitStack_eq, popExpired_of_ne (Nat.ne_of_lt hlt')]

theorem Disciplined.decodeUnion (hdecode : ∀ disc, Disciplined (decode disc)) :
    Disciplined (decodeUnion discriminators decode) where
  extend := by
    intro r value r' h
    exact (decodeUnion_ends hdecode h).2.2
  simulate := by
    intro stop stack own shared h
    have hplace := h.place
    have hwhole := h.whole
    have hsorted : Sorted shared.limit shared.limitStack := by
      rw [h.limitStack_eq, h.limit_eq]
      exact h.sorted.popExpired _
    have hplain : Sorted own.limit own.limitStack := by
      rw [h.plain]
      exact List.pairwise_singleton ..
    by_cases hfits : own.Fits
    · obtain ⟨hfits', hdeclared, hbody, hle, hlt⟩ := h.fits hfits
      have hroom := hfits.2.2
      have hstop : own.stop = own.offset + 4 + own.declared := rfl
      have hstop' : shared.stop = shared.offset + 4 + shared.declared := rfl
      rw [(h.skip_limit 4).1] at hroom
      have hdata := h.inside (n := 4 + own.declared) (by omega) (by omega)
      have hiff := readBody_enter discriminators hdecode hfits hplain (by omega)
      have hiff' := readBody_enter discriminators hdecode hfits' hsorted (by omega)
      rw [hbody, hdeclared] at hiff'
      cases hown : Limits.decodeUnion discriminators decode own with
      | ok p =>
        obtain ⟨shared', hshared⟩ := (hiff' p.1).mpr ((hiff p.1).mp ⟨p.2, hown⟩)
        exact ⟨shared', hshared, h.union hdecode hfits hown hshared⟩
      | error e =>
        intro value shared' hshared
        obtain ⟨own', hown'⟩ := (hiff value).mpr ((hiff' value).mp ⟨shared', hshared⟩)
        rw [hown] at hown'
        cases hown'
    · rw [decodeUnion_run, if_neg hfits]
      intro value shared' hshared
      obtain ⟨hfits', hend, -⟩ := decodeUnion_ends hdecode hshared
      by_contra hpast
      exact hfits (h.fits_of hfits' (by omega))

end Union

theorem Reads.disciplined {V : Type} (reads : Reads V) : Disciplined reads.run := by
  induction reads with
  | done value => exact Disciplined.pure value
  | fail e => exact Disciplined.throw e
  | bytes count next ih => exact (Disciplined.readBytes count).bind ih
  | message decode next ih => exact (Disciplined.readMessage decode).bind ih
  | nested record next hrecord ih => exact hrecord.readNested.bind ih
  | union discriminators branch next hbranch ih => exact (Disciplined.decodeUnion hbranch).bind ih

/-! ## The view reader -/

/-- A reader of its own over the bytes of a view reader, at the same place. -/
structure Faces (own : BebopReader) (v : BebopViewReader) : Prop where
  data : own.data = v.encoded
  whole : own.limit = own.data.length
  plain : own.limitStack = []
  offset : own.offset = v.offset
  depth : own.depth = v.depth
  maxDepth : own.maxDepth = v.maxDepth

/-- Both accept, with one value and as many bytes read, or neither does. -/
def Matches {V W : Type} (decoded : W → V) :
    Except DecodingError (V × BebopReader) → Except DecodingError (W × BebopViewReader) → Prop
  | .ok (value, own), .ok (view, v) => value = decoded view ∧ own.offset = v.offset
  | .error _, .error _ => True
  | _, _ => False

/-- `decode` and `readView` of a record agree on every buffer of their own. -/
def Agrees {V W : Type} (decoded : W → V) (decode : Decoder V) (view : ViewDecoder W) : Prop :=
  ∀ own v, Faces own v → v.offset ≤ v.encoded.length → Matches decoded (decode own) (view v)

namespace BebopViewReader

/-- The closure that `readUnionView` passes on. -/
def viewBody {W : Type} (discriminators : List UInt8) (view : UInt8 → ViewDecoder W) : ViewDecoder (UnionValue W) := do
  let discriminator ← readByte
  if discriminator ∈ discriminators then UnionValue.branch discriminator <$> readNested (view discriminator)
  else return UnionValue.unknown discriminator (← readBytesView (← get).remaining)

theorem readBytesView_run (v : BebopViewReader) (count : Nat) : readBytesView count v =
    if v.offset + count ≤ v.encoded.length then .ok (slice v.encoded v.offset count, { v with offset := v.offset + count })
    else .error .unexpectedEndOfData := by
  unfold readBytesView
  by_cases h : v.offset + count ≤ v.encoded.length
  · rw [if_pos (by omega), if_pos h]
  · rw [if_neg (by omega), if_neg h]

def body (v : BebopViewReader) : BebopViewReader :=
  ⟨slice v.encoded (v.offset + 4) (leAt v.encoded v.offset 4), 0, v.maxDepth, v.depth⟩

def Fits (v : BebopViewReader) : Prop :=
  0 < leAt v.encoded v.offset 4 ∧ v.offset + 4 + leAt v.encoded v.offset 4 ≤ v.encoded.length

theorem readNested_encoded {W : Type} {decode : ViewDecoder W} {v v' : BebopViewReader} {value : W}
    (h : readNested decode v = .ok (value, v')) : v'.encoded = v.encoded := by
  unfold readNested at h
  split at h
  · split at h
    · cases h
      rfl
    · cases h
  · cases h

instance (v : BebopViewReader) : Decidable v.Fits := inferInstanceAs (Decidable (_ ∧ _))

theorem readLengthPrefixedValue_run {W : Type} (decode : ViewDecoder W) (v : BebopViewReader) :
    readLengthPrefixedValue decode v =
      if v.Fits then
        match decode v.body with
        | .ok (value, body) =>
          if body.offset = body.encoded.length then
            .ok (value, { v with offset := v.offset + 4 + leAt v.encoded v.offset 4 })
          else .error .trailingData
        | .error e => .error e
      else .error .unexpectedEndOfData := by
  have hread : readUInt32 v =
      if v.offset + 4 ≤ v.encoded.length then .ok (leAt v.encoded v.offset 4, { v with offset := v.offset + 4 })
      else .error .unexpectedEndOfData := by
    unfold readUInt32
    rw [bind_run, readBytesView_run]
    by_cases h : v.offset + 4 ≤ v.encoded.length
    · rw [if_pos h, if_pos h]
      rfl
    · rw [if_neg h, if_neg h]
  unfold readLengthPrefixedValue
  rw [bind_run, hread]
  by_cases hfits : v.Fits
  · have hbody : (⟨slice v.encoded (v.offset + 4) (leAt v.encoded v.offset 4), 0, v.maxDepth, v.depth⟩ :
        BebopViewReader) = v.body := rfl
    obtain ⟨hpos, hroom⟩ := id hfits
    have hremaining : leAt v.encoded v.offset 4 ≤ remaining { v with offset := v.offset + 4 } := by
      show leAt v.encoded v.offset 4 ≤ v.encoded.length - (v.offset + 4)
      omega
    rw [if_pos hfits, if_pos (by omega)]
    show (ite _ _ _ : ViewDecoder W) _ = _
    rw [if_pos ⟨hpos, hremaining⟩]
    show (match (decode >>= _ : ViewDecoder W) v.body with | .ok (value, _) => pure value | .error e => throw e :
      ViewDecoder W) _ = _
    rw [bind_run]
    cases decode v.body with
    | error e => rfl
    | ok p =>
      dsimp only
      rw [bind_run]
      unfold finish
      by_cases hend : p.2.offset = p.2.encoded.length
      · rw [if_pos hend, if_pos hend]
        rfl
      · rw [if_neg hend, if_neg hend]
        rfl
  · rw [if_neg hfits]
    unfold Fits at hfits
    by_cases hfour : v.offset + 4 ≤ v.encoded.length
    · rw [if_pos hfour]
      show (ite _ _ _ : ViewDecoder W) _ = _
      have hremaining : ¬(0 < leAt v.encoded v.offset 4 ∧
          leAt v.encoded v.offset 4 ≤ remaining { v with offset := v.offset + 4 }) := by
        show ¬(_ ∧ leAt v.encoded v.offset 4 ≤ v.encoded.length - (v.offset + 4))
        omega
      rw [if_neg hremaining]
      rfl
    · rw [if_neg hfour]

theorem viewRest_run {W : Type} (disc : UInt8) (v : BebopViewReader) (h : v.offset ≤ v.encoded.length) :
    (do return UnionValue.unknown disc (← readBytesView (← get).remaining) : ViewDecoder (UnionValue W)) v =
      .ok (.unknown disc (slice v.encoded v.offset v.remaining), { v with offset := v.encoded.length }) := by
  have hrest : v.offset + v.remaining = v.encoded.length := Nat.add_sub_of_le h
  show (do return UnionValue.unknown disc (← readBytesView v.remaining) : ViewDecoder (UnionValue W)) v = _
  rw [bind_run, readBytesView_run, if_pos (by omega), hrest]
  rfl

theorem viewBody_encoded {W : Type} {discriminators : List UInt8} {view : UInt8 → ViewDecoder W}
    {v v' : BebopViewReader}
    {value : UnionValue W} (h : viewBody discriminators view v = .ok (value, v')) : v'.encoded = v.encoded := by
  unfold viewBody readByte at h
  rw [bind_run, bind_run, readBytesView_run] at h
  by_cases hroom : v.offset + 1 ≤ v.encoded.length
  · rw [if_pos hroom] at h
    replace h : (ite (_ ∈ discriminators) _ _ : ViewDecoder (UnionValue W)) { v with offset := v.offset + 1 } =
      .ok (value, v') := h
    split at h
    · rw [map_run] at h
      split at h
      · rename_i x v₁ hnested
        have hkept := readNested_encoded hnested
        cases h
        exact hkept
      · cases h
    · rw [viewRest_run _ _ hroom] at h
      cases h
      rfl
  · rw [if_neg hroom] at h
    cases h

end BebopViewReader

section Agreement

variable {V W : Type} {decoded : W → V} {discriminators : List UInt8} {decode : UInt8 → Decoder V}
  {view : UInt8 → ViewDecoder W}

theorem Matches.map {α β : Type} (f : V → α) (g : W → β) (decoded' : β → α) (h : ∀ x, f (decoded x) = decoded' (g x))
    {own : BebopReader} {v : BebopViewReader} {x : Decoder V} {y : ViewDecoder W} (hxy : Matches decoded (x own) (y v)) :
    Matches decoded' ((f <$> x) own) ((g <$> y) v) := by
  rw [map_run, map_run]
  cases hx : x own with
  | error e =>
    rw [hx] at hxy
    cases hy : y v with
    | error e' => trivial
    | ok q =>
      rw [hy] at hxy
      exact hxy
  | ok p =>
    rw [hx] at hxy
    cases hy : y v with
    | error e' =>
      rw [hy] at hxy
      exact hxy
    | ok q =>
      rw [hy] at hxy
      exact ⟨by rw [hxy.1, h], hxy.2⟩

theorem Agrees.readNested {x : Decoder V} {y : ViewDecoder W} (h : Agrees decoded x y) :
    Agrees decoded (readNested x) (BebopViewReader.readNested y) := by
  intro own v hfaces hroom
  have hnested := h own.nested v.nested
    ⟨hfaces.data, hfaces.whole, hfaces.plain, hfaces.offset, congrArg (· + 1) hfaces.depth, hfaces.maxDepth⟩ hroom
  unfold BebopReader.readNested BebopViewReader.readNested
  rw [hfaces.depth, hfaces.maxDepth]
  by_cases hdepth : v.depth < v.maxDepth
  · rw [if_pos hdepth, if_pos hdepth]
    cases hx : x own.nested with
    | error e =>
      rw [hx] at hnested
      cases hy : y v.nested with
      | error e' => trivial
      | ok q =>
        rw [hy] at hnested
        exact hnested
    | ok p =>
      rw [hx] at hnested
      cases hy : y v.nested with
      | error e' =>
        rw [hy] at hnested
        exact hnested
      | ok q =>
        rw [hy] at hnested
        exact hnested
  · rw [if_neg hdepth, if_neg hdepth]
    trivial

theorem Faces.skip {own : BebopReader} {v : BebopViewReader} (h : Faces own v) (n : Nat) :
    Faces (own.skip n) { v with offset := v.offset + n } := by
  rw [Follows.skip_of_plain h.plain]
  exact ⟨h.data, h.whole, h.plain, congrArg (· + n) h.offset, h.depth, h.maxDepth⟩

theorem readBody_agrees (h : ∀ disc ∈ discriminators, Agrees decoded (decode disc) (view disc)) {own : BebopReader}
    {v : BebopViewReader} (hfaces : Faces own v) (hstart : v.offset = 0) :
    Matches (UnionValue.map decoded) (readBody discriminators decode v.encoded.length own)
      (BebopViewReader.viewBody discriminators view v) := by
  have hlimit : own.limit = v.encoded.length := by rw [hfaces.whole, hfaces.data]
  have hoffset := hfaces.offset
  unfold readBody BebopViewReader.viewBody BebopViewReader.readByte
  rw [bind_run, bind_run, readByte_run, bind_run, BebopViewReader.readBytesView_run]
  by_cases hroom : v.offset + 1 ≤ v.encoded.length
  · rw [if_pos (by omega), if_pos hroom, hfaces.data, hoffset]
    show Matches _ ((ite (_ ∈ discriminators) _ _ : Decoder (UnionValue V)) (own.skip 1))
      ((ite (_ ∈ discriminators) _ _ : ViewDecoder (UnionValue W)) { v with offset := v.offset + 1 })
    generalize (slice v.encoded v.offset 1).headD 0 = disc
    by_cases hdisc : disc ∈ discriminators
    · rw [if_pos hdisc, if_pos hdisc]
      exact Matches.map (UnionValue.branch disc) (UnionValue.branch disc) (UnionValue.map decoded) (fun _ => rfl)
        ((h disc hdisc).readNested _ _ (hfaces.skip 1) hroom)
    · rw [if_neg hdisc, if_neg hdisc]
      have hown := hfaces.skip 1
      have hlimit' : (own.skip 1).limit = v.encoded.length := by rw [hown.whole, hown.data]
      have hoffset' : (own.skip 1).offset = v.offset + 1 := hown.offset
      rw [BebopViewReader.viewRest_run _ _ hroom, bind_run, readBytes_run, if_pos (by omega), hown.data, hoffset']
      have hrest : BebopViewReader.remaining { v with offset := v.offset + 1 } = v.encoded.length - 1 := by
        show v.encoded.length - (v.offset + 1) = v.encoded.length - 1
        omega
      refine ⟨congrArg (UnionValue.unknown disc) ?_, ?_⟩
      · rw [hrest]
      · show (own.skip 1).offset + (v.encoded.length - 1) = v.encoded.length
        omega
  · rw [if_neg (by omega), if_neg hroom]
    trivial

end Agreement

/-! ## Reachable readers -/

def outermost : Nat → List Nat → Nat
  | limit, [] => limit
  | _, restored :: stack => outermost restored stack

/-- The limits enclose each other, the outermost is the end of the buffer, and none that
the offset has reached is left above another. -/
structure WellFormed (r : BebopReader) : Prop where
  sorted : Sorted r.limit r.limitStack
  outermost : outermost r.limit r.limitStack = r.data.length
  room : r.offset ≤ r.limit
  settled : r.limitStack ≠ [] → r.offset < r.limit

namespace WellFormed

theorem ofData (data : List UInt8) (maxDepth depth : Nat) : WellFormed (ofData data maxDepth depth) where
  sorted := List.pairwise_singleton ..
  outermost := rfl
  room := Nat.zero_le _
  settled h := absurd rfl h

theorem popExpired_settled (offset limit : Nat) (stack : List Nat) :
    (popExpired offset limit stack).2 ≠ [] → offset ≠ (popExpired offset limit stack).1 := by
  induction stack generalizing limit with
  | nil =>
    intro h
    exact absurd rfl h
  | cons restored stack ih =>
    unfold popExpired
    split
    · exact ih restored
    · intro _
      assumption

theorem outermost_popExpired (offset limit : Nat) (stack : List Nat) :
    Limits.outermost (popExpired offset limit stack).1 (popExpired offset limit stack).2 =
      Limits.outermost limit stack := by
  induction stack generalizing limit with
  | nil => rfl
  | cons restored stack ih =>
    by_cases h : offset = limit
    · subst h
      rw [popExpired_self]
      exact ih restored
    · rw [popExpired_of_ne h]

theorem le_outermost {limit : Nat} {stack : List Nat} (h : Sorted limit stack) :
    ∀ l ∈ limit :: stack, l ≤ Limits.outermost limit stack := by
  induction stack generalizing limit with
  | nil =>
    intro l hl
    exact Nat.le_of_eq (List.mem_singleton.mp hl)
  | cons restored stack ih =>
    intro l hl
    have hrest := ih (List.Pairwise.of_cons h)
    rcases List.mem_cons.mp hl with rfl | hl
    · exact (List.rel_of_pairwise_cons h (List.mem_cons_self ..)).trans (hrest restored (List.mem_cons_self ..))
    · exact hrest l hl

theorem limit_le {r : BebopReader} (h : WellFormed r) : ∀ l ∈ r.limit :: r.limitStack, l ≤ r.data.length := by
  rw [← h.outermost]
  exact le_outermost h.sorted

theorem skip {r : BebopReader} (h : WellFormed r) {n : Nat} (hn : r.offset + n ≤ r.limit) : WellFormed (r.skip n) where
  sorted := h.sorted.popExpired _
  outermost := (outermost_popExpired ..).trans h.outermost
  room := hn.trans (h.sorted.le_popExpired _)
  settled := by
    intro hne
    have hle : r.offset + n ≤ (r.skip n).limit := hn.trans (h.sorted.le_popExpired _)
    have hsettled : r.offset + n ≠ (r.skip n).limit := popExpired_settled _ _ _ hne
    have hoffset : (r.skip n).offset = r.offset + n := rfl
    omega

theorem enter {r : BebopReader} (h : WellFormed r) (hfits : r.Fits) : WellFormed r.enter where
  sorted := (h.skip hfits.1).sorted.push hfits.2.2
  outermost := (h.skip hfits.1).outermost
  room := Nat.le_add_right _ _
  settled := by
    intro _
    have hpos := hfits.2.1
    show r.offset + 4 < r.offset + 4 + r.declared
    omega

theorem nested {r : BebopReader} (h : WellFormed r) : WellFormed r.nested := ⟨h.sorted, h.outermost, h.room, h.settled⟩

theorem stop_le {r : BebopReader} (h : WellFormed r) (hfits : r.Fits) : r.stop ≤ r.data.length :=
  hfits.2.2.trans ((h.skip hfits.1).limit_le _ (List.mem_cons_self ..))

theorem resume {r r' : BebopReader} (h : WellFormed r') (hdata : r'.data = r.data) : WellFormed (r.resume r') where
  sorted := h.sorted
  outermost := h.outermost.trans (congrArg List.length hdata)
  room := h.room
  settled := h.settled

theorem union {V : Type} {discriminators : List UInt8} {decode : UInt8 → Decoder V}
    (hdecode : ∀ disc, Disciplined (decode disc)) {r r' : BebopReader} (h : WellFormed r) {value : UnionValue V}
    (hrun : decodeUnion discriminators decode r = .ok (value, r')) : WellFormed r' := by
  obtain ⟨hfits, hend, hext⟩ := decodeUnion_ends hdecode hrun
  have hlimits := decodeUnion_limits hdecode h.sorted (h.stop_le hfits) hrun
  have hlimit : r'.limit = (popExpired r.stop (r.skip 4).limit (r.skip 4).limitStack).1 := congrArg Prod.fst hlimits
  have hstack : r'.limitStack = (popExpired r.stop (r.skip 4).limit (r.skip 4).limitStack).2 := congrArg Prod.snd hlimits
  have hskip := h.skip hfits.1
  have hroom : r'.offset ≤ r'.limit := by
    rw [hend, hlimit]
    exact hfits.2.2.trans (hskip.sorted.le_popExpired _)
  refine ⟨?_, ?_, hroom, ?_⟩
  · rw [hlimit, hstack]
    exact hskip.sorted.popExpired _
  · rw [hlimit, hstack, outermost_popExpired, hext.data]
    exact hskip.outermost
  · intro hne
    rw [hstack] at hne
    have hsettled := popExpired_settled _ _ _ hne
    rw [← hlimit] at hsettled
    omega

theorem readBytes {r r' : BebopReader} (h : WellFormed r) {count : Nat} {bytes : List UInt8}
    (hrun : readBytes (count : Int) r = .ok (bytes, r')) : WellFormed r' := by
  rw [readBytes_run] at hrun
  by_cases hroom : r.offset + count ≤ r.limit
  · rw [if_pos hroom] at hrun
    cases hrun
    exact h.skip hroom
  · rw [if_neg hroom] at hrun
    cases hrun

theorem readMessage {V : Type} {decode : Nat → List UInt8 → Except DecodingError V} {r r' : BebopReader}
    (h : WellFormed r) {value : V} (hrun : readMessage decode r = .ok (value, r')) : WellFormed r' := by
  rw [readMessage_run] at hrun
  split at hrun
  · rename_i hroom
    split at hrun
    · cases hrun
      exact h.skip hroom.2
    · cases hrun
  · cases hrun

theorem readNested {V : Type} {decode : Decoder V} (hdecode : Disciplined decode)
    (hkeeps : ∀ {r r' value}, WellFormed r → decode r = .ok (value, r') → WellFormed r') {r r' : BebopReader}
    (h : WellFormed r) {value : V} (hrun : readNested decode r = .ok (value, r')) : WellFormed r' := by
  unfold BebopReader.readNested at hrun
  split at hrun
  · split at hrun
    · rename_i v inner hinner
      have hdata := (hdecode.extend _ _ _ hinner).data
      have hkept := hkeeps h.nested hinner
      cases hrun
      exact hkept.resume hdata
    · cases hrun
  · cases hrun

theorem run {V : Type} (reads : Reads V) {r r' : BebopReader} (h : WellFormed r) {value : V}
    (hrun : reads.run r = .ok (value, r')) : WellFormed r' := by
  induction reads generalizing r r' value with
  | done v =>
    cases hrun
    exact h
  | fail e => cases hrun
  | bytes count next ih =>
    unfold Reads.run at hrun
    rw [bind_run] at hrun
    split at hrun
    · rename_i bytes r₁ hbytes
      exact ih bytes (h.readBytes hbytes) hrun
    · cases hrun
  | message decode next ih =>
    unfold Reads.run at hrun
    rw [bind_run] at hrun
    split at hrun
    · rename_i v r₁ hmessage
      exact ih v (h.readMessage hmessage) hrun
    · cases hrun
  | nested record next hrecord ih =>
    unfold Reads.run at hrun
    rw [bind_run] at hrun
    split at hrun
    · rename_i v r₁ hnested
      exact ih v (h.readNested record.disciplined (fun hstart hinner => hrecord hstart hinner) hnested) hrun
    · cases hrun
  | union discriminators branch next hbranch ih =>
    unfold Reads.run at hrun
    rw [bind_run] at hrun
    split at hrun
    · rename_i v r₁ hunion
      exact ih v (h.union (fun disc => (branch disc).disciplined) hunion) hrun
    · cases hrun

end WellFormed

/-- In the run of `reads` from a reader, a union with these branches is decoded at
another. -/
inductive Visits {V : Type} : Reads V → BebopReader → List UInt8 → (UInt8 → Reads V) → BebopReader → Prop where
  | here {discriminators branch next r} : Visits (.union discriminators branch next) r discriminators branch r
  | bytes {count next r bytes r' discriminators branch r''} :
    readBytes (count : Nat) r = .ok (bytes, r') → Visits (next bytes) r' discriminators branch r'' →
      Visits (.bytes count next) r discriminators branch r''
  | message {decode next r value r' discriminators branch r''} :
    readMessage decode r = .ok (value, r') → Visits (next value) r' discriminators branch r'' →
      Visits (.message decode next) r discriminators branch r''
  | inNested {record next r discriminators branch r''} :
    r.depth < r.maxDepth → Visits record r.nested discriminators branch r'' →
      Visits (.nested record next) r discriminators branch r''
  | nested {record next r value r' discriminators branch r''} :
    readNested (Reads.run record) r = .ok (value, r') → Visits (next value) r' discriminators branch r'' →
      Visits (.nested record next) r discriminators branch r''
  | inBranch {discs branches next r disc r' discriminators branch r''} :
    r.Fits → BebopReader.readByte r.enter = .ok (disc, r') → disc ∈ discs → r'.depth < r'.maxDepth →
      Visits (branches disc) r'.nested discriminators branch r'' →
      Visits (.union discs branches next) r discriminators branch r''
  | union {discs branches next r value r' discriminators branch r''} :
    decodeUnion discs (fun disc => (branches disc).run) r = .ok (value, r') →
      Visits (next value) r' discriminators branch r'' →
      Visits (.union discs branches next) r discriminators branch r''

/-- Whatever is decoded, the limits are in order at every union that it comes to. -/
theorem Visits.wellFormed {V : Type} {reads : Reads V} {r r' : BebopReader} {discriminators : List UInt8}
    {branch : UInt8 → Reads V} (h : Visits reads r discriminators branch r') (hr : WellFormed r) : WellFormed r' := by
  induction h with
  | here => exact hr
  | bytes hbytes _ ih => exact ih (hr.readBytes hbytes)
  | message hmessage _ ih => exact ih (hr.readMessage hmessage)
  | inNested _ _ ih => exact ih hr.nested
  | nested hnested _ ih =>
    exact ih (hr.readNested (Reads.disciplined _) (fun hstart hrun => hstart.run _ hrun) hnested)
  | inBranch hfits hbyte _ _ _ ih =>
    have henter := hr.enter hfits
    rw [readByte_run] at hbyte
    split at hbyte
    · rename_i hroom
      cases hbyte
      exact ih (henter.skip hroom).nested
    · cases hbyte
  | union hunion _ ih => exact ih (hr.union (fun disc => Reads.disciplined _) hunion)

def outerUnion : Reads Unit :=
  .union [1] (fun _ => .union [] (fun _ => .done ()) fun _ => .done ()) fun _ => .done ()

/-- A union in a branch of a union. -/
theorem Visits.wellFormed_inBranch : ∃ r : BebopReader, r.limitStack = [10] ∧ WellFormed r ∧
    Visits outerUnion (ofData [5, 0, 0, 0, 1, 1, 0, 0, 0, 7] 128 0) [] (fun _ => .done ()) r := by
  have hvisits : Visits outerUnion (ofData [5, 0, 0, 0, 1, 1, 0, 0, 0, 7] 128 0) [] (fun _ => .done ()) _ :=
    .inBranch (by decide) rfl (by decide) (by decide) .here
  exact ⟨_, rfl, hvisits.wellFormed (.ofData _ 128 0), hvisits⟩

/-! ## What is promised of a union -/

namespace BebopReader

/-- The view reader that is at this place: over the bytes from `start` up to the limit. -/
def window (r : BebopReader) (start : Nat) : BebopViewReader :=
  ⟨slice r.data start (r.limit - start), r.offset - start, r.maxDepth, r.depth⟩

/-- The body, or the prefix before it, ends where the body of an enclosing union does.
In the second case the declared body is past that end, and within the next limit. -/
def EndsWithEncloser (r : BebopReader) : Prop :=
  0 < r.declared ∧
    (r.stop = r.limit ∧ r.limit < r.data.length ∨ r.offset + 4 = r.limit ∧ r.stop ≤ (r.skip 4).limit)

instance (r : BebopReader) : Decidable r.EndsWithEncloser := inferInstanceAs (Decidable (_ ∧ _))

end BebopReader

/-- A union is decoded exactly when its view is read, to the same branch and value; what is
loaded for it lies in the prefix and the declared body; the reader is moved to the end of
the body, and back under the limit that was in force. -/
structure Contained {V W : Type} (decoded : W → V) (discriminators : List UInt8) (branch : UInt8 → Reads V)
    (view : UInt8 → ViewDecoder W) (r : BebopReader) (start : Nat) : Prop where
  accepts : ∀ value, (∃ r', decodeUnion discriminators (fun disc => (branch disc).run) r = .ok (value, r')) ↔
    ∃ x v', readUnionView discriminators view (r.window start) = .ok (x, v') ∧ value = x.map decoded
  loads : ∀ value r', decodeUnion discriminators (fun disc => (branch disc).run) r = .ok (value, r') →
    ∃ more, r'.loads = r.loads ++ more ∧
      ∀ load ∈ more, r.offset ≤ load.1 ∧ load.1 + load.2 ≤ r.offset + 4 + r.declared
  position : ∀ value r', decodeUnion discriminators (fun disc => (branch disc).run) r = .ok (value, r') →
    r'.offset = r.offset + 4 + r.declared
  limit : ∀ value r', decodeUnion discriminators (fun disc => (branch disc).run) r = .ok (value, r') →
    r'.limit = r.limit

section Window

variable {r : BebopReader} {start : Nat}

theorem window_length (hr : WellFormed r) (start : Nat) : (r.window start).encoded.length = r.limit - start := by
  have hle := hr.limit_le r.limit (List.mem_cons_self ..)
  show (slice r.data start (r.limit - start)).length = _
  rw [Follows.slice_length]
  omega

theorem window_slice (hstart : start ≤ r.offset) {i n : Nat} (hin : r.offset + i + n ≤ r.limit) :
    slice (r.window start).encoded ((r.window start).offset + i) n = slice r.data (r.offset + i) n := by
  show slice (slice r.data start (r.limit - start)) (r.offset - start + i) n = _
  rw [slice_slice (by omega)]
  congr 1
  omega

theorem window_declared (hstart : start ≤ r.offset) (hfour : r.offset + 4 ≤ r.limit) :
    leAt (r.window start).encoded (r.window start).offset 4 = r.declared := by
  have hslice := window_slice hstart (i := 0) (n := 4) (by omega)
  exact congrArg leNat hslice

theorem window_fits (hr : WellFormed r) (hstart : start ≤ r.offset) :
    (r.window start).Fits ↔ r.offset + 4 ≤ r.limit ∧ 0 < r.declared ∧ r.stop ≤ r.limit := by
  have hlength := window_length hr start
  have hoffset : (r.window start).offset = r.offset - start := rfl
  have hroom := hr.room
  have hstop : r.stop = r.offset + 4 + r.declared := rfl
  unfold BebopViewReader.Fits
  by_cases hfour : r.offset + 4 ≤ r.limit
  · rw [window_declared hstart hfour]
    omega
  · omega

theorem window_body (hstart : start ≤ r.offset) (hfour : r.offset + 4 ≤ r.limit) (hstop : r.stop ≤ r.limit) :
    Faces r.body (r.window start).body := by
  have hend : r.stop = r.offset + 4 + r.declared := rfl
  refine ⟨?_, rfl, rfl, rfl, rfl, rfl⟩
  show slice r.data (r.offset + 4) r.declared =
    slice (r.window start).encoded ((r.window start).offset + 4) (leAt (r.window start).encoded (r.window start).offset 4)
  rw [window_declared hstart hfour, window_slice hstart (by omega)]

end Window

section Contained

variable {V W : Type} {decoded : W → V} {discriminators : List UInt8} {decode : UInt8 → Decoder V}
  {view : UInt8 → ViewDecoder W} {r : BebopReader} {start : Nat}

theorem readBody_limit (hdecode : ∀ disc, Disciplined (decode disc)) {value : UnionValue V} {own : BebopReader}
    (h : readBody discriminators decode r.declared r.body = .ok (value, own)) : own.limit = r.body.limit := by
  have hfollows : Follows r.body.limit [] r.body r.body :=
    ⟨rfl, rfl, Nat.zero_le _, Nat.add_comm _ _, rfl, rfl, rfl, rfl, List.pairwise_singleton ..⟩
  have hsim := (Disciplined.readBody discriminators hdecode r.declared).simulate _ _ _ _ hfollows
  rw [h] at hsim
  obtain ⟨own', hown', hkept⟩ := hsim
  rw [hkept.whole, ((Disciplined.readBody _ hdecode _).extend _ _ _ h).data]
  rfl

theorem accepts_of_fits (hdecode : ∀ disc, Disciplined (decode disc))
    (hagree : ∀ disc ∈ discriminators, Agrees decoded (decode disc) (view disc)) (hr : WellFormed r)
    (hstart : start ≤ r.offset) (hfits : r.Fits) (hstop : r.stop ≤ r.limit) (value : UnionValue V) :
    (∃ r', decodeUnion discriminators decode r = .ok (value, r')) ↔
      ∃ x v', readUnionView discriminators view (r.window start) = .ok (x, v') ∧ value = x.map decoded := by
  have hfaces := window_body hstart hfits.1 hstop
  have hlength : (r.window start).body.encoded.length = r.declared := by
    rw [← hfaces.data]
    show (slice r.data (r.offset + 4) r.declared).length = _
    have hle := hr.stop_le hfits
    have hend : r.stop = r.offset + 4 + r.declared := rfl
    rw [Follows.slice_length]
    omega
  have hmatch := readBody_agrees hagree hfaces rfl
  rw [hlength] at hmatch
  have hview : readUnionView discriminators view (r.window start) = _ :=
    BebopViewReader.readLengthPrefixedValue_run (BebopViewReader.viewBody discriminators view) _
  rw [readBody_enter _ hdecode hfits hr.sorted (hr.stop_le hfits), hview,
    if_pos ((window_fits hr hstart).mpr ⟨hfits.1, hfits.2.1, hstop⟩)]
  cases hown : readBody discriminators decode r.declared r.body with
  | error e =>
    rw [hown] at hmatch
    cases hbody : BebopViewReader.viewBody discriminators view (r.window start).body with
    | error e' => simp
    | ok q =>
      rw [hbody] at hmatch
      exact hmatch.elim
  | ok p =>
    rw [hown] at hmatch
    cases hbody : BebopViewReader.viewBody discriminators view (r.window start).body with
    | error e' =>
      rw [hbody] at hmatch
      exact hmatch.elim
    | ok q =>
      rw [hbody] at hmatch
      have hlimit : p.2.limit = r.declared := by
        rw [readBody_limit hdecode hown, ← hlength, ← hfaces.data]
        rfl
      have hencoded : q.2.encoded.length = r.declared := by
        rw [BebopViewReader.viewBody_encoded hbody, hlength]
      dsimp only
      rw [hencoded, ← hmatch.2]
      by_cases hend : p.2.offset = r.declared
      · rw [if_pos hend]
        constructor
        · rintro ⟨own, hp, -⟩
          cases hp
          exact ⟨q.1, _, rfl, hmatch.1⟩
        · rintro ⟨x, v', hx, rfl⟩
          cases hx
          exact ⟨p.2, by rw [← hmatch.1], by omega⟩
      · rw [if_neg hend]
        refine iff_of_false ?_ (by simp)
        rintro ⟨own, hp, hwhole⟩
        cases hp
        exact hend (hwhole.trans hlimit)

theorem contained_of_not {branch : UInt8 → Reads V} (hr : WellFormed r) (hstart : start ≤ r.offset)
    (hends : ¬r.EndsWithEncloser) (hagree : ∀ disc ∈ discriminators, Agrees decoded (branch disc).run (view disc)) :
    Contained decoded discriminators branch view r start := by
  have hdecode : ∀ disc, Disciplined (branch disc).run := fun disc => (branch disc).disciplined
  have hend : r.stop = r.offset + 4 + r.declared := rfl
  have hle := hr.limit_le r.limit (List.mem_cons_self ..)
  -- the prefix leaves the limit as it is, or the union does not fit
  have hkeeps : r.Fits → r.stop ≤ r.limit ∧ (r.skip 4).limit = r.limit ∧ (r.skip 4).limitStack = r.limitStack := by
    intro hfits
    obtain ⟨hfour, hpos, hroom⟩ := id hfits
    have hlt : r.offset + 4 < r.limit := by
      by_contra hcon
      exact hends ⟨hpos, Or.inr ⟨by omega, hroom⟩⟩
    obtain ⟨hlimit, hstack⟩ := skip_limit_of_lt hlt
    exact ⟨by omega, hlimit, hstack⟩
  refine ⟨?_, ?_, ?_, ?_⟩
  · intro value
    by_cases hfits : r.Fits
    · exact accepts_of_fits hdecode hagree hr hstart hfits (hkeeps hfits).1 value
    · have hview : ¬(r.window start).Fits := by
        rw [window_fits hr hstart]
        rintro ⟨hfour, hpos, hstop⟩
        exact hfits ⟨hfour, hpos, hstop.trans (hr.sorted.le_popExpired _)⟩
      have hrun : readUnionView discriminators view (r.window start) = _ :=
        BebopViewReader.readLengthPrefixedValue_run (BebopViewReader.viewBody discriminators view) _
      rw [decodeUnion_run, if_neg hfits, hrun, if_neg hview]
      simp
  · intro value r' hrun
    obtain ⟨-, hoffset, hext⟩ := decodeUnion_ends hdecode hrun
    obtain ⟨more, hmore, hin⟩ := hext.loads
    refine ⟨more, hmore, ?_⟩
    intro load hload
    have := hin load hload
    omega
  · intro value r' hrun
    exact (decodeUnion_ends hdecode hrun).2.1
  · intro value r' hrun
    have hfits := (decodeUnion_ends hdecode hrun).1
    obtain ⟨hstop, hlimit, hstack⟩ := hkeeps hfits
    have hlimits := decodeUnion_limits hdecode hr.sorted (hr.stop_le hfits) hrun
    rw [hlimit, hstack] at hlimits
    rw [show r'.limit = (popExpired r.stop r.limit r.limitStack).1 from congrArg Prod.fst hlimits]
    by_cases hne : r.stop = r.limit
    · -- the limit is then the end of the buffer, as every limit below it is
      have hlast : ¬r.limit < r.data.length := fun hlt => hends ⟨hfits.2.1, Or.inl ⟨hne, hlt⟩⟩
      have hmem := (popExpired_suffix r.stop r.limit r.limitStack).subset (List.mem_cons_self ..)
      have hupper := hr.limit_le _ hmem
      have hlower := hr.sorted.le_popExpired r.stop
      omega
    · rw [popExpired_of_ne hne]

theorem unknown_accepts (hr : WellFormed r) (hfits : r.Fits) :
    ∃ value r', decodeUnion [] (fun _ => (Reads.done ()).run) r = .ok (value, r') := by
  have hdecode : ∀ disc : UInt8, Disciplined (Reads.done ()).run := fun _ => Reads.disciplined _
  have hpos := hfits.2.1
  have hlength : r.body.limit = r.declared := by
    show (slice r.data (r.offset + 4) r.declared).length = _
    have hle := hr.stop_le hfits
    have hend : r.stop = r.offset + 4 + r.declared := rfl
    rw [Follows.slice_length]
    omega
  obtain ⟨value, own, hbody, hwhole⟩ : ∃ value own, readBody [] (fun _ : UInt8 => (Reads.done ()).run) r.declared r.body =
      .ok (value, own) ∧ own.offset = own.limit := by
    unfold readBody
    rw [bind_run, readByte_run, if_pos (by rw [hlength]; exact hpos)]
    show ∃ value own, (ite (_ ∈ []) _ _ : Decoder (UnionValue Unit)) (r.body.skip 1) = .ok (value, own) ∧ _
    rw [if_neg List.not_mem_nil, bind_run, readBytes_run, Follows.skip_of_plain rfl,
      if_pos (by show 0 + 1 + (r.declared - 1) ≤ r.body.limit; omega), Follows.skip_of_plain rfl]
    exact ⟨_, _, rfl, by show 0 + 1 + (r.declared - 1) = r.body.limit; omega⟩
  obtain ⟨r', hr'⟩ := (readBody_enter _ hdecode hfits hr.sorted (hr.stop_le hfits) value).mpr ⟨own, hbody, hwhole⟩
  exact ⟨value, r', hr'⟩

theorem not_contained (hr : WellFormed r) (hstart : start ≤ r.offset) (hends : r.EndsWithEncloser) :
    ¬Contained id [] (fun _ => Reads.done ()) (fun _ => pure ()) r start := by
  intro h
  have hdecode : ∀ disc : UInt8, Disciplined (Reads.done ()).run := fun _ => Reads.disciplined _
  have hend : r.stop = r.offset + 4 + r.declared := rfl
  obtain ⟨hpos, hcases⟩ := hends
  rcases hcases with ⟨hstop, hlt⟩ | ⟨hfour, hstop⟩
  · obtain ⟨hlimit, hstack⟩ := skip_limit_of_lt (r := r) (n := 4) (by omega)
    have hfits : r.Fits := ⟨by omega, hpos, by omega⟩
    obtain ⟨value, r', hrun⟩ := unknown_accepts hr hfits
    have hkept := h.limit value r' hrun
    have hlimits := decodeUnion_limits hdecode hr.sorted (hr.stop_le hfits) hrun
    rw [hlimit, hstack] at hlimits
    -- the limit is dropped, since another is below it
    have hfst : r'.limit = (popExpired r.stop r.limit r.limitStack).1 := congrArg Prod.fst hlimits
    have hsettled := WellFormed.popExpired_settled r.stop r.limit r.limitStack
    have hlast := WellFormed.outermost_popExpired r.stop r.limit r.limitStack
    cases hrest : (popExpired r.stop r.limit r.limitStack).2 with
    | nil =>
      rw [hrest, hr.outermost] at hlast
      have hlast' : (popExpired r.stop r.limit r.limitStack).1 = r.data.length := hlast
      omega
    | cons l ls =>
      have hne := hsettled (by rw [hrest]; exact List.cons_ne_nil _ _)
      omega
  · have hfits : r.Fits := ⟨by omega, hpos, hstop⟩
    obtain ⟨value, r', hrun⟩ := unknown_accepts hr hfits
    obtain ⟨x, v', hview, -⟩ := (h.accepts value).mp ⟨r', hrun⟩
    have hviewFits : ¬(r.window start).Fits := by
      rw [window_fits hr hstart]
      omega
    have hrun' : readUnionView [] (fun _ => pure ()) (r.window start) = _ :=
      BebopViewReader.readLengthPrefixedValue_run (BebopViewReader.viewBody [] fun _ => pure ()) _
    rw [hrun', if_neg hviewFits] at hview
    cases hview

end Contained

/-- At a reader, every union is contained exactly when the body and its prefix end before
the limit in force, or that limit is the end of the buffer. -/
theorem contained_iff {r : BebopReader} (hr : WellFormed r) {start : Nat} (hstart : start ≤ r.offset) :
    (∀ (V W : Type) (decoded : W → V) (discriminators : List UInt8) (branch : UInt8 → Reads V)
      (view : UInt8 → ViewDecoder W), (∀ disc ∈ discriminators, Agrees decoded (branch disc).run (view disc)) →
      Contained decoded discriminators branch view r start) ↔ ¬r.EndsWithEncloser := by
  constructor
  · intro h hends
    refine not_contained hr hstart hends (h Unit Unit id [] _ _ ?_)
    intro disc hdisc
    cases hdisc
  · intro hends V W decoded discriminators branch view hagree
    exact contained_of_not hr hstart hends hagree

theorem contained_atTop :
    Contained id [] (fun _ => Reads.done ()) (fun _ => pure ()) (ofData [2, 0, 0, 0, 1, 7] 128 0) 0 := by
  refine (contained_iff (WellFormed.ofData ..) (Nat.le_refl 0)).mpr (by decide) Unit Unit id [] _ _ fun disc hdisc => ?_
  cases hdisc

/-- The prefix of the inner union ends with the outer body, and the next byte is its body. -/
theorem inner_not_contained : ∃ r,
    Visits outerUnion (ofData [5, 0, 0, 0, 1, 1, 0, 0, 0, 7] 128 0) [] (fun _ => .done ()) r ∧
      ¬Contained id [] (fun _ => Reads.done ()) (fun _ => pure ()) r 4 := by
  refine ⟨_, Visits.inBranch (by decide) rfl (by decide) (by decide) Visits.here, ?_⟩
  apply not_contained
  · exact (((WellFormed.ofData _ 128 0).enter (by decide)).skip (n := 1) (by decide)).nested
  · decide
  · decide

end Bebop.Swift.Limits
