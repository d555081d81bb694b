import Bebop.Message.Tags

/-!
# Bebop — what a decoded message guarantees

`Decoded.Sound` lists what holds of a directory that was read. It is all there is to know
(`decodeDirectory_eq_some`), so later modules never unfold `decodeDirectory`. Checking each
slice by itself, as an accessor does, is the same as scanning the boundaries in order, as a
validator does (`boundariesOk_iff`).
-/

namespace Bebop.Message

open Bytes Bits

def Decoded.size (bs : List UInt8) (d : Decoded) : Nat :=
  directorySize d.kind (byteAt bs (bs.length - 2))

structure Decoded.Sound (bs : List UInt8) (d : Decoded) : Prop where
  header : HeaderOk bs
  kind : DirectoryKind.ofCode (control bs / 4) = some d.kind
  width : d.width = 2 ^ (control bs % 4)
  directory : d.directory = bs.length - 1 - d.size bs
  tags : directoryTags bs d.kind d.directory = some d.tags
  boundaries : d.boundaries = d.directory - (d.tags.length - 1) * d.width
  room : (d.tags.length - 1) * d.width + d.size bs + 1 ≤ bs.length - 4
  empty : d.tags = [] → bs.length = 5

theorem decodeDirectory_of_tags {bs : List UInt8} {kind : DirectoryKind} {tags : List Nat}
    (hok : HeaderOk bs) (hkind : DirectoryKind.ofCode (control bs / 4) = some kind)
    (hroom : directorySize kind (byteAt bs (bs.length - 2)) + 1 ≤ bs.length - 4)
    (htags : directoryTags bs kind
      (bs.length - 1 - directorySize kind (byteAt bs (bs.length - 2))) = some tags) :
    decodeDirectory bs =
      if (tags.length - 1) * 2 ^ (control bs % 4) +
          directorySize kind (byteAt bs (bs.length - 2)) + 1 ≤ bs.length - 4 ∧
          (tags = [] → bs.length = 5) then
        some ⟨kind, 2 ^ (control bs % 4),
          bs.length - 1 - directorySize kind (byteAt bs (bs.length - 2)),
          bs.length - 1 - directorySize kind (byteAt bs (bs.length - 2)) -
            (tags.length - 1) * 2 ^ (control bs % 4), tags⟩
      else none := by
  unfold decodeDirectory
  rw [if_pos hok, hkind]
  simp only [Option.bind_eq_bind, Option.bind_some]
  rw [if_pos hroom, htags]
  rfl

theorem decodeDirectory_of_not_header {bs : List UInt8} (h : ¬HeaderOk bs) :
    decodeDirectory bs = none :=
  if_neg h

theorem decodeDirectory_of_short {bs : List UInt8} {kind : DirectoryKind} (hok : HeaderOk bs)
    (hkind : DirectoryKind.ofCode (control bs / 4) = some kind)
    (hroom : ¬directorySize kind (byteAt bs (bs.length - 2)) + 1 ≤ bs.length - 4) :
    decodeDirectory bs = none := by
  unfold decodeDirectory
  rw [if_pos hok, hkind]
  exact if_neg hroom

theorem decodeDirectory_of_no_tags {bs : List UInt8} {kind : DirectoryKind} (hok : HeaderOk bs)
    (hkind : DirectoryKind.ofCode (control bs / 4) = some kind)
    (htags : directoryTags bs kind
      (bs.length - 1 - directorySize kind (byteAt bs (bs.length - 2))) = none) :
    decodeDirectory bs = none := by
  unfold decodeDirectory
  rw [if_pos hok, hkind]
  simp only [Option.bind_eq_bind, Option.bind_some]
  rw [htags]
  exact ite_self _

theorem HeaderOk.kind {bs : List UInt8} (h : HeaderOk bs) :
    ∃ kind, DirectoryKind.ofCode (control bs / 4) = some kind :=
  DirectoryKind.ofCode_isSome (by have := h.2.2.1; omega)

theorem HeaderOk.width_cases {bs : List UInt8} (h : HeaderOk bs) :
    2 ^ (control bs % 4) = 1 ∨ 2 ^ (control bs % 4) = 2 ∨ 2 ^ (control bs % 4) = 4 := by
  have h3 := h.2.2.2
  have hlt := Nat.mod_lt (control bs) (show 0 < 4 by decide)
  rcases (by omega : control bs % 4 = 0 ∨ control bs % 4 = 1 ∨ control bs % 4 = 2) with
    hc | hc | hc <;> rw [hc] <;> decide

theorem decodeDirectory_eq_some {bs : List UInt8} {d : Decoded} :
    decodeDirectory bs = some d ↔ d.Sound bs := by
  constructor
  · intro h
    by_cases hok : HeaderOk bs
    swap
    · rw [decodeDirectory_of_not_header hok] at h
      cases h
    obtain ⟨kind, hkind⟩ := hok.kind
    by_cases hroom : directorySize kind (byteAt bs (bs.length - 2)) + 1 ≤ bs.length - 4
    swap
    · rw [decodeDirectory_of_short hok hkind hroom] at h
      cases h
    cases htags : directoryTags bs kind
        (bs.length - 1 - directorySize kind (byteAt bs (bs.length - 2))) with
    | none =>
      rw [decodeDirectory_of_no_tags hok hkind htags] at h
      cases h
    | some tags =>
      rw [decodeDirectory_of_tags hok hkind hroom htags] at h
      split at h
      · rename_i hfit
        obtain rfl := Option.some.inj h
        exact ⟨hok, hkind, rfl, rfl, htags, rfl, hfit.1, hfit.2⟩
      · cases h
  · intro h
    have hdir := h.directory
    have htags := h.tags
    have hbound := h.boundaries
    have hfit := h.room
    have hempty := h.empty
    have hwidth := h.width
    unfold Decoded.size at hdir hfit
    rw [hdir] at htags hbound
    rw [hwidth] at hbound hfit
    rw [decodeDirectory_of_tags h.header h.kind (by omega) htags, if_pos ⟨hfit, hempty⟩]
    rw [← hdir, ← hwidth] at hbound ⊢
    rw [← hbound]

namespace Decoded.Sound

variable {bs : List UInt8} {d : Decoded} (h : d.Sound bs)

include h

theorem layout : 4 ≤ d.boundaries ∧ d.boundaries + (d.tags.length - 1) * d.width = d.directory ∧
    d.directory + d.size bs + 1 = bs.length := by
  have hlen := h.header.1
  have hdir := h.directory
  have hbound := h.boundaries
  have hroom := h.room
  omega

theorem width_cases : d.width = 1 ∨ d.width = 2 ∨ d.width = 4 := by
  rw [h.width]
  exact h.header.width_cases

theorem pairwise : d.tags.Pairwise (· < ·) := directoryTags_pairwise h.tags

theorem range : ∀ t ∈ d.tags, 1 ≤ t ∧ t ≤ 255 := directoryTags_range h.tags

theorem length_le : d.tags.length ≤ 255 := directoryTags_length_le h.tags

theorem boundary_room {i : Nat} (hi : i + 1 < d.tags.length) :
    d.boundaries + i * d.width + d.width ≤ d.directory := by
  have hle : (i + 1) * d.width ≤ (d.tags.length - 1) * d.width :=
    Nat.mul_le_mul_right _ (by omega)
  have := h.layout
  rw [Nat.succ_mul] at hle
  omega

theorem payload_of_nil (hnil : d.tags = []) : d.payloadSize = 0 := by
  have hlen := h.empty hnil
  have hl := h.layout
  unfold Decoded.payloadSize
  omega

end Decoded.Sound

theorem Decoded.rank?_getElem {d : Decoded} (hp : d.tags.Pairwise (· < ·)) {r : Nat}
    (hr : r < d.tags.length) : d.rank? d.tags[r] = some r := by
  rw [Decoded.rank?, if_pos (List.getElem_mem hr),
    rank_of_getElem? hp (List.getElem?_eq_getElem hr)]

theorem Decoded.rank?_lt {d : Decoded} (hp : d.tags.Pairwise (· < ·)) {t r : Nat}
    (h : d.rank? t = some r) : r < d.tags.length := by
  unfold Decoded.rank? at h
  split at h
  · rename_i hmem
    obtain rfl := Option.some.inj h
    exact rank_lt_length hp hmem
  · cases h

/-! ## Boundaries -/

/-- The `n` boundaries from `i` ascend from `previous` and stay inside. -/
def Decoded.Ascends (bs : List UInt8) (d : Decoded) : (n i previous : Nat) → Prop
  | 0, _, _ => True
  | n + 1, i, previous =>
    (previous ≤ d.boundary bs i ∧ d.boundary bs i ≤ d.payloadSize) ∧
      d.Ascends bs n (i + 1) (d.boundary bs i)

instance Decoded.decidableAscends (bs : List UInt8) (d : Decoded) :
    (n i previous : Nat) → Decidable (d.Ascends bs n i previous)
  | 0, _, _ => inferInstanceAs (Decidable True)
  | n + 1, i, _ =>
    have := d.decidableAscends bs n (i + 1) (d.boundary bs i)
    inferInstanceAs (Decidable (_ ∧ _))

theorem Decoded.ascends_iff {bs : List UInt8} {d : Decoded} {n i : Nat}
    (hn : i + n + 1 = d.tags.length) (hstart : d.fieldStart bs i ≤ d.payloadSize) :
    d.Ascends bs n i (d.fieldStart bs i) ↔
      ∀ r, i ≤ r → r < d.tags.length → d.FieldOk bs r := by
  induction n generalizing i with
  | zero =>
    have hend : d.fieldEnd bs i = d.payloadSize := if_pos hn
    refine ⟨fun _ r hir hr => ?_, fun _ => trivial⟩
    obtain rfl : r = i := by omega
    exact ⟨by rw [hend]; exact hstart, by rw [hend]⟩
  | succ n ih =>
    have hend : d.fieldEnd bs i = d.boundary bs i := if_neg (by omega)
    have hnext : d.fieldStart bs (i + 1) = d.boundary bs i := if_neg (by omega)
    constructor
    · rintro ⟨hi, hrest⟩ r hir hr
      rw [← hnext] at hrest
      rcases Nat.eq_or_lt_of_le hir with rfl | hlt
      · exact ⟨by rw [hend]; exact hi.1, by rw [hend]; exact hi.2⟩
      · exact (ih (by omega) (by rw [hnext]; exact hi.2)).mp hrest r hlt hr
    · intro hall
      obtain ⟨hle, hpay⟩ := hall i (Nat.le_refl i) (by omega)
      rw [hend] at hle hpay
      refine ⟨⟨hle, hpay⟩, ?_⟩
      rw [← hnext]
      exact (ih (by omega) (by rw [hnext]; exact hpay)).mpr fun r hr => hall r (by omega)

theorem Decoded.boundariesOk_iff {bs : List UInt8} {d : Decoded} (hne : d.tags ≠ []) :
    d.Ascends bs (d.tags.length - 1) 0 0 ↔ d.BoundariesOk bs := by
  have hpos := List.length_pos_iff.mpr hne
  have hscan : d.Ascends bs (d.tags.length - 1) 0 (d.fieldStart bs 0) ↔ _ :=
    d.ascends_iff (by omega) (Nat.zero_le _)
  exact hscan.trans
    ⟨fun hall r hr => hall r (Nat.zero_le r) hr, fun hall r _ hr => hall r hr⟩

theorem decode_eq_some {bs : List UInt8} {d : Decoded} :
    decode bs = some d ↔ d.Sound bs ∧ d.BoundariesOk bs := by
  rw [decode, Option.filter_eq_some_iff, decodeDirectory_eq_some, decide_eq_true_iff]

end Bebop.Message
