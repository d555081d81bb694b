import Bebop.C.DecodeRules

/-!
# Bebop — where the decoder of a union leaves its reader

A view reader of a union reads the body of a known branch to the end, and the decoder as
much of it as the branch's decoder does. So the two agree on an encoding just where the
branch's decoder and its view reader do, and only at the end of the body (`BodyExact`). A
body that is one byte too long is enough for them to differ (`union_aligned_iff`).
-/

namespace Bebop.C

open Bytes Checked Message Compiler Fallible Decode

variable {descriptors : List DescDef} {branches : List UnionBranch} {branch : UnionBranch} {room ref : Nat}
  {reader : Reader}

/-- What is asked of the decoder of a union where it returns `OK`, and where it does. -/
structure UnionAligned (descriptors : List DescDef) (branches : List UnionBranch) (room ref : Nat)
    (reader : Reader) : Prop where
  /-- The reader is behind the length prefix and the body. -/
  position : ∀ alloc requests value s', decodeReader alloc descriptors room ref ⟨reader, requests⟩ = .ok (value, s') →
    s'.reader.current = reader.current + (4 + reader.bodyLength)
  /-- The decoder of a known branch has read what is left of the body. -/
  consumed : ∀ alloc requests value s', decodeReader alloc descriptors room ref ⟨reader, requests⟩ = .ok (value, s') →
    ∀ (h : reader.HasBody) (branch : UnionBranch), branchOf branches reader.discriminator = some branch →
      ∃ inner t, decodeReader alloc descriptors (room - 1) branch.ref ⟨reader.body h, requests⟩ = .ok (inner, t) ∧
        t.reader.remaining = 0
  /-- The end of the reader is where it was. -/
  limit : ∀ alloc requests value s', decodeReader alloc descriptors room ref ⟨reader, requests⟩ = .ok (value, s') →
    s'.reader.bytes = reader.bytes
  /-- With memory, the decoder accepts what the view reader does. -/
  accepts : (∃ value s', decodeReader always descriptors room ref ⟨reader, 0⟩ = .ok (value, s')) ↔
    ∃ behind, ViewAccepts descriptors ref reader behind

/-- Of a known branch, the decoder does not stop before the end of the body, and accepts what
the view reader reads to the end. -/
def BodyExact (descriptors : List DescDef) (branches : List UnionBranch) (room : Nat) (reader : Reader)
    (h : reader.HasBody) : Prop :=
  match branchOf branches reader.discriminator with
  | some branch =>
    (∀ alloc requests inner t,
      decodeReader alloc descriptors (room - 1) branch.ref ⟨reader.body h, requests⟩ = .ok (inner, t) →
        t.reader.remaining = 0) ∧
    ((∃ inner t, decodeReader always descriptors (room - 1) branch.ref ⟨reader.body h, 0⟩ = .ok (inner, t)) ↔
      ∃ behind, ViewAccepts descriptors branch.ref (reader.body h) behind ∧ behind.remaining = 0)
  | none => 0 < room

/-! ## What accepts a union -/

theorem unionAligned_of_fails (hfails : ∀ alloc requests value s',
    decodeReader alloc descriptors room ref ⟨reader, requests⟩ ≠ .ok (value, s')) :
    UnionAligned descriptors branches room ref reader ↔ ¬∃ behind, ViewAccepts descriptors ref reader behind := by
  constructor
  · rintro haligned hview
    obtain ⟨value, s', hrun⟩ := haligned.accepts.mpr hview
    exact hfails _ _ _ _ hrun
  · intro hview
    refine ⟨fun _ _ _ _ hrun => absurd hrun (hfails _ _ _ _), fun _ _ _ _ hrun => absurd hrun (hfails _ _ _ _),
      fun _ _ _ _ hrun => absurd hrun (hfails _ _ _ _), ?_⟩
    constructor
    · rintro ⟨value, s', hrun⟩
      exact absurd hrun (hfails _ _ _ _)
    · exact fun h => absurd h hview

section

variable (hdef : descriptors[ref]? = some (.union branches))

include hdef

theorem decodeReader_union (alloc : Nat → Bool) (room : Nat) :
    decodeReader alloc descriptors (room + 1) ref = decodeUnion (decodeReader alloc descriptors room) branches := by
  unfold decodeReader decodeBody
  rw [hdef]

theorem viewReader_union (calls : Nat) :
    viewReader descriptors (calls + 1) ref = viewUnion (viewReader descriptors calls) branches := by
  unfold viewReader viewBody
  rw [hdef]

theorem not_viewAccepts_bodiless (h : ¬reader.HasBody) :
    ¬∃ behind, ViewAccepts descriptors ref reader behind := by
  rintro ⟨behind, calls, view, hrun⟩
  cases calls with
  | zero => cases hrun
  | succ calls =>
    obtain ⟨e, he⟩ := @viewUnion_bodiless _ (viewReader descriptors calls) branches h
    rw [viewReader_union hdef, he] at hrun
    cases hrun

theorem viewAccepts_unknown (h : reader.HasBody)
    (hbranch : branchOf branches reader.discriminator = none) :
    ∃ behind, ViewAccepts descriptors ref reader behind := by
  obtain ⟨view, behind, hrun⟩ := (@viewUnion_ok _ (viewReader descriptors 0) branches h).mpr
    ⟨_, viewBranch_unknown hbranch⟩
  refine ⟨behind, 1, view, ?_⟩
  rw [viewReader_union hdef, hrun]

theorem viewAccepts_known (h : reader.HasBody)
    (hbranch : branchOf branches reader.discriminator = some branch) :
    (∃ behind, ViewAccepts descriptors ref reader behind) ↔
      ∃ behind, ViewAccepts descriptors branch.ref (reader.body h) behind ∧ behind.remaining = 0 := by
  constructor
  · rintro ⟨behind, calls, view, hrun⟩
    cases calls with
    | zero => cases hrun
    | succ calls =>
      rw [viewReader_union hdef] at hrun
      obtain ⟨view', behind', hread, hend⟩ := (viewBranch_known hbranch).mp ((viewUnion_ok h).mp ⟨view, behind, hrun⟩)
      exact ⟨behind', ⟨calls, view', hread⟩, hend⟩
  · rintro ⟨behind, ⟨calls, view, hread⟩, hend⟩
    obtain ⟨view', behind', hrun⟩ := (viewUnion_ok h).mpr ((viewBranch_known hbranch).mpr ⟨view, behind, hread, hend⟩)
    refine ⟨behind', calls + 1, view', ?_⟩
    rw [viewReader_union hdef, hrun]

/-! ## One reader -/

theorem unionAligned_bodiless (h : ¬reader.HasBody) :
    UnionAligned descriptors branches room ref reader := by
  refine (unionAligned_of_fails fun alloc requests value s' hrun => ?_).mpr (not_viewAccepts_bodiless hdef h)
  cases room with
  | zero => cases hrun
  | succ room =>
    obtain ⟨e, he⟩ := @decodeUnion_bodiless _ (decodeReader alloc descriptors room) branches requests h
    rw [decodeReader_union hdef, he] at hrun
    cases hrun

theorem unionAligned_unknown (h : reader.HasBody)
    (hbranch : branchOf branches reader.discriminator = none) :
    UnionAligned descriptors branches room ref reader ↔ 0 < room := by
  have hview := viewAccepts_unknown hdef h hbranch
  cases room with
  | zero =>
    rw [unionAligned_of_fails (fun _ _ _ _ hrun => (by cases hrun))]
    exact iff_of_false (not_not_intro hview) (Nat.lt_irrefl 0)
  | succ room =>
    have hrun (alloc : Nat → Bool) (requests : Nat) : decodeReader alloc descriptors (room + 1) ref ⟨reader, requests⟩ =
        .ok (.union 0 none, ⟨reader.behind h.1, requests⟩) := by
      rw [decodeReader_union hdef, decodeUnion_unknown h hbranch]
    refine iff_of_true ⟨?_, ?_, ?_, ?_⟩ (Nat.succ_pos room)
    · intro alloc requests value s' hok
      rw [hrun] at hok
      cases hok
      rfl
    · intro alloc requests value s' hok h' branch hsome
      rw [hbranch] at hsome
      cases hsome
    · intro alloc requests value s' hok
      rw [hrun] at hok
      cases hok
      rfl
    · exact iff_of_true ⟨_, _, hrun always 0⟩ hview

theorem unionAligned_known (h : reader.HasBody)
    (hbranch : branchOf branches reader.discriminator = some branch) :
    UnionAligned descriptors branches room ref reader ↔ BodyExact descriptors branches room reader h := by
  unfold BodyExact
  rw [hbranch]
  dsimp only
  have hview := viewAccepts_known hdef h hbranch
  have hlength := Reader.length_take_stop h.1
  cases room with
  | zero =>
    rw [unionAligned_of_fails (fun _ _ _ _ hrun => (by cases hrun)), hview]
    constructor
    · intro hnone
      refine ⟨fun _ _ _ _ hrun => (by cases hrun), ?_⟩
      refine iff_of_false ?_ hnone
      rintro ⟨inner, t, hrun⟩
      cases hrun
    · rintro ⟨-, hiff⟩ hbehind
      obtain ⟨inner, t, hrun⟩ := hiff.mpr hbehind
      cases hrun
  | succ room =>
    have hrun (alloc : Nat → Bool) (requests : Nat) (value : Value) (s' : Decoding) :
        decodeReader alloc descriptors (room + 1) ref ⟨reader, requests⟩ = .ok (value, s') ↔ ∃ inner t,
          decodeReader alloc descriptors room branch.ref ⟨reader.body h, requests⟩ = .ok (inner, t) ∧
            value = .union reader.discriminator (some inner) ∧ s' = ⟨t.reader.popLimit reader.bytes, t.requests⟩ := by
      rw [decodeReader_union hdef]
      exact decodeUnion_known h hbranch
    have hend {alloc : Nat → Bool} {requests : Nat} {inner : Value} {t : Decoding}
        (hinner : decodeReader alloc descriptors room branch.ref ⟨reader.body h, requests⟩ = .ok (inner, t)) :
        t.reader.bytes = reader.bytes.take reader.stop :=
      (sameEnd_decodeReader alloc descriptors room branch.ref).ends _ _ _ hinner
    have haccepts : (∃ value s', decodeReader always descriptors (room + 1) ref ⟨reader, 0⟩ = .ok (value, s')) ↔
        ∃ inner t, decodeReader always descriptors room branch.ref ⟨reader.body h, 0⟩ = .ok (inner, t) := by
      constructor
      · rintro ⟨value, s', hok⟩
        obtain ⟨inner, t, hinner, -⟩ := (hrun _ _ _ _).mp hok
        exact ⟨inner, t, hinner⟩
      · rintro ⟨inner, t, hinner⟩
        exact ⟨_, _, (hrun _ _ _ _).mpr ⟨inner, t, hinner, rfl, rfl⟩⟩
    constructor
    · intro haligned
      refine ⟨fun alloc requests inner t hinner => ?_, ?_⟩
      · have hposition := haligned.position _ _ _ _ ((hrun _ _ _ _).mpr ⟨inner, t, hinner, rfl, rfl⟩)
        rw [(popLimit_take (hend hinner)).2] at hposition
        unfold Reader.remaining
        rw [hend hinner, hlength, hposition]
        exact Nat.sub_self _
      · rw [← hview, ← haligned.accepts]
        exact haccepts.symm
    · rintro ⟨hexact, hiff⟩
      refine ⟨?_, ?_, ?_, ?_⟩
      · intro alloc requests value s' hok
        obtain ⟨inner, t, hinner, -, rfl⟩ := (hrun _ _ _ _).mp hok
        have hremaining := hexact _ _ _ _ hinner
        have hle := t.reader.current_le
        unfold Reader.remaining at hremaining
        rw [hend hinner, hlength] at hremaining hle
        rw [(popLimit_take (hend hinner)).2]
        exact Nat.le_antisymm hle (Nat.sub_eq_zero_iff_le.mp hremaining)
      · intro alloc requests value s' hok h' branch' hbranch'
        rw [hbranch] at hbranch'
        obtain rfl := Option.some.inj hbranch'
        obtain ⟨inner, t, hinner, -, rfl⟩ := (hrun _ _ _ _).mp hok
        exact ⟨inner, t, hinner, hexact _ _ _ _ hinner⟩
      · intro alloc requests value s' hok
        exact (sameEnd_decodeReader alloc descriptors (room + 1) ref).ends _ _ _ hok
      · rw [haccepts, hview]
        exact hiff

theorem unionAligned_iff_bodyExact (room : Nat) (reader : Reader) :
    UnionAligned descriptors branches room ref reader ↔ ∀ h :
    reader.HasBody, BodyExact descriptors branches room reader h := by
  by_cases h : reader.HasBody
  · rw [forall_prop_of_true h]
    cases hbranch : branchOf branches reader.discriminator with
    | some branch => exact unionAligned_known hdef h hbranch
    | none =>
      unfold BodyExact
      rw [hbranch]
      exact unionAligned_unknown hdef h hbranch
  · rw [forall_prop_of_false h]
    exact iff_of_true (unionAligned_bodiless hdef h) trivial

end

/-! ## All readers -/

/-- The bytes of a union: a length prefix, a discriminator and what comes after it. -/
def unionBytes (discriminator : UInt8) (content : List UInt8) : List UInt8 :=
  leBytes 4 (content.length + 1) ++ discriminator :: content

def unionReader (discriminator : UInt8) (content : List UInt8) : Reader :=
  ⟨unionBytes discriminator content, 0, Nat.zero_le _⟩

section

variable {discriminator : UInt8} {content : List UInt8}

theorem length_unionBytes : (unionBytes discriminator content).length = 4 + (content.length + 1) := by
  unfold unionBytes
  rw [List.length_append, length_leBytes, List.length_cons]

theorem bodyLength_unionReader (h : content.length + 1 < 256 ^ 4) :
    (unionReader discriminator content).bodyLength = content.length + 1 := leAt_leBytes h _

theorem hasBody_unionReader (h : content.length + 1 < 256 ^ 4) : (unionReader discriminator content).HasBody := by
  have hlength := @bodyLength_unionReader discriminator _ h
  have hremaining : (unionReader discriminator content).remaining = 4 + (content.length + 1) := length_unionBytes
  exact ⟨⟨by omega, by omega⟩, by omega⟩

theorem discriminator_unionReader : (unionReader discriminator content).discriminator = discriminator.toNat := by
  show byteAt (leBytes 4 _ ++ discriminator :: content) 4 = _
  rw [byteAt_append_right (Nat.le_of_eq (length_leBytes ..)), length_leBytes]
  rfl

theorem rest_body_unionReader (h : content.length + 1 < 256 ^ 4) :
    ((unionReader discriminator content).body (hasBody_unionReader h)).rest = content := by
  have hstop : (unionReader discriminator content).stop = (unionBytes discriminator content).length := by
    unfold Reader.stop
    rw [bodyLength_unionReader h, length_unionBytes]
    exact Nat.zero_add _
  show ((unionBytes discriminator content).take (unionReader discriminator content).stop).drop 5 = _
  rw [hstop, List.take_length]
  rfl

end

/-- The branch has values that fit into a body with a byte to spare: its discriminator is a
byte other than zero, and it names a definition with a codec of its own. -/
def Usable (descriptors : List DescDef) (branch : UnionBranch) : Prop :=
  0 < branch.discriminator ∧ branch.discriminator < 256 ∧ enumBaseType descriptors branch.ref = none ∧
    ∃ n, Buildable descriptors (.defined branch.ref) n ∧ n + 2 < 256 ^ 4

theorem decodeType_defined {decodeDefined : Nat → Decode Value} {alloc : Nat → Bool}
    (h : enumBaseType descriptors ref = none) :
    decodeType alloc descriptors decodeDefined (.defined ref) = decodeDefined ref := by
  unfold decodeType
  rw [h]

theorem not_bodyExact_of_passes {bytes : List UInt8} (hdisc : branch.discriminator < 256)
    (hlength : bytes.length + 2 < 256 ^ 4)
    (hpasses : Passes Decoding.reader (decodeReader always descriptors (room - 1) branch.ref) bytes fun _ => True)
    (hbranch : branchOf branches branch.discriminator = some branch) :
    ∃ (reader : Reader) (h : reader.HasBody), ¬BodyExact descriptors branches room reader h := by
  have hshort : (bytes ++ [0]).length + 1 < 256 ^ 4 := by
    rw [List.length_append]
    exact hlength
  refine ⟨unionReader (UInt8.ofNat branch.discriminator) (bytes ++ [0]), hasBody_unionReader hshort, ?_⟩
  unfold BodyExact
  rw [discriminator_unionReader, UInt8.toNat_ofNat_of_lt' hdisc, hbranch]
  rintro ⟨hexact, -⟩
  have hrest := @rest_body_unionReader (UInt8.ofNat branch.discriminator) _ hshort
  obtain ⟨inner, t, hrun, -, hbytes, hcurrent⟩ := hpasses
    ⟨(unionReader (UInt8.ofNat branch.discriminator) (bytes ++ [0])).body (hasBody_unionReader hshort), 0⟩
    ⟨[0], hrest.symm⟩
  have hremaining := hexact always 0 inner t hrun
  have hbefore := congrArg List.length hrest
  rw [Reader.length_rest, List.length_append, List.length_singleton] at hbefore
  unfold Reader.remaining at hremaining hbefore
  rw [hbytes, hcurrent] at hremaining
  dsimp only at hremaining
  omega

theorem not_bodyExact_of_blocked {bytes : List UInt8} {calls : Nat} (hdisc : branch.discriminator < 256)
    (hlength : bytes.length + 1 < 256 ^ 4) (hblocked : Blocked (decodeReader always descriptors (room - 1) branch.ref))
    (hviews : Passes id (viewReader descriptors calls branch.ref) bytes fun _ => True)
    (hbranch : branchOf branches branch.discriminator = some branch) :
    ∃ (reader : Reader) (h : reader.HasBody), ¬BodyExact descriptors branches room reader h := by
  refine ⟨unionReader (UInt8.ofNat branch.discriminator) bytes, hasBody_unionReader hlength, ?_⟩
  unfold BodyExact
  rw [discriminator_unionReader, UInt8.toNat_ofNat_of_lt' hdisc, hbranch]
  rintro ⟨-, haccepts⟩
  have hrest := @rest_body_unionReader (UInt8.ofNat branch.discriminator) _ hlength
  obtain ⟨view, behind, hrun, -, hbytes, hcurrent⟩ := hviews
    ((unionReader (UInt8.ofNat branch.discriminator) bytes).body (hasBody_unionReader hlength))
    ⟨[], (List.append_nil _).trans hrest.symm⟩
  have hend : behind.remaining = 0 := by
    have hbefore := congrArg List.length hrest
    rw [Reader.length_rest] at hbefore
    change behind.bytes = _ at hbytes
    change behind.current = _ at hcurrent
    unfold Reader.remaining at hbefore ⊢
    rw [hbytes, hcurrent]
    dsimp only [id]
    omega
  obtain ⟨inner, t, hdecoded⟩ := haccepts.mpr ⟨behind, ⟨calls, view, hrun⟩, hend⟩
  exact hblocked _ _ _ hdecoded

theorem Usable.not_bodyExact (h : Usable descriptors branch) (room : Nat)
    (hbranch : branchOf branches branch.discriminator = some branch) :
    ∃ (reader : Reader) (hbody : reader.HasBody), ¬BodyExact descriptors branches room reader hbody := by
  obtain ⟨-, hdisc, henum, n, hbuildable, hsize⟩ := h
  have hdecides := hbuildable.decides (room - 1)
  rw [decodeType_defined henum] at hdecides
  rcases hdecides with ⟨bytes, hlength, hpasses⟩ | hblocked
  · exact not_bodyExact_of_passes hdisc (by omega) hpasses hbranch
  · obtain ⟨bytes, calls, hlength, hviews⟩ := hbuildable.views
    have hview : Passes id (viewReader descriptors calls branch.ref) bytes fun _ => True := by
      have hskip := hviews calls (Nat.le_refl _)
      unfold viewSkipType at hskip
      rw [henum] at hskip
      intro reader hprefix
      obtain ⟨_, s', hrun, -, hpost⟩ := hskip reader hprefix
      obtain ⟨view, t, hread, hpure⟩ := run_bind_ok.mp hrun
      obtain ⟨-, rfl⟩ := run_pure_ok.mp hpure
      exact ⟨view, t, hread, trivial, hpost⟩
    exact not_bodyExact_of_blocked hdisc (by omega) hblocked hview hbranch

/-- On each reader the decoder of a union is right just where the body of a known branch is
one that the branch's decoder reads to the end, or refuses as its view reader does. So it
is wrong on some bytes if there are branches that have values. -/
theorem union_aligned_iff (hdef : descriptors[ref]? = some (.union branches)) (room : Nat) :
    (∀ reader, UnionAligned descriptors branches room ref reader ↔
      ∀ h : reader.HasBody, BodyExact descriptors branches room reader h) ∧
    ((∀ branch ∈ branches, Usable descriptors branch) →
      ((∀ reader, UnionAligned descriptors branches room ref reader) ↔ branches = [] ∧ 0 < room)) := by
  refine ⟨unionAligned_iff_bodyExact hdef room, fun husable => ⟨fun haligned => ?_, ?_⟩⟩
  · have hexact (reader : Reader) := (unionAligned_iff_bodyExact hdef room reader).mp (haligned reader)
    cases branches with
    | nil => exact ⟨rfl, hexact _ (@hasBody_unionReader 0 [] (by decide))⟩
    | cons branch branches =>
      have hbranch : branchOf (branch :: branches) branch.discriminator = some branch :=
        List.find?_cons_of_pos (decide_eq_true rfl)
      obtain ⟨reader, hbody, hwrong⟩ := (husable branch (List.mem_cons_self ..)).not_bodyExact room hbranch
      exact absurd (hexact reader hbody) hwrong
  · rintro ⟨rfl, hroom⟩ reader
    exact (unionAligned_iff_bodyExact hdef room reader).mpr fun _ => hroom

/-- A struct of a byte, and a union with it as the branch `1`. -/
def byteUnion : List DescDef := [.struct [.scalar .byte], .union [⟨1, 0⟩]]

theorem usable_byteUnion : ∀ branch ∈ [(⟨1, 0⟩ : UnionBranch)], Usable byteUnion branch := by
  intro branch hbranch
  obtain rfl := List.mem_singleton.mp hbranch
  refine ⟨by decide, by decide, rfl, 1, ?_, by decide⟩
  refine @Buildable.struct _ 0 [.scalar .byte] (fun _ => 1) rfl fun type htype => ?_
  obtain rfl := List.mem_singleton.mp htype
  exact .scalar .byte

theorem union_aligned_byteUnion : ¬∀ reader, UnionAligned byteUnion [⟨1, 0⟩] 64 1 reader := by
  intro haligned
  obtain ⟨hnone, -⟩ := ((@union_aligned_iff byteUnion [⟨1, 0⟩] 1 rfl 64).2 usable_byteUnion).mp haligned
  cases hnone

/-- A byte behind the branch's value: only the view reader refuses it. -/
theorem union_aligned_fails : ¬UnionAligned byteUnion [⟨1, 0⟩] 64 1 (unionReader 1 [7, 9]) := by
  intro haligned
  have hposition := haligned.position always 0 (.union 1 (some (.struct [.scalar [7]]))) ⟨⟨unionBytes 1 [7, 9], 6, by decide⟩, 0⟩ rfl
  exact absurd hposition (by decide)

end Bebop.C
