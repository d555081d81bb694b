import Bebop.Compiler.ParserReads
import Mathlib.Data.List.TakeWhile

/-!
# Bebop — environment variables in a literal

What `bebop__parse_substitute_env_vars` makes of a text: bytes and references `$(NAME)`,
the last of which may not be closed (`ReadsPieces`). The code looks a name up as a C
string, which ends at a zero, and a text of four gigabytes and more is lost where it is
interned. Apart from these two it does what it should (`substitutesOnce_iff`).
-/

namespace Bebop.Compiler

inductive Piece
  | byte (c : UInt8)
  | reference (name : List UInt8)
  deriving DecidableEq

def dollar : UInt8 := '$'.toUInt8

def lparen : UInt8 := '('.toUInt8

def rparen : UInt8 := ')'.toUInt8

def referenceText (name : List UInt8) : List UInt8 := dollar :: lparen :: (name ++ [rparen])

/-- How a text is read, and whether it ends in a reference that is not closed. -/
inductive ReadsPieces : List UInt8 → List Piece → Bool → Prop
  | nil : ReadsPieces [] [] false
  | reference {name rest : List UInt8} {pieces : List Piece} {unclosed : Bool} : rparen ∉ name →
      ReadsPieces rest pieces unclosed →
      ReadsPieces (dollar :: lparen :: (name ++ rparen :: rest)) (.reference name :: pieces) unclosed
  | unclosed {rest : List UInt8} : rparen ∉ rest → ReadsPieces (dollar :: lparen :: rest) [] true
  | byte {c : UInt8} {rest : List UInt8} {pieces : List Piece} {unclosed : Bool} :
      ¬(c = dollar ∧ rest.head? = some lparen) → ReadsPieces rest pieces unclosed →
      ReadsPieces (c :: rest) (.byte c :: pieces) unclosed

/-- The value of a variable, that of the first entry of its name. -/
def valueOf (env : List (List UInt8 × List UInt8)) (name : List UInt8) : Option (List UInt8) :=
  (env.find? (·.1 == name)).map Prod.snd

/-- What a piece is replaced by, where names are looked up in some way. -/
def Piece.replaced (look : List UInt8 → Option (List UInt8)) : Piece → List UInt8
  | .byte c => [c]
  | .reference name => (look name).getD (referenceText name)

/-- A reference with a name that is too long, or with none that is defined. -/
def Piece.Wrong (look : List UInt8 → Option (List UInt8)) (piece : Piece) : Prop :=
  ∃ name, piece = .reference name ∧ (name.length > 255 ∨ look name = none)

def Piece.found (look : List UInt8 → Option (List UInt8)) : Piece → Bool
  | .byte _ => false
  | .reference name => (look name).isSome

theorem exists_readsPieces (text : List UInt8) : ∃ pieces unclosed, ReadsPieces text pieces unclosed := by
  induction hlength : text.length using Nat.strong_induction_on generalizing text with
  | h length ih =>
  cases text with
  | nil => exact ⟨[], false, .nil⟩
  | cons c text =>
    by_cases hopens : c = dollar ∧ text.head? = some lparen
    · obtain ⟨rfl, hhead⟩ := hopens
      obtain ⟨rest, rfl⟩ := List.head?_eq_some_iff.mp hhead
      by_cases hclosed : rparen ∈ rest
      · obtain ⟨name, rest, rfl, hname⟩ := List.eq_append_cons_of_mem hclosed
        have hshorter : rest.length < length := by
          rw [← hlength, List.length_cons, List.length_cons, List.length_append, List.length_cons]
          omega
        obtain ⟨pieces, unclosed, hrest⟩ := ih _ hshorter rest rfl
        exact ⟨_, unclosed, .reference hname hrest⟩
      · exact ⟨[], true, .unclosed hclosed⟩
    · obtain ⟨pieces, unclosed, hrest⟩ := ih text.length (by rw [← hlength]; exact Nat.lt_succ_self _) text rfl
      exact ⟨_, unclosed, .byte hopens hrest⟩

theorem name_unique {name name' rest rest' : List UInt8} (hname : rparen ∉ name) (hname' : rparen ∉ name')
    (h : name ++ rparen :: rest = name' ++ rparen :: rest') : name = name' ∧ rest = rest' := by
  induction name generalizing name' with
  | nil =>
    cases name' with
    | nil => exact ⟨rfl, (List.cons.inj h).2⟩
    | cons c name' => exact absurd ((List.cons.inj h).1 ▸ List.mem_cons_self) hname'
  | cons c name ih =>
    cases name' with
    | nil => exact absurd ((List.cons.inj h).1 ▸ List.mem_cons_self) hname
    | cons c' name' =>
      obtain ⟨rfl, h'⟩ := List.cons.inj h
      obtain ⟨rfl, hrest⟩ := ih (fun hmem => hname (List.mem_cons_of_mem _ hmem))
        (fun hmem => hname' (List.mem_cons_of_mem _ hmem)) h'
      exact ⟨rfl, hrest⟩

theorem ReadsPieces.unique {text : List UInt8} {pieces pieces' : List Piece} {unclosed unclosed' : Bool}
    (h : ReadsPieces text pieces unclosed) (h' : ReadsPieces text pieces' unclosed') :
    pieces = pieces' ∧ unclosed = unclosed' := by
  induction h generalizing pieces' unclosed' with
  | nil =>
    cases h'
    exact ⟨rfl, rfl⟩
  | @reference name rest pieces unclosed hname hrest ih =>
    generalize htext : dollar :: lparen :: (name ++ rparen :: rest) = text at h'
    cases h' with
    | nil => cases htext
    | reference hname' hrest' =>
      obtain ⟨rfl, rfl⟩ := name_unique hname hname' (List.cons.inj (List.cons.inj htext).2).2
      obtain ⟨rfl, rfl⟩ := ih hrest'
      exact ⟨rfl, rfl⟩
    | unclosed hopen =>
      cases htext
      exact absurd (List.mem_append_right _ List.mem_cons_self) hopen
    | byte hbyte _ =>
      cases htext
      exact absurd ⟨rfl, rfl⟩ hbyte
  | @unclosed rest hopen =>
    generalize htext : dollar :: lparen :: rest = text at h'
    cases h' with
    | nil => cases htext
    | reference hname' _ =>
      cases htext
      exact absurd (List.mem_append_right _ List.mem_cons_self) hopen
    | unclosed _ => exact ⟨rfl, rfl⟩
    | byte hbyte _ =>
      cases htext
      exact absurd ⟨rfl, rfl⟩ hbyte
  | byte hbyte _ ih =>
    cases h' with
    | reference _ _ => exact absurd ⟨rfl, rfl⟩ hbyte
    | unclosed _ => exact absurd ⟨rfl, rfl⟩ hbyte
    | byte _ hrest' =>
      obtain ⟨rfl, rfl⟩ := ih hrest'
      exact ⟨rfl, rfl⟩

namespace Parser

open Fallible

variable {p p' : Parser} {env : List (List UInt8 × List UInt8)}

/-- The lookup of the code: what is behind a zero is no part of the name. -/
def lookUp (env : List (List UInt8 × List UInt8)) (name : List UInt8) : Option (List UInt8) :=
  valueOf env (name.takeWhile (· != 0))

/-- The parser has passed a token, at which its errors are reported. -/
def HasPrevious (p : Parser) : Prop := ∃ tok, previousToken p = .ok (tok, p)

theorem HasPrevious.error (h : p.HasPrevious) (code : Nat) (message : String) :
    ∃ p', errorPrevious code message p = .ok ((), p') ∧ p'.HasPrevious := by
  obtain ⟨tok, htok⟩ := h
  refine ⟨_, run_bind_ok.mpr ⟨tok, p, htok, rfl⟩, tok, ?_⟩
  rw [previousToken_ok] at htok ⊢
  obtain ⟨hstart, hread, -⟩ := htok
  dsimp only
  split
  · exact ⟨hstart, hread, rfl⟩
  · exact ⟨hstart, hread, rfl⟩

/-! ## One piece -/

variable {fuel : Nat} {name rest result : List UInt8} {had : Bool} {c : UInt8}

theorem substituteLoop_nil : substituteLoop env fuel [] result had = pure (some result, had) := by
  cases fuel <;> rfl

theorem substituteLoop_byte (hbyte : ¬(c = dollar ∧ rest.head? = some lparen)) :
    substituteLoop env (fuel + 1) (c :: rest) result had = substituteLoop env fuel rest (result ++ [c]) had :=
  if_neg hbyte

theorem substituteLoop_unclosed (hopen : rparen ∉ rest) :
    substituteLoop env (fuel + 1) (dollar :: lparen :: rest) result had = (do
      errorPrevious 123 "Unclosed environment variable reference"
      return (none, had)) := by
  have hdrop : rest.dropWhile (· != rparen) = [] := by
    rw [List.dropWhile_eq_nil_iff]
    intro c hc
    exact bne_iff_ne.mpr fun h => hopen (h ▸ hc)
  unfold substituteLoop
  rw [if_pos ⟨rfl, rfl⟩]
  exact if_pos hdrop

theorem substituteLoop_reference (hname : rparen ∉ name) :
    substituteLoop env (fuel + 1) (dollar :: lparen :: (name ++ rparen :: rest)) result had =
      if name.length > 255 then do
        errorPrevious 123 "Environment variable name too long (max 255 characters)"
        return (none, had)
      else
        match lookUp env name with
        | some value => substituteLoop env fuel rest (result ++ value) true
        | none => (do
          errorPrevious 129 ("Environment variable " ++
            quote ((name.takeWhile (· != 0)).map fun byte => Char.ofNat byte.toNat) ++ " not found")
          substituteLoop env fuel rest (result ++ referenceText name) had) := by
  have hpass : ∀ c ∈ name, (c != ')'.toUInt8) = true := by
    intro c hc
    refine bne_iff_ne.mpr fun h => hname ?_
    rw [show rparen = c from h.symm]
    exact hc
  have htake : (name ++ rparen :: rest).takeWhile (· != ')'.toUInt8) = name := by
    rw [List.takeWhile_append_of_pos hpass, List.takeWhile_cons_of_neg (by decide), List.append_nil]
  have hdrop : (name ++ rparen :: rest).dropWhile (· != ')'.toUInt8) = rparen :: rest := by
    rw [List.dropWhile_append_of_pos hpass, List.dropWhile_cons_of_neg (by decide)]
  have hkept : (dollar :: lparen :: (name ++ rparen :: rest)).take
      ((dollar :: lparen :: (name ++ rparen :: rest)).length - (rparen :: rest).length + 1) = referenceText name := by
    have hsplit : dollar :: lparen :: (name ++ rparen :: rest) = referenceText name ++ rest := by
      simp [referenceText]
    rw [hsplit]
    refine List.take_left' ?_
    simp [referenceText]
    omega
  rw [substituteLoop, if_pos ⟨rfl, rfl⟩]
  dsimp only [List.tail_cons]
  rw [htake, hdrop, hkept, if_neg (List.cons_ne_nil _ _)]
  by_cases hlong : name.length > 255
  · rw [if_pos hlong]
    exact if_pos hlong
  · rw [if_neg hlong]
    refine (if_neg hlong).trans ?_
    unfold lookUp valueOf
    cases env.find? (·.1 == name.takeWhile (· != 0)) with
    | none => rfl
    | some entry => rfl

/-! ## A whole text -/

theorem substituteLoop_ends {text : List UInt8} {pieces : List Piece} {unclosed : Bool}
    (hreads : ReadsPieces text pieces unclosed) (hfuel : text.length ≤ fuel) (hprevious : p.HasPrevious) :
    ∃ r p', substituteLoop env fuel text result had p = .ok (r, p') ∧
      (unclosed = false → (∀ name, .reference name ∈ pieces → name.length ≤ 255) →
        r = (some (result ++ pieces.flatMap (Piece.replaced (lookUp env))),
          had || pieces.any (Piece.found (lookUp env)))) ∧
      (unclosed = true ∨ (∃ name, .reference name ∈ pieces ∧ name.length > 255) → r.1 = none) := by
  induction hreads generalizing fuel result had p with
  | nil =>
    refine ⟨_, p, by rw [substituteLoop_nil]; rfl, fun _ _ => ?_, ?_⟩
    · rw [List.flatMap_nil, List.append_nil, List.any_nil, Bool.or_false]
    · rintro (hopen | ⟨name, hmem, -⟩)
      · cases hopen
      · cases hmem
  | @reference name rest pieces unclosed hname hrest ih =>
    cases fuel with
    | zero => exact absurd hfuel (Nat.not_succ_le_zero _)
    | succ fuel =>
      have hfuel' : rest.length ≤ fuel := by
        simp at hfuel
        omega
      rw [substituteLoop_reference hname]
      by_cases hlong : name.length > 255
      · -- the loop ends without a text
        obtain ⟨p', herror, -⟩ := hprevious.error 123 "Environment variable name too long (max 255 characters)"
        rw [if_pos hlong]
        refine ⟨(none, had), p', run_bind_ok.mpr ⟨(), p', herror, rfl⟩, fun _ hshort => ?_, fun _ => rfl⟩
        exact absurd hlong (Nat.not_lt.mpr (hshort name List.mem_cons_self))
      · rw [if_neg hlong]
        have hothers (hfails : unclosed = true ∨
            ∃ long, .reference long ∈ Piece.reference name :: pieces ∧ long.length > 255) :
            unclosed = true ∨ ∃ long, .reference long ∈ pieces ∧ long.length > 255 := by
          refine hfails.imp_right ?_
          rintro ⟨long, hmem, hlength⟩
          rcases List.mem_cons.mp hmem with heq | hmem
          · cases heq
            exact absurd hlength hlong
          · exact ⟨long, hmem, hlength⟩
        cases hlook : lookUp env name with
        | some value =>
          obtain ⟨r, p', hrun, hr, hnone⟩ := @ih _ fuel (result ++ value) true hfuel' hprevious
          refine ⟨r, p', hrun, fun hclosed hshort => ?_, fun hfails => hnone (hothers hfails)⟩
          rw [hr hclosed fun name hmem => hshort name (List.mem_cons_of_mem _ hmem)]
          simp [Piece.replaced, Piece.found, hlook]
        | none =>
          obtain ⟨q, herror, hprevious'⟩ := hprevious.error 129 ("Environment variable " ++
            quote ((name.takeWhile (· != 0)).map fun byte => Char.ofNat byte.toNat) ++ " not found")
          obtain ⟨r, p', hrun, hr, hnone⟩ := @ih _ fuel (result ++ referenceText name) had hfuel' hprevious'
          refine ⟨r, p', run_bind_ok.mpr ⟨(), q, herror, hrun⟩, fun hclosed hshort => ?_,
            fun hfails => hnone (hothers hfails)⟩
          rw [hr hclosed fun name hmem => hshort name (List.mem_cons_of_mem _ hmem)]
          simp [Piece.replaced, Piece.found, hlook]
  | unclosed hopen =>
    cases fuel with
    | zero => exact absurd hfuel (Nat.not_succ_le_zero _)
    | succ fuel =>
      obtain ⟨p', herror, -⟩ := hprevious.error 123 "Unclosed environment variable reference"
      rw [substituteLoop_unclosed hopen]
      exact ⟨(none, had), p', run_bind_ok.mpr ⟨(), p', herror, rfl⟩, nofun, fun _ => rfl⟩
  | @byte c rest pieces unclosed hbyte hrest ih =>
    cases fuel with
    | zero => exact absurd hfuel (Nat.not_succ_le_zero _)
    | succ fuel =>
      rw [substituteLoop_byte hbyte]
      obtain ⟨r, p', hrun, hr, hnone⟩ := @ih _ fuel (result ++ [c]) had (Nat.le_of_succ_le_succ hfuel) hprevious
      refine ⟨r, p', hrun, fun hclosed hshort => ?_, fun hfails => hnone (hfails.imp_right ?_)⟩
      · rw [hr hclosed fun name hmem => hshort name (List.mem_cons_of_mem _ hmem)]
        simp [Piece.replaced, Piece.found]
      · rintro ⟨long, hmem, hlength⟩
        rcases List.mem_cons.mp hmem with heq | hmem
        · cases heq
        · exact ⟨long, hmem, hlength⟩

theorem substituteLoop_reports {text : List UInt8} {pieces : List Piece} {unclosed : Bool}
    (hreads : ReadsPieces text pieces unclosed) (hfuel : text.length ≤ fuel) (hpanic : p.panicMode = false)
    (hfatal : p.fatal = false) {r : Option (List UInt8) × Bool}
    (hrun : substituteLoop env fuel text result had p = .ok (r, p')) :
    p'.reports = p.reports ↔ unclosed = false ∧ ∀ piece ∈ pieces, ¬piece.Wrong (lookUp env) := by
  -- behind an error there are more reports than before
  have herrors {code : Nat} {message : String} {next : Parse (Option (List UInt8) × Bool)} [Logs next]
      (hrun : (errorPrevious code message >>= fun _ => next) p = .ok (r, p')) : p'.reports ≠ p.reports := by
    obtain ⟨_, q, herror, hnext⟩ := run_bind_ok.mp hrun
    intro hsame
    have hlogs : Adds p q := Logs.logs herror
    have hlogs' : Adds q p' := Logs.logs hnext
    exact errorPrevious_reports hpanic hfatal herror (hlogs.between hlogs' hsame).1
  induction hreads generalizing fuel result had with
  | nil =>
    rw [substituteLoop_nil] at hrun
    obtain ⟨-, rfl⟩ := run_pure_ok.mp hrun
    exact iff_of_true rfl ⟨rfl, nofun⟩
  | @reference name rest pieces unclosed hname hrest ih =>
    cases fuel with
    | zero => exact absurd hfuel (Nat.not_succ_le_zero _)
    | succ fuel =>
      have hfuel' : rest.length ≤ fuel := by
        simp at hfuel
        omega
      rw [substituteLoop_reference hname] at hrun
      by_cases hlong : name.length > 255
      · rw [if_pos hlong] at hrun
        refine iff_of_false (herrors hrun) fun h => ?_
        exact h.2 _ List.mem_cons_self ⟨name, rfl, .inl hlong⟩
      · rw [if_neg hlong] at hrun
        cases hlook : lookUp env name with
        | some value =>
          rw [hlook] at hrun
          refine (ih hfuel' hrun).trans ?_
          rw [List.forall_mem_cons]
          have hright : ¬(Piece.reference name).Wrong (lookUp env) := by
            rintro ⟨_, hname, hwrong⟩
            cases hname
            rcases hwrong with hlong' | hnone
            · exact hlong hlong'
            · cases hlook.symm.trans hnone
          rw [and_iff_right hright]
        | none =>
          rw [hlook] at hrun
          refine iff_of_false (herrors hrun) fun h => ?_
          exact h.2 _ List.mem_cons_self ⟨name, rfl, .inr hlook⟩
  | unclosed hopen =>
    cases fuel with
    | zero => exact absurd hfuel (Nat.not_succ_le_zero _)
    | succ fuel =>
      rw [substituteLoop_unclosed hopen] at hrun
      exact iff_of_false (herrors hrun) nofun
  | @byte c rest pieces unclosed hbyte hrest ih =>
    cases fuel with
    | zero => exact absurd hfuel (Nat.not_succ_le_zero _)
    | succ fuel =>
      rw [substituteLoop_byte hbyte] at hrun
      refine (ih (Nat.le_of_succ_le_succ hfuel) hrun).trans ?_
      rw [List.forall_mem_cons]
      have hright : ¬(Piece.byte c).Wrong (lookUp env) := by
        rintro ⟨_, hname, -⟩
        cases hname
      rw [and_iff_right hright]

/-! ## The whole pass -/

/-- The names and the values of an environment are C strings. -/
def OfStrings (env : List (List UInt8 × List UInt8)) : Prop := ∀ entry ∈ env, 0 ∉ entry.1 ∧ 0 ∉ entry.2

theorem valueOf_eq_some {value : List UInt8} (h : valueOf env name = some value) : (name, value) ∈ env := by
  obtain ⟨entry, hfind, rfl⟩ := Option.map_eq_some_iff.mp h
  have hsame := List.find?_some hfind
  have hname : entry.1 = name := beq_iff_eq.mp hsame
  rw [← hname]
  exact List.mem_of_find?_eq_some hfind

theorem valueOf_of_zero_mem (henv : OfStrings env) (hzero : 0 ∈ name) : valueOf env name = none := by
  cases hvalue : valueOf env name with
  | none => rfl
  | some value => exact absurd hzero (henv _ (valueOf_eq_some hvalue)).1

theorem lookUp_of_zero_not_mem (hzero : 0 ∉ name) : lookUp env name = valueOf env name := by
  have hname : name.takeWhile (· != 0) = name := by
    rw [List.takeWhile_eq_self_iff]
    intro c hc
    exact bne_iff_ne.mpr fun h => hzero (h ▸ hc)
  unfold lookUp
  rw [hname]

theorem lookUp_eq_valueOf (henv : OfStrings env) (hfound : 0 ∈ name → lookUp env name = none) :
    lookUp env name = valueOf env name := by
  by_cases hzero : 0 ∈ name
  · rw [hfound hzero, valueOf_of_zero_mem henv hzero]
  · exact lookUp_of_zero_not_mem hzero

theorem count_zero_replaced (henv : OfStrings env) (piece : Piece) :
    (piece.replaced (lookUp env)).count 0 ≤ (piece.replaced (valueOf env)).count 0 := by
  cases piece with
  | byte c => exact Nat.le_refl _
  | reference name =>
    by_cases hzero : 0 ∈ name
    · show ((lookUp env name).getD _).count 0 ≤ ((valueOf env name).getD _).count 0
      rw [valueOf_of_zero_mem henv hzero]
      cases hlook : lookUp env name with
      | none => exact Nat.le_refl _
      | some value =>
        have hvalue : value.count 0 = 0 := List.count_eq_zero.mpr (henv _ (valueOf_eq_some hlook)).2
        rw [Option.getD_some, hvalue]
        exact Nat.zero_le _
    · show ((lookUp env name).getD _).count 0 ≤ _
      rw [lookUp_of_zero_not_mem hzero]
      exact Nat.le_refl _

theorem count_zero_flatMap (henv : OfStrings env) (pieces : List Piece) :
    (pieces.flatMap (Piece.replaced (lookUp env))).count 0 ≤ (pieces.flatMap (Piece.replaced (valueOf env))).count 0 := by
  induction pieces with
  | nil => exact Nat.le_refl _
  | cons piece pieces ih =>
    rw [List.flatMap_cons, List.flatMap_cons, List.count_append, List.count_append]
    exact Nat.add_le_add (count_zero_replaced henv piece) ih

theorem zeros_lost (henv : OfStrings env) {pieces : List Piece} (hmem : .reference name ∈ pieces) (hzero : 0 ∈ name)
    (hfound : lookUp env name ≠ none) :
    (pieces.flatMap (Piece.replaced (lookUp env))).count 0 < (pieces.flatMap (Piece.replaced (valueOf env))).count 0 := by
  obtain ⟨before, behind, rfl⟩ := List.append_of_mem hmem
  obtain ⟨value, hlook⟩ := Option.ne_none_iff_exists'.mp hfound
  have hvalue : value.count 0 = 0 := List.count_eq_zero.mpr (henv _ (valueOf_eq_some hlook)).2
  have hkept : 0 < (referenceText name).count 0 := by
    refine List.count_pos_iff.mpr ?_
    simp [referenceText, hzero]
  have hbefore := count_zero_flatMap henv before
  have hbehind := count_zero_flatMap henv behind
  simp only [List.flatMap_append, List.flatMap_cons, List.count_append, Piece.replaced, hlook,
    valueOf_of_zero_mem henv hzero, Option.getD_some, Option.getD_none]
  omega

theorem flatMap_of_none_found {look : List UInt8 → Option (List UInt8)} {text : List UInt8} {pieces : List Piece}
    {unclosed : Bool} (hreads : ReadsPieces text pieces unclosed) (hclosed : unclosed = false)
    (hnone : ∀ piece ∈ pieces, piece.found look = false) : pieces.flatMap (Piece.replaced look) = text := by
  induction hreads with
  | nil => rfl
  | @reference name rest pieces unclosed hname hrest ih =>
    obtain ⟨hfirst, hothers⟩ := List.forall_mem_cons.mp hnone
    have hlook : look name = none := Option.not_isSome_iff_eq_none.mp (Bool.eq_false_iff.mp hfirst)
    rw [List.flatMap_cons, ih hclosed hothers]
    simp [Piece.replaced, hlook, referenceText]
  | unclosed hopen => cases hclosed
  | byte hbyte hrest ih =>
    obtain ⟨-, hothers⟩ := List.forall_mem_cons.mp hnone
    rw [List.flatMap_cons, ih hclosed hothers]
    rfl

theorem lookUp_agrees (henv : OfStrings env) {pieces : List Piece}
    (hnames : ∀ name, .reference name ∈ pieces → 0 ∈ name → lookUp env name = none) :
    ∀ piece ∈ pieces, piece.replaced (lookUp env) = piece.replaced (valueOf env) ∧
      piece.found (lookUp env) = piece.found (valueOf env) ∧
      (piece.Wrong (lookUp env) ↔ piece.Wrong (valueOf env)) := by
  intro piece hmem
  cases piece with
  | byte c =>
    refine ⟨rfl, rfl, iff_of_false ?_ ?_⟩
    · rintro ⟨_, hname, -⟩
      cases hname
    · rintro ⟨_, hname, -⟩
      cases hname
  | reference name =>
    have hlook : lookUp env name = valueOf env name := lookUp_eq_valueOf henv (hnames name hmem)
    refine ⟨congrArg (Option.getD · _) hlook, congrArg Option.isSome hlook, ?_⟩
    refine exists_congr fun name' => and_congr_right fun hname => ?_
    cases hname
    rw [hlook]

/-- Each reference is replaced by its value, where it has one, and nothing else; and an error is
reported exactly for a reference that is not closed, too long or not defined. -/
def SubstitutesOnce (p : Parser) (src : List UInt8) : Prop :=
  ∃ text had p', substituteEnvVars src p = .ok ((text, had), p') ∧
    ∀ pieces unclosed, ReadsPieces src pieces unclosed →
      (unclosed = false → (∀ name, .reference name ∈ pieces → name.length ≤ 255) →
        text = pieces.flatMap (Piece.replaced (valueOf p.host.env))) ∧
      (p'.reports ≠ p.reports ↔ unclosed = true ∨ ∃ piece ∈ pieces, piece.Wrong (valueOf p.host.env))

/-- No name with a zero begins with a defined one, and 32 bits hold the length. -/
def Substitutable (env : List (List UInt8 × List UInt8)) (src : List UInt8) : Prop :=
  ∀ pieces, ReadsPieces src pieces false → (∀ name, .reference name ∈ pieces → name.length ≤ 255) →
    (∀ name, .reference name ∈ pieces → 0 ∈ name → valueOf env (name.takeWhile (· != 0)) = none) ∧
    ((∃ piece ∈ pieces, piece.found (valueOf env) = true) →
      (pieces.flatMap (Piece.replaced (valueOf env))).length ≤ 4294967295)

theorem substituteEnvVars_runs (hprevious : p.HasPrevious) {src : List UInt8} {pieces : List Piece} {unclosed : Bool}
    (hreads : ReadsPieces src pieces unclosed) :
    ∃ text had p', substituteEnvVars src p = .ok ((text, had), p') ∧
      (unclosed = false → (∀ name, .reference name ∈ pieces → name.length ≤ 255) →
        text = if pieces.any (Piece.found (lookUp p.host.env)) then
          internN (pieces.flatMap (Piece.replaced (lookUp p.host.env))) else src) ∧
      (unclosed = true ∨ (∃ name, .reference name ∈ pieces ∧ name.length > 255) → text = src) ∧
      (p.panicMode = false → p.fatal = false →
        (p'.reports ≠ p.reports ↔ unclosed = true ∨ ∃ piece ∈ pieces, piece.Wrong (lookUp p.host.env))) := by
  obtain ⟨⟨result, had⟩, p', hrun, hr, hnone⟩ :=
    @substituteLoop_ends p p.host.env src.length [] false src pieces unclosed hreads (Nat.le_refl _) hprevious
  have hreports (hpanic : p.panicMode = false) (hfatal : p.fatal = false) :
      p'.reports ≠ p.reports ↔ unclosed = true ∨ ∃ piece ∈ pieces, piece.Wrong (lookUp p.host.env) := by
    rw [ne_eq, substituteLoop_reports hreads (Nat.le_refl _) hpanic hfatal hrun, not_and_or, Bool.not_eq_false]
    refine or_congr_right ?_
    rw [not_forall]
    refine exists_congr fun piece => ?_
    rw [Classical.not_imp, not_not]
  cases result with
  | none =>
    refine ⟨src, had, p', run_bind_ok.mpr ⟨p, p, rfl, run_bind_ok.mpr ⟨_, p', hrun, rfl⟩⟩, fun hclosed hshort => ?_,
      fun _ => rfl, hreports⟩
    cases hr hclosed hshort
  | some result =>
    refine ⟨if had then internN result else src, had, p',
      run_bind_ok.mpr ⟨p, p, rfl, run_bind_ok.mpr ⟨_, p', hrun, rfl⟩⟩, fun hclosed hshort => ?_,
      fun hfails => absurd (hnone hfails) (Option.some_ne_none _), hreports⟩
    cases hr hclosed hshort
    rfl

/-- No name with a zero is taken for the one before it, and the text can be interned. -/
theorem substitutesOnce_iff (hprevious : p.HasPrevious) (hpanic : p.panicMode = false) (hfatal : p.fatal = false)
    (henv : OfStrings p.host.env) (src : List UInt8) : SubstitutesOnce p src ↔ Substitutable p.host.env src := by
  constructor
  · rintro ⟨text, had, p', hrun, hright⟩ pieces hreads hshort
    obtain ⟨text', had', q, hrun', htext, -, -⟩ := substituteEnvVars_runs hprevious hreads
    cases hrun.symm.trans hrun'
    have hright := (hright pieces false hreads).1 rfl hshort
    have htext := htext rfl hshort
    have hnames : ∀ name, .reference name ∈ pieces → 0 ∈ name → lookUp p.host.env name = none := by
      intro name hmem hzero
      by_contra hfound
      have hlost := zeros_lost henv hmem hzero hfound
      have hany : pieces.any (Piece.found (lookUp p.host.env)) = true :=
        List.any_eq_true.mpr ⟨_, hmem, Option.isSome_iff_ne_none.mpr hfound⟩
      rw [hright, if_pos hany] at htext
      -- the text that was found has fewer zeros, and so has none at all
      rw [htext] at hlost
      unfold internN at hlost
      split at hlost
      · exact absurd hlost (Nat.not_lt_zero _)
      · exact absurd hlost (Nat.lt_irrefl _)
    refine ⟨hnames, ?_⟩
    rintro ⟨piece, hmem, hfound⟩
    -- the lookups agree, so that the text was interned
    have hlooks := lookUp_agrees henv hnames
    have hany : pieces.any (Piece.found (lookUp p.host.env)) = true :=
      List.any_eq_true.mpr ⟨piece, hmem, (hlooks piece hmem).2.1.trans hfound⟩
    have hflat :
    pieces.flatMap (Piece.replaced (lookUp p.host.env)) = pieces.flatMap (Piece.replaced (valueOf p.host.env)) :=
      List.flatMap_congr fun piece hmem => (hlooks piece hmem).1
    rw [if_pos hany, hflat, hright] at htext
    unfold internN at htext
    split at htext
    · rw [htext]
      exact Nat.zero_le _
    · rename_i hshort
      exact Nat.not_lt.mp hshort
  · intro hsubstitutable
    obtain ⟨pieces, unclosed, hreads⟩ := exists_readsPieces src
    obtain ⟨text, had, p', hrun, htext, -, hreports⟩ := substituteEnvVars_runs hprevious hreads
    replace hreports := hreports hpanic hfatal
    refine ⟨text, had, p', hrun, fun pieces' unclosed' hreads' => ?_⟩
    obtain ⟨rfl, rfl⟩ := hreads.unique hreads'
    by_cases hplain : unclosed = false ∧ ∀ name, .reference name ∈ pieces → name.length ≤ 255
    · obtain ⟨rfl, hshort⟩ := hplain
      obtain ⟨hnames, hlength⟩ := hsubstitutable pieces hreads hshort
      have hlooks := lookUp_agrees henv hnames
      have hflat :
    pieces.flatMap (Piece.replaced (lookUp p.host.env)) = pieces.flatMap (Piece.replaced (valueOf p.host.env)) :=
        List.flatMap_congr fun piece hmem => (hlooks piece hmem).1
      constructor
      · intro _ _
        rw [htext rfl hshort, hflat]
        split
        · rename_i hany
          obtain ⟨piece, hmem, hfound⟩ := List.any_eq_true.mp hany
          exact if_neg (Nat.not_lt.mpr (hlength ⟨piece, hmem, (hlooks piece hmem).2.1.symm.trans hfound⟩))
        · rename_i hany
          rw [← hflat]
          refine (flatMap_of_none_found hreads rfl fun piece hmem => ?_).symm
          exact Bool.eq_false_iff.mpr fun hfound => hany (List.any_eq_true.mpr ⟨piece, hmem, hfound⟩)
      · rw [hreports]
        exact or_congr_right (exists_congr fun piece => and_congr_right fun hmem => (hlooks piece hmem).2.2)
    · -- an error is reported, whatever the names are
      refine ⟨fun hclosed hshort => absurd ⟨hclosed, hshort⟩ hplain, ?_⟩
      rw [hreports]
      cases unclosed with
      | true => exact iff_of_true (.inl rfl) (.inl rfl)
      | false =>
        obtain ⟨name, hlong⟩ := not_forall.mp fun h => hplain ⟨rfl, h⟩
        obtain ⟨hmem, hlong⟩ := Classical.not_imp.mp hlong
        exact iff_of_true (.inr ⟨_, hmem, name, rfl, .inl (Nat.not_le.mp hlong)⟩)
          (.inr ⟨_, hmem, name, rfl, .inl (Nat.not_le.mp hlong)⟩)

end Parser

namespace Sample

open Bebop.Compiler.Parser (OfStrings)

/-- A host in whose environment `A` is `1`. -/
def hostOfA : Host := ⟨[(['A'.toUInt8], ['1'.toUInt8])], fun _ => none, fun _ => none, fun _ => none, fun _ => none⟩

def stringTokens : List Token := [⟨.string, ⟨0, 0, 0, 0, 0, 0⟩, [], [], []⟩, ⟨.eof, ⟨0, 0, 0, 0, 0, 0⟩, [], [], []⟩]

def behindString : Parser := (Parser.start hostOfA stringTokens).next

theorem behindString_previous : behindString.HasPrevious := ⟨_, rfl⟩

theorem hostOfA_strings : OfStrings hostOfA.env := by
  unfold OfStrings
  decide

/-- `$(A\0B)`, of which no variable has the name. -/
def nameWithZero : List UInt8 := referenceText ['A'.toUInt8, 0, 'B'.toUInt8]

end Sample

namespace Parser

open Sample

/-- `$(A\0B)` is replaced by the value of `A`, and no error is reported. -/
theorem zero_in_name_substituted : ¬SubstitutesOnce behindString nameWithZero ∧
    (substituteEnvVars nameWithZero behindString).map (fun r => (r.1, r.2.reports)) =
      .ok ((['1'.toUInt8], true), []) := by
  refine ⟨?_, by decide⟩
  have hreads : ReadsPieces nameWithZero [.reference ['A'.toUInt8, 0, 'B'.toUInt8]] false :=
    .reference (by decide) .nil
  rintro ⟨text, had, p', hrun, hright⟩
  have hreports := (hright _ _ hreads).2.mpr (.inr ⟨_, List.mem_singleton_self _, _, rfl, .inr (by decide)⟩)
  have hsilent : (substituteEnvVars nameWithZero behindString).map (fun r => r.2.reports) = .ok [] := by decide
  rw [hrun] at hsilent
  exact hreports (Except.ok.inj hsilent)

/-- `$(A)` is replaced in one pass if no name has a zero. -/
theorem substitutesOnce_a : SubstitutesOnce behindString (referenceText ['A'.toUInt8]) ↔
    Substitutable hostOfA.env (referenceText ['A'.toUInt8]) :=
  substitutesOnce_iff behindString_previous rfl rfl hostOfA_strings _

end Parser

end Bebop.Compiler
