import Bebop.Compiler.Services
import Bebop.Lib.Bytes

/-!
# Bebop — method ids and the router

The ids of methods, against the hash of section 21 of `RPC.md` and what a router does with
them: it takes each method under its id, and refuses an id that is reserved or taken. The
compiler compares the ids of one service only (`methodsRoute_iff`).
-/

namespace Bebop.Compiler

open Bytes

/-! ## The hash of the protocol -/

namespace RpcHash

/-- `rotl32` -/
def rotl32 (x bits : Nat) : Nat := x * 2 ^ bits % 2 ^ 32 + x / 2 ^ (32 - bits)

def mix (block : Nat) : Nat := rotl32 (block * 0xcc9e2d51 % 2 ^ 32) 15 * 0x1b873593 % 2 ^ 32

def round (hash block : Nat) : Nat := (rotl32 (hash ^^^ mix block) 13 * 5 + 0xe6546b64) % 2 ^ 32

/-- The blocks of four bytes, the low one first, and the tail. -/
def body (hash : Nat) : List UInt8 → Nat
  | a :: b :: c :: d :: rest => body (round hash (leNat [a, b, c, d])) rest
  | [] => hash
  | tail => hash ^^^ mix (leNat tail)

def finalization (hash : Nat) : Nat :=
  let hash := (hash ^^^ hash / 2 ^ 16) * 0x7feb352d % 2 ^ 32
  let hash := (hash ^^^ hash / 2 ^ 15) * 0x846ca68b % 2 ^ 32
  hash ^^^ hash / 2 ^ 16

end RpcHash

/-- The id of a method, from the bytes of `/ServiceName/MethodName`. -/
def rpcMethodId (input : List UInt8) : Nat := RpcHash.finalization (RpcHash.body 0x5AFE5EED input)

namespace MethodHash

theorem toNat_rotateLeft (word : UInt32) {bits : UInt32} (h : 0 < bits.toNat) (hlt : bits.toNat < 32) :
    (rotateLeft word bits).toNat = RpcHash.rotl32 word.toNat bits.toNat := by
  have hword := word.toNat_lt
  have hback : (32 - bits).toNat = 32 - bits.toNat :=
    UInt32.toNat_sub_of_le _ _ (UInt32.le_iff_toNat_le.mpr (Nat.le_of_lt hlt))
  unfold rotateLeft RpcHash.rotl32
  rw [UInt32.toNat_or, UInt32.toNat_shiftLeft, UInt32.toNat_shiftRight, hback, Nat.mod_eq_of_lt hlt,
    Nat.mod_eq_of_lt (show 32 - bits.toNat < 32 by omega), Nat.shiftLeft_eq, Nat.shiftRight_eq_div_pow]
  generalize bits.toNat = k at *
  -- the bits that leave at the top come in below the others
  have hsplit : 2 ^ 32 = 2 ^ (32 - k) * 2 ^ k := by
    rw [← Nat.pow_add]
    congr 1
    omega
  have hlow : word.toNat / 2 ^ (32 - k) < 2 ^ k := by
    rw [Nat.div_lt_iff_lt_mul (Nat.two_pow_pos _), Nat.mul_comm, ← hsplit]
    exact hword
  rw [hsplit, Nat.mul_mod_mul_right, Nat.mul_comm, Nat.two_pow_add_eq_or_of_lt hlow]

theorem toNat_block (bytes : List UInt8) (h : bytes.length ≤ 4) : (block bytes).toNat = leNat bytes := by
  induction bytes with
  | nil => rfl
  | cons byte bytes ih =>
    have hlt := leNat_lt bytes
    rw [List.length_cons] at h
    have hsmall : leNat bytes < 2 ^ 24 := by
      refine Nat.lt_of_lt_of_le hlt ?_
      exact Nat.pow_le_pow_right (n := 256) (by decide) (show bytes.length ≤ 3 by omega)
    unfold block
    have hbyte := byte.toNat_lt
    have hshift : leNat bytes <<< 8 % 2 ^ 32 = 2 ^ 8 * leNat bytes := by
      rw [Nat.shiftLeft_eq, Nat.mul_comm]
      exact Nat.mod_eq_of_lt (by omega)
    rw [UInt32.toNat_or, UInt32.toNat_shiftLeft, ih (by omega), leNat_cons, Nat.or_comm, UInt8.toNat_toUInt32]
    show leNat bytes <<< 8 % 2 ^ 32 ||| byte.toNat = _
    rw [hshift, ← Nat.two_pow_add_eq_or_of_lt hbyte, Nat.add_comm]

theorem toNat_scramble (word : UInt32) : (scramble word).toNat = RpcHash.mix word.toNat := by
  unfold scramble RpcHash.mix
  rw [UInt32.toNat_mul, toNat_rotateLeft _ (by decide) (by decide), UInt32.toNat_mul]
  rfl

theorem absorb_block (hash : UInt32) (a b c d : UInt8) (rest : List UInt8) :
    absorb hash (a :: b :: c :: d :: rest) =
      absorb (rotateLeft (hash ^^^ scramble (block [a, b, c, d])) 13 * 5 + 0xe6546b64) rest := by
  delta absorb
  rfl

theorem body_block (hash : Nat) (a b c d : UInt8) (rest : List UInt8) :
    RpcHash.body hash (a :: b :: c :: d :: rest) = RpcHash.body (RpcHash.round hash (leNat [a, b, c, d])) rest := by
  delta RpcHash.body
  rfl

theorem toNat_round (hash : UInt32) (a b c d : UInt8) :
    (rotateLeft (hash ^^^ scramble (block [a, b, c, d])) 13 * 5 + 0xe6546b64).toNat =
      RpcHash.round hash.toNat (leNat [a, b, c, d]) := by
  unfold RpcHash.round
  rw [UInt32.toNat_add, UInt32.toNat_mul, toNat_rotateLeft _ (by decide) (by decide), UInt32.toNat_xor, toNat_scramble,
    toNat_block [a, b, c, d] (Nat.le_refl 4), Nat.mod_add_mod]
  rfl

theorem toNat_absorb (hash : UInt32) (input : List UInt8) :
    (absorb hash input).toNat = RpcHash.body hash.toNat input := by
  have htail (tail : List UInt8) (h : tail.length ≤ 4) :
      (hash ^^^ scramble (block tail)).toNat = hash.toNat ^^^ RpcHash.mix (leNat tail) := by
    rw [UInt32.toNat_xor, toNat_scramble, toNat_block tail h]
  match input with
  | [] => rfl
  | [a] => exact htail [a] (by simp)
  | [a, b] => exact htail [a, b] (by simp)
  | [a, b, c] => exact htail [a, b, c] (by simp)
  | a :: b :: c :: d :: rest =>
    rw [absorb_block, body_block, ← toNat_round]
    exact toNat_absorb _ rest

theorem toNat_finish (hash : UInt32) : (finish hash).toNat = RpcHash.finalization hash.toNat := by
  unfold finish RpcHash.finalization
  simp only [UInt32.toNat_xor, UInt32.toNat_mul, UInt32.toNat_shiftRight, Nat.shiftRight_eq_div_pow]
  rfl

end MethodHash

theorem hashMethodId_eq (input : List UInt8) : (hashMethodId input).toNat = rpcMethodId input := by
  unfold hashMethodId rpcMethodId
  rw [MethodHash.toNat_finish, MethodHash.toNat_absorb]
  rfl

example : hashMethodId (Unicode.utf8 "/GreeterService/SayHello".toList) = 0x4d62beb5 := by decide

/-! ## The router -/

/-- `BebopReservedMethod` -/
def reservedMethodIds : List Nat := [0, 1, 2, 3, 4]

/-- `register` of the routers, which throws or stops. -/
def register (taken : List Nat) (id : Nat) : Option (List Nat) :=
  if id ∈ reservedMethodIds then none else if id ∈ taken then none else some (taken ++ [id])

def registerAll (ids : List Nat) : Option (List Nat) := ids.foldlM register []

theorem foldlM_register_isSome {taken : List Nat} (ids : List Nat) :
    (ids.foldlM register taken).isSome ↔
      ids.Nodup ∧ ∀ id ∈ ids, id ∉ reservedMethodIds ∧ id ∉ taken := by
  induction ids generalizing taken with
  | nil => simp
  | cons id ids ih =>
    rw [List.foldlM_cons, List.nodup_cons, List.forall_mem_cons]
    unfold register
    by_cases hreserved : id ∈ reservedMethodIds
    · rw [if_pos hreserved]
      exact iff_of_false (by simp) fun h => h.2.1.1 hreserved
    · rw [if_neg hreserved]
      by_cases htaken : id ∈ taken
      · rw [if_pos htaken]
        exact iff_of_false (by simp) fun h => h.2.1.2 htaken
      · rw [if_neg htaken]
        refine ih.trans ?_
        constructor
        · rintro ⟨hnodup, hrest⟩
          refine ⟨⟨?_, hnodup⟩, ⟨hreserved, htaken⟩, ?_⟩
          · intro hmem
            exact (hrest id hmem).2 (List.mem_append_right _ (List.mem_singleton_self id))
          · intro other hother
            exact ⟨(hrest other hother).1, fun hmem => (hrest other hother).2 (List.mem_append_left _ hmem)⟩
        · rintro ⟨⟨hnot, hnodup⟩, -, hrest⟩
          refine ⟨hnodup, ?_⟩
          intro other hother
          refine ⟨(hrest other hother).1, ?_⟩
          intro hmem
          rcases List.mem_append.mp hmem with hmem | hmem
          · exact (hrest other hother).2 hmem
          · exact hnot (List.mem_singleton.mp hmem ▸ hother)

theorem registerAll_isSome (ids : List Nat) :
    (registerAll ids).isSome ↔ ids.Nodup ∧ ∀ id ∈ ids, id ∉ reservedMethodIds := by
  unfold registerAll
  rw [foldlM_register_isSome]
  simp

/-! ## The ids that the parser gives -/

def ServiceBody.Hashed (service : Text) (body : ServiceBody) : Prop :=
  ∀ method ∈ body.methods, method.id = rpcMethodId (methodPath service method.name)

theorem ServiceBody.Hashed.parseMethod {service : Text} {body next : ServiceBody} {method : Method}
    (h : body.Hashed service) (hparse : Compiler.parseMethod service body method = ([], next)) : next.Hashed service := by
  unfold Compiler.parseMethod at hparse
  dsimp only at hparse
  split at hparse
  · exact absurd (congrArg Prod.fst hparse) (List.append_ne_nil_of_right_ne_nil _ (List.cons_ne_nil _ _))
  · obtain ⟨hreports, rfl⟩ := Prod.mk.inj hparse
    obtain ⟨-, hlong⟩ := List.append_eq_nil_iff.mp hreports
    -- a path that does not fit is reported
    have hfits : (methodPath service method.name).length < methodPathSize := by
      by_contra hnot
      rw [if_neg hnot] at hlong
      cases hlong
    intro other hother
    rcases List.mem_append.mp hother with hother | hother
    · exact h other hother
    · rw [List.mem_singleton.mp hother]
      dsimp only
      rw [if_pos hfits, hashMethodId_eq]

theorem ServiceBody.Hashed.parseMethods {service : Text} {body last : ServiceBody} {read : List Method}
    (h : body.Hashed service) (hparse : Compiler.parseMethods service body read = ([], last)) : last.Hashed service := by
  induction read generalizing body with
  | nil =>
    cases hparse
    exact h
  | cons method read ih =>
    obtain ⟨hreports, hlast⟩ := Prod.mk.inj hparse
    obtain ⟨hfirst, hrest⟩ := List.append_eq_nil_iff.mp hreports
    exact ih (h.parseMethod (Prod.ext hfirst rfl)) (Prod.ext hrest hlast)

theorem Def.MethodsParsed.hashed {d : Def} (h : d.MethodsParsed) {methods : List Method} {mixins : List Ty}
    (hbody : d.body = .service methods mixins) :
    ∀ method ∈ methods, method.id = rpcMethodId (methodPath d.name method.name) := by
  obtain ⟨read, names, hparse⟩ := h methods mixins hbody
  have hnone : (⟨[], []⟩ : ServiceBody).Hashed d.name := by
    intro method hmethod
    cases hmethod
  exact hnone.parseMethods hparse

/-! ## The methods of a schema -/

namespace ParseResult

variable (result : ParseResult)

def serviceMethods (ref : DefRef) : List Method :=
  match (result.def? ref).map Def.body with
  | some (.service methods _) => methods
  | _ => []

def schemaMethods (schema : Nat) : List Method :=
  (result.registered.filter fun ref => ref.schema = schema).flatMap result.serviceMethods

/-- A method of a service, with the bytes of its `/ServiceName/MethodName`. -/
def HasMethod (ref : DefRef) (method : Method) (path : List UInt8) : Prop :=
  method ∈ result.serviceMethods ref ∧ ∃ d, result.def? ref = some d ∧ path = methodPath d.name method.name

/-- The methods of an accepted schema are known by their ids. -/
structure MethodsRoute (checks : DecoratorChecks) : Prop where
  ids : result.Accepted checks → ∀ ref method path, result.HasMethod ref method path → method.id = rpcMethodId path
  distinct : result.Accepted checks → ∀ ref method path ref' method' path', ref.schema = ref'.schema →
    result.HasMethod ref method path → result.HasMethod ref' method' path' → path ≠ path' → method.id ≠ method'.id
  reserved : result.Accepted checks → ∀ ref method path, result.HasMethod ref method path → 255 < method.id
  registers : result.Accepted checks → ∀ schema order, order.Perm ((result.schemaMethods schema).map Method.id) →
    (registerAll order).isSome

/-- What the compiler does not look at: the hashes of two services, and the small ones. -/
structure HashesApart (checks : DecoratorChecks) : Prop where
  services : result.Accepted checks → ∀ ref method path ref' method' path', ref.schema = ref'.schema → ref ≠ ref' →
    result.HasMethod ref method path → result.HasMethod ref' method' path' → rpcMethodId path ≠ rpcMethodId path'
  reserved : result.Accepted checks → ∀ ref method path, result.HasMethod ref method path → 255 < rpcMethodId path

variable {result}

theorem exists_path {ref : DefRef} {method : Method} (h : method ∈ result.serviceMethods ref) :
    ∃ path, result.HasMethod ref method path := by
  unfold serviceMethods at h
  cases hd : result.def? ref with
  | none =>
    rw [hd] at h
    cases h
  | some d => exact ⟨_, by unfold serviceMethods; rwa [hd] at h ⊢, d, hd, rfl⟩

theorem serviceMethods_cases (ref : DefRef) : result.serviceMethods ref = [] ∨
    ∃ d mixins, result.def? ref = some d ∧ d.body = .service (result.serviceMethods ref) mixins := by
  unfold serviceMethods
  cases hd : result.def? ref with
  | none => exact .inl rfl
  | some d =>
    cases hbody : d.body with
    | service methods mixins => exact .inr ⟨d, mixins, rfl, by rw [Option.map_some, hbody]⟩
    | _ => exact .inl (by rw [Option.map_some, hbody])

theorem mem_schemaMethods {schema : Nat} {method : Method} :
    method ∈ result.schemaMethods schema ↔ ∃ ref, ref.schema = schema ∧ method ∈ result.serviceMethods ref := by
  unfold schemaMethods
  rw [List.mem_flatMap]
  constructor
  · rintro ⟨ref, href, hmem⟩
    exact ⟨ref, by simpa using (List.mem_filter.mp href).2, hmem⟩
  · rintro ⟨ref, hschema, hmem⟩
    obtain ⟨path, -, d, hd, -⟩ := exists_path hmem
    exact ⟨ref, List.mem_filter.mpr ⟨mem_registered.mpr ⟨d, hd⟩, by simpa using hschema⟩, hmem⟩

theorem nodup_schemaMethods {schema : Nat} : ((result.schemaMethods schema).map Method.id).Nodup ↔
    (∀ ref, ref.schema = schema → ((result.serviceMethods ref).map Method.id).Nodup) ∧
    ∀ ref ref', ref.schema = schema → ref'.schema = schema → ref ≠ ref' → ∀ method ∈ result.serviceMethods ref,
      ∀ method' ∈ result.serviceMethods ref', method.id ≠ method'.id := by
  have hregistered {ref : DefRef} {method : Method} (hschema : ref.schema = schema)
      (hmem : method ∈ result.serviceMethods ref) : ref ∈ result.registered.filter fun ref => ref.schema = schema := by
    obtain ⟨path, -, d, hd, -⟩ := exists_path hmem
    exact List.mem_filter.mpr ⟨mem_registered.mpr ⟨d, hd⟩, by simpa using hschema⟩
  unfold schemaMethods
  rw [List.map_flatMap, List.nodup_flatMap]
  constructor
  · rintro ⟨hservices, hpairs⟩
    constructor
    · intro ref hschema
      by_cases hnone : result.serviceMethods ref = []
      · rw [hnone]
        exact List.nodup_nil
      · obtain ⟨method, hmem⟩ := List.exists_mem_of_ne_nil _ hnone
        exact hservices ref (hregistered hschema hmem)
    · intro ref ref' hschema hschema' hne method hmethod method' hmethod' heq
      have hsymm : Std.Symm (Function.onFun List.Disjoint fun ref => (result.serviceMethods ref).map Method.id) :=
        ⟨fun _ _ h => h.symm⟩
      have hdisjoint := hpairs.forall (hregistered hschema hmethod) (hregistered hschema' hmethod') hne
      exact hdisjoint (List.mem_map_of_mem hmethod) (heq ▸ List.mem_map_of_mem hmethod')
  · rintro ⟨hservices, hpairs⟩
    constructor
    · intro ref href
      exact hservices ref (by simpa using (List.mem_filter.mp href).2)
    · refine (result.nodup_registered.filter _).pairwise_of_forall_ne ?_
      intro ref href ref' href' hne id hid hid'
      obtain ⟨method, hmethod, rfl⟩ := List.mem_map.mp hid
      obtain ⟨method', hmethod', heq⟩ := List.mem_map.mp hid'
      exact hpairs ref ref' (by simpa using (List.mem_filter.mp href).2) (by simpa using (List.mem_filter.mp href').2)
        hne method hmethod method' hmethod' heq.symm

theorem methodsRoute_iff (checks : DecoratorChecks) (result : ParseResult)
    (hparsed : ∀ ref d, result.def? ref = some d → d.MethodsParsed) :
    result.MethodsRoute checks ↔ result.HashesApart checks := by
  have hids {ref : DefRef} {method : Method} {path : List UInt8} (h : result.HasMethod ref method path) :
      method.id = rpcMethodId path := by
    obtain ⟨hmem, d, hd, rfl⟩ := h
    rcases serviceMethods_cases ref with hnone | ⟨d', mixins, hd', hbody⟩
    · rw [hnone] at hmem
      cases hmem
    · obtain rfl := Option.some.inj (hd.symm.trans hd')
      exact (hparsed ref d hd).hashed hbody method hmem
  have hservice (ref : DefRef) : ((result.serviceMethods ref).map Method.id).Nodup := by
    rcases serviceMethods_cases ref with hnone | ⟨d, mixins, hd, hbody⟩
    · rw [hnone]
      exact List.nodup_nil
    · exact ((hparsed ref d hd).distinct hbody).ids
  constructor
  · intro h
    constructor
    · intro haccepted ref method path ref' method' path' hschema hne hmethod hmethod'
      have hregisters := h.registers haccepted ref.schema _ (List.Perm.refl _)
      have hnodup := ((registerAll_isSome _).mp hregisters).1
      rw [← hids hmethod, ← hids hmethod']
      exact (nodup_schemaMethods.mp hnodup).2 ref ref' rfl hschema.symm hne method hmethod.1 method' hmethod'.1
    · intro haccepted ref method path hmethod
      rw [← hids hmethod]
      exact h.reserved haccepted ref method path hmethod
  · intro h
    have hapart (haccepted : result.Accepted checks) {ref ref' : DefRef} {method method' : Method}
        {path path' : List UInt8} (hschema : ref.schema = ref'.schema) (hne : ref ≠ ref')
        (hmethod : result.HasMethod ref method path) (hmethod' : result.HasMethod ref' method' path') :
        method.id ≠ method'.id := by
      rw [hids hmethod, hids hmethod']
      exact h.services haccepted ref method path ref' method' path' hschema hne hmethod hmethod'
    constructor
    · exact fun _ ref method path hmethod => hids hmethod
    · intro haccepted ref method path ref' method' path' hschema hmethod hmethod' hpaths heq
      by_cases hsame : ref = ref'
      · -- in one service the ids differ, so that the method is the same
        subst hsame
        obtain rfl := List.inj_on_of_nodup_map (hservice ref) hmethod.1 hmethod'.1 heq
        obtain ⟨-, d, hd, rfl⟩ := hmethod
        obtain ⟨-, d', hd', rfl⟩ := hmethod'
        obtain rfl := Option.some.inj (hd.symm.trans hd')
        exact hpaths rfl
      · exact hapart haccepted hschema hsame hmethod hmethod' heq
    · intro haccepted ref method path hmethod
      rw [hids hmethod]
      exact h.reserved haccepted ref method path hmethod
    · intro haccepted schema order hperm
      rw [registerAll_isSome, hperm.nodup_iff]
      constructor
      · refine nodup_schemaMethods.mpr ⟨fun ref _ => hservice ref, ?_⟩
        intro ref ref' hschema hschema' hne method hmethod method' hmethod'
        obtain ⟨path, hpath⟩ := exists_path hmethod
        obtain ⟨path', hpath'⟩ := exists_path hmethod'
        exact hapart haccepted (hschema.trans hschema'.symm) hne hpath hpath'
      · intro id hid hreserved
        obtain ⟨method, hmethod, rfl⟩ := List.mem_map.mp (hperm.mem_iff.mp hid)
        obtain ⟨ref, -, hmem⟩ := mem_schemaMethods.mp hmethod
        obtain ⟨path, hpath⟩ := exists_path hmem
        have hlarge := h.reserved haccepted ref method path hpath
        rw [← hids hpath] at hlarge
        unfold reservedMethodIds at hreserved
        simp only [List.mem_cons, List.not_mem_nil, or_false] at hreserved
        omega

end ParseResult

/-! ## Schemas that route or not -/

namespace Sample

/-- `service A { M(R): R; }` -/
def oneService : ParseResult := services [service ['A'] [['M']] []] (by decide)

/-- `service a { Z1X(R): R; } service b { ohp(R): R; }` -/
def twoServices : ParseResult :=
  services [service ['a'] [['Z', '1', 'X']] [], service ['b'] [['o', 'h', 'p']] []] (by decide)

end Sample

open Sample

namespace ParseResult

theorem methodsRoute_oneService : oneService.MethodsRoute (fun _ => []) := by
  have hregistered : oneService.registered = [⟨0, [0]⟩, ⟨0, [1]⟩] := by decide
  have honly {ref : DefRef} {method : Method} {path : List UInt8} (h : oneService.HasMethod ref method path) :
      ref = ⟨0, [1]⟩ ∧ path = methodPath ['A'] ['M'] := by
    obtain ⟨hmem, d, hd, rfl⟩ := h
    have href : ref ∈ oneService.registered := mem_registered.mpr ⟨d, hd⟩
    rw [hregistered] at href
    rcases List.mem_pair.mp href with rfl | rfl
    · cases hmem
    · cases hd
      obtain rfl := List.mem_singleton.mp hmem
      exact ⟨rfl, rfl⟩
  refine (methodsRoute_iff (fun _ => []) oneService ?_).mpr ⟨?_, ?_⟩
  · refine forall_def fun ref href d hd => ?_
    rw [hregistered] at href
    rcases List.mem_pair.mp href with rfl | rfl
    · cases hd
      exact methodsParsed_record
    · cases hd
      exact methodsParsed_service (by decide)
  · intro _ ref method path ref' method' path' _ hne hmethod hmethod'
    exact absurd ((honly hmethod).1.trans (honly hmethod').1.symm) hne
  · intro _ ref method path hmethod
    rw [(honly hmethod).2]
    decide

/-- The ids of two methods in two services are the same. -/
theorem methodsRoute_fails : twoServices.Accepted (fun _ => []) ∧ ¬twoServices.MethodsRoute (fun _ => []) := by
  refine ⟨by decide, ?_⟩
  intro h
  have haccepted : twoServices.Accepted (fun _ => []) := by decide
  have hregisters := h.registers haccepted 0 _ (List.Perm.refl _)
  exact absurd hregisters (by decide)

end ParseResult

end Bebop.Compiler
