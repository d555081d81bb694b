import Bebop.Compiler.SortedDefinitions
import Bebop.Compiler.WireLengths
import Mathlib.Algebra.Order.BigOperators.Group.List
import Mathlib.Algebra.Order.Group.Nat

/-!
# Bebop — fixed and minimum sizes

The sizes that `bebop.c` reports for types and definitions, and those of structs, which
`bebop__validate_compute_fixed_sizes` fills in the order of the definitions. Zero also
stands for what was not computed, and some sums are not checked (`sizes_exact_iff`).
-/

namespace Bebop.Compiler

/-! ## The sizes of types -/

/-- `BEBOP_ADD_WOULD_OVERFLOW_U32` -/
def addWouldOverflow (a b : Nat) : Bool := b > 2 ^ 32 - 1 - a

/-- `BEBOP_MUL_WOULD_OVERFLOW_U32` -/
def mulWouldOverflow (a b : Nat) : Bool := b ≠ 0 && a > (2 ^ 32 - 1) / b

/-- `bebop__scalar_fixed_size` -/
def Scalar.fixedSize : Scalar → Nat
  | .bool | .byte | .int8 => 1
  | .int16 | .uint16 => 2
  | .int32 | .uint32 => 4
  | .int64 | .uint64 => 8
  | .int128 | .uint128 => 16
  | .float16 => 2
  | .float32 => 4
  | .float64 => 8
  | .bfloat16 => 2
  | .uuid => 16
  | .timestamp => 16
  | .duration => 12
  | .string => 0

namespace ParseResult

def body? (result : ParseResult) (ref : DefRef) : Option Body := (result.def? ref).map Def.body

section

-- `sizes` has the `fixed_size` of each struct
variable (result : ParseResult) (sizes : DefRef → Nat)

/-- The size a definition has as a type, and zero if it is not fixed. -/
def definedSize (ref : DefRef) : Nat :=
  match result.body? ref with
  | some (.enum baseType _) => baseType.fixedSize
  | some (.struct _ _) => sizes ref
  | _ => 0

def definedIsFixed (ref : DefRef) : Bool :=
  match result.body? ref with
  | some (.enum _ _) => true
  | some (.struct _ _) => sizes ref > 0
  | _ => false

/-- `bebop_type_is_fixed` -/
def typeIsFixed : Ty → Bool
  | .scalar _ .string => false
  | .scalar _ _ => true
  | .array _ _ => false
  | .map _ _ _ => false
  | .fixedArray _ element _ => typeIsFixed element
  | .defined _ _ none => false
  | .defined _ _ (some ref) => result.definedIsFixed sizes ref

/-- The loop of `bebop_type_fixed_size`. -/
def typeFixedSizeFrom (multiplier : Nat) : Ty → Nat
  | .scalar _ kind =>
    if kind.fixedSize > 0 then
      if mulWouldOverflow kind.fixedSize multiplier then 0 else kind.fixedSize * multiplier
    else 0
  | .fixedArray _ element size =>
    if mulWouldOverflow multiplier size then 0 else typeFixedSizeFrom (multiplier * size) element
  | .defined _ _ (some ref) =>
    if result.definedSize sizes ref = 0 then 0
    else if mulWouldOverflow (result.definedSize sizes ref) multiplier then 0
    else result.definedSize sizes ref * multiplier
  | _ => 0

/-- `bebop_type_fixed_size` -/
def typeFixedSize (type : Ty) : Nat := result.typeFixedSizeFrom sizes 1 type

/-- The loop of `bebop_type_min_wire_size`; unchecked sums are reduced. -/
def typeMinWireSizeFrom (reduce : Nat → Nat) (multiplier : Nat) (type : Ty) : Nat :=
  if result.typeFixedSize sizes type > 0 then
    if mulWouldOverflow (result.typeFixedSize sizes type) multiplier then 0
    else result.typeFixedSize sizes type * multiplier
  else
    match type with
    | .scalar _ .string => reduce (5 * multiplier)
    | .scalar _ _ => 0
    | .array _ _ => reduce (4 * multiplier)
    | .fixedArray _ element size =>
      if mulWouldOverflow multiplier size then 0 else typeMinWireSizeFrom reduce (multiplier * size) element
    | .map _ _ _ => reduce (4 * multiplier)
    | .defined _ _ none => 0
    | .defined _ _ (some ref) =>
      match result.body? ref with
      | some (.message _) => reduce (4 * multiplier)
      | some (.union _) => reduce (5 * multiplier)
      | _ => 0

/-- `bebop_type_min_wire_size` -/
def typeMinWireSize (reduce : Nat → Nat) (type : Ty) : Nat := result.typeMinWireSizeFrom sizes reduce 1 type

/-! ## The sizes of definitions -/

/-- The loop over the fields of a struct in `bebop__validate_compute_fixed_sizes`. -/
def structFixedSize (total : Nat) : List Field → Nat
  | [] => total
  | field :: fields =>
    if result.typeFixedSize sizes field.type = 0 then 0
    else if addWouldOverflow total (result.typeFixedSize sizes field.type) then 0
    else structFixedSize (total + result.typeFixedSize sizes field.type) fields

/-- The loop body of `bebop__validate_compute_fixed_sizes`. -/
def setFixedSize (ref : DefRef) : DefRef → Nat :=
  match result.body? ref with
  | some (.struct _ fields) => Function.update sizes ref (result.structFixedSize sizes 0 fields)
  | _ => sizes

/-- `bebop_def_is_fixed_size` -/
def defIsFixedSize (ref : DefRef) : Bool :=
  match result.body? ref with
  | some (.struct _ fields) => fields.all fun field => result.typeIsFixed sizes field.type
  | some (.enum _ _) => true
  | _ => false

/-- `bebop_def_fixed_size` -/
def defFixedSize (ref : DefRef) : Nat := result.definedSize sizes ref

/-- The loop over the fields of a struct in `bebop_def_min_wire_size`. -/
def fieldsMinWireSize (reduce : Nat → Nat) (fields : List Field) : Nat :=
  fields.foldl (fun size field => reduce (size + result.typeMinWireSize sizes reduce field.type)) 0

/-- `bebop_def_min_wire_size` -/
def defMinWireSize (reduce : Nat → Nat) (ref : DefRef) : Nat :=
  match result.body? ref with
  | some (.struct _ fields) => if sizes ref > 0 then sizes ref else result.fieldsMinWireSize sizes reduce fields
  | some (.message _) => 4
  | some (.union _) => 5
  | some (.enum baseType _) => baseType.fixedSize
  | _ => 0

end

variable (result : ParseResult)

/-- `bebop__validate_compute_fixed_sizes`; the size of a struct is zero at first. -/
def computeFixedSizes (order : List DefRef) : DefRef → Nat := order.foldl result.setFixedSize fun _ => 0

def sortedOrder : List DefRef :=
  match result.toposort with
  | .sorted order => order
  | _ => []

def fixedSizes : DefRef → Nat := result.computeFixedSizes result.sortedOrder

end ParseResult

/-! ## What the sizes are for -/

def Ty.inside : Ty → List Ty
  | .scalar span kind => [.scalar span kind]
  | .array span element => .array span element :: element.inside
  | .fixedArray span element size => .fixedArray span element size :: element.inside
  | .map span key value => .map span key value :: (key.inside ++ value.inside)
  | .defined span name resolved => [.defined span name resolved]

/-- What a fixed array has so many of, through the arrays in it. -/
def Ty.item : Ty → Ty
  | .fixedArray _ element _ => element.item
  | type => type

def Ty.itemCount : Ty → Nat
  | .scalar _ _ => 1
  | .array _ _ => 1
  | .fixedArray _ element size => size * element.itemCount
  | .map _ _ _ => 1
  | .defined _ _ _ => 1

/-- The pointer that the items of a fixed array end in. -/
def Ty.itemRef : Ty → Option DefRef
  | .fixedArray _ element _ => element.itemRef
  | .defined _ _ resolved => resolved
  | _ => none

def checked (n : Nat) : Nat := if n < 2 ^ 32 then n else 0

def Ty.Counted : Ty → Prop
  | .fixedArray _ element size => 0 < size ∧ element.Counted
  | _ => True

namespace ParseResult

variable (result : ParseResult)

/-- The type is in a definition, or inside one that is. -/
def HasType (type : Ty) : Prop :=
  ∃ ref body, result.body? ref = some body ∧ ∃ x ∈ body.referredTypes, type ∈ x.2.inside

/-- The parser makes sure that a fixed array has items, and that an enum is one of numbers. -/
structure SizesParsed : Prop where
  counted : ∀ ref body, result.body? ref = some body → ∀ x ∈ body.referredTypes, x.2.Counted
  number : ∀ ref baseType members, result.body? ref = some (.enum baseType members) → 0 < baseType.fixedSize

/-- A size that is not zero is exact, and so is that of a definition of fixed size; a
minimum is at most the length of an encoding; and no size is reduced. -/
structure SizesExact : Prop where
  type : ∀ type n, 0 < result.typeFixedSize result.fixedSizes type → result.Takes (.type type) n →
    n = result.typeFixedSize result.fixedSizes type
  definition : ∀ ref n, result.defIsFixedSize result.fixedSizes ref = true → result.Takes (.definition ref) n →
    n = result.defFixedSize result.fixedSizes ref
  typeMin : ∀ type n, result.Takes (.type type) n → result.typeMinWireSize result.fixedSizes (· % 2 ^ 32) type ≤ n
  defMin : ∀ ref n, result.Takes (.definition ref) n → result.defMinWireSize result.fixedSizes (· % 2 ^ 32) ref ≤ n
  typeWhole : ∀ type, result.HasType type → result.typeMinWireSize result.fixedSizes (· % 2 ^ 32) type =
    result.typeMinWireSize result.fixedSizes id type
  defWhole : ∀ ref, result.defMinWireSize result.fixedSizes (· % 2 ^ 32) ref =
    result.defMinWireSize result.fixedSizes id ref

/-- In the order a struct comes after the structs that its fields are items of. -/
def ComesAfterFields (ref : DefRef) : Prop :=
  ∃ before later, result.sortedOrder = before ++ ref :: later ∧
    ∀ isMutable fields, result.body? ref = some (.struct isMutable fields) → ∀ field ∈ fields,
      ∀ dep, field.type.itemRef = some dep →
        ∀ isMutable' fields', result.body? dep = some (.struct isMutable' fields') → dep ∈ before

/-- The structs of fixed size are in order and do not reach `2 ^ 32`. -/
def StructsInOrder : Prop :=
  ∀ ref n, result.Fixed (.definition ref) n → n ≠ 0 → n < 2 ^ 32 ∧ result.ComesAfterFields ref

open Classical in
/-- The bytes of a struct of fixed size, and zero for the other definitions. -/
noncomputable def wireSize (ref : DefRef) : Nat := if h : ∃ n, result.Fixed (.definition ref) n then h.choose else 0

def unboundedSize (sizes : DefRef → Nat) : Ty → Nat
  | .scalar _ kind => kind.fixedSize
  | .fixedArray _ element size => size * unboundedSize sizes element
  | .defined _ _ (some ref) => result.definedSize sizes ref
  | _ => 0

/-- The least bytes of a type that is not of fixed size; zero for the others. -/
def variableSize : Ty → Nat
  | .scalar _ .string => 5
  | .array _ _ => 4
  | .map _ _ _ => 4
  | .defined _ _ (some ref) =>
    match result.body? ref with
    | some (.message _) => 4
    | some (.union _) => 5
    | _ => 0
  | _ => 0

/-- The least bytes of a type, given those of the structs; zero if there is no telling. -/
def leastBytes (sizes : DefRef → Nat) (type : Ty) : Nat :=
  if result.variableSize type.item = 0 then checked (result.unboundedSize sizes type)
  else if type.itemCount < 2 ^ 32 then type.itemCount * result.variableSize type.item
  else 0

/-- The structs of fixed size are in order, and no minimum reaches `2 ^ 32`: neither that of so
many items, nor the sum over the fields. -/
structure SizesInRange : Prop where
  structs : result.StructsInOrder
  items : ∀ type, result.HasType type → type.itemCount < 2 ^ 32 →
    type.itemCount * result.variableSize type.item < 2 ^ 32
  fields : ∀ ref isMutable fields, result.body? ref = some (.struct isMutable fields) → result.wireSize ref = 0 →
    (fields.map fun field => result.leastBytes result.wireSize field.type).sum < 2 ^ 32

/-! ## Sizes without a bound -/

end ParseResult

theorem checked_eq {n : Nat} (h : n < 2 ^ 32) : checked n = n := if_pos h

theorem checked_le (n : Nat) : checked n ≤ n := by
  unfold checked
  split
  · exact Nat.le_refl n
  · exact Nat.zero_le n

theorem checked_pos {n : Nat} (h : 0 < checked n) : checked n = n ∧ n < 2 ^ 32 := by
  unfold checked at h ⊢
  split at h
  · rename_i hlt
    exact ⟨if_pos hlt, hlt⟩
  · exact absurd h (Nat.lt_irrefl 0)

theorem mulWouldOverflow_iff {a b : Nat} : mulWouldOverflow a b = true ↔ 2 ^ 32 ≤ a * b := by
  unfold mulWouldOverflow
  rw [Bool.and_eq_true, decide_eq_true_iff, decide_eq_true_iff]
  constructor
  · rintro ⟨hb, h⟩
    have := (Nat.div_lt_iff_lt_mul (Nat.pos_of_ne_zero hb)).mp h
    omega
  · intro h
    have hb : b ≠ 0 := by
      rintro rfl
      omega
    refine ⟨hb, (Nat.div_lt_iff_lt_mul (Nat.pos_of_ne_zero hb)).mpr ?_⟩
    omega

theorem ite_mulWouldOverflow (a b : Nat) : (if mulWouldOverflow a b then 0 else a * b) = checked (a * b) := by
  unfold checked
  by_cases h : a * b < 2 ^ 32
  · rw [if_pos h, if_neg (mulWouldOverflow_iff.not.mpr (Nat.not_le.mpr h))]
  · rw [if_neg h, if_pos (mulWouldOverflow_iff.mpr (Nat.not_lt.mp h))]

theorem Scalar.fixedSize_lt (kind : Scalar) : kind.fixedSize < 2 ^ 32 := by cases kind <;> decide

theorem Scalar.wireSize_eq {kind : Scalar} (h : 0 < kind.fixedSize) : kind.wireSize = some kind.fixedSize := by
  cases kind with
  | string => cases h
  | _ => rfl

namespace ParseResult

section

variable (result : ParseResult) (sizes : DefRef → Nat)

theorem typeFixedSizeFrom_eq (multiplier : Nat) (type : Ty) :
    result.typeFixedSizeFrom sizes multiplier type = checked (multiplier * result.unboundedSize sizes type) := by
  induction type generalizing multiplier with
  | scalar span kind =>
    rw [typeFixedSizeFrom, unboundedSize, ite_mulWouldOverflow, Nat.mul_comm]
    split
    · rfl
    · rename_i hzero
      rw [Nat.eq_zero_of_not_pos hzero, Nat.mul_zero]
      rfl
  | array span element ih => rfl
  | fixedArray span element size ih =>
    rw [typeFixedSizeFrom, unboundedSize, ih, ← Nat.mul_assoc]
    split
    · -- the product is too large, unless the items take nothing
      rename_i hover
      unfold checked
      split
      · rename_i hlt
        have hle := mulWouldOverflow_iff.mp hover
        rcases Nat.eq_zero_or_pos (result.unboundedSize sizes element) with hzero | hpos
        · rw [hzero, Nat.mul_zero]
        · have := Nat.le_mul_of_pos_right (multiplier * size) hpos
          omega
      · rfl
    · rfl
  | map span key value ihKey ihValue => rfl
  | defined span name resolved =>
    cases resolved with
    | none => rfl
    | some ref =>
      rw [typeFixedSizeFrom, unboundedSize, ite_mulWouldOverflow, Nat.mul_comm multiplier]
      split
      · rename_i hzero
        rw [hzero, Nat.zero_mul]
        rfl
      · rfl

theorem typeFixedSize_eq (type : Ty) : result.typeFixedSize sizes type = checked (result.unboundedSize sizes type) := by
  rw [typeFixedSize, typeFixedSizeFrom_eq, Nat.one_mul]

theorem structFixedSize_eq {total : Nat} (htotal : total < 2 ^ 32) (fields : List Field) :
    result.structFixedSize sizes total fields =
      if ∀ field ∈ fields, 0 < result.typeFixedSize sizes field.type then
        checked (total + (fields.map fun field => result.typeFixedSize sizes field.type).sum)
      else 0 := by
  induction fields generalizing total with
  | nil =>
    rw [structFixedSize, if_pos (fun _ h => by cases h), List.map_nil, List.sum_nil, Nat.add_zero, checked_eq htotal]
  | cons field fields ih =>
    rw [structFixedSize, List.map_cons, List.sum_cons]
    split
    · rename_i hzero
      rw [if_neg]
      intro hall
      have := hall field (List.mem_cons_self ..)
      omega
    · rename_i hpos
      have hadd : addWouldOverflow total (result.typeFixedSize sizes field.type) = true ↔
          2 ^ 32 ≤ total + result.typeFixedSize sizes field.type := by
        unfold addWouldOverflow
        rw [decide_eq_true_iff]
        omega
      split
      · rename_i hover
        have hlarge := hadd.mp hover
        have hzero : checked (total + (result.typeFixedSize sizes field.type +
            (fields.map fun field => result.typeFixedSize sizes field.type).sum)) = 0 := if_neg (by omega)
        rw [hzero, ite_self]
      · rename_i hover
        rw [ih (Nat.not_le.mp (hadd.not.mp hover)), Nat.add_assoc]
        refine if_congr ?_ rfl rfl
        rw [List.forall_mem_cons]
        exact ⟨fun h => ⟨Nat.pos_of_ne_zero hpos, h⟩, And.right⟩

theorem structFixedSize_pos {fields : List Field} (h : 0 < result.structFixedSize sizes 0 fields) :
    (∀ field ∈ fields, 0 < result.typeFixedSize sizes field.type) ∧
      result.structFixedSize sizes 0 fields = (fields.map fun field => result.typeFixedSize sizes field.type).sum := by
  rw [structFixedSize_eq result sizes (by decide), Nat.zero_add] at h ⊢
  split at h
  · rename_i hall
    rw [if_pos hall]
    exact ⟨hall, (checked_pos h).1⟩
  · exact absurd h (Nat.lt_irrefl 0)

end

/-! ## The sizes of structs -/

variable {result : ParseResult} {sizes : DefRef → Nat}

theorem body?_eq_some {ref : DefRef} {body : Body} :
    result.body? ref = some body ↔ ∃ d, result.def? ref = some d ∧ d.body = body := Option.map_eq_some_iff

/-- The sizes that are not zero are sizes on the wire. -/
def SizesFixed (result : ParseResult) (sizes : DefRef → Nat) : Prop :=
  ∀ ref, 0 < sizes ref → result.Fixed (.definition ref) (sizes ref)

theorem SizesFixed.unboundedSize (h : result.SizesFixed sizes) {type : Ty}
    (hpos : 0 < result.unboundedSize sizes type) :
    result.Fixed (.type type) (result.unboundedSize sizes type) := by
  induction type with
  | scalar span kind => exact .scalar span (Scalar.wireSize_eq hpos)
  | array span element ih => cases hpos
  | fixedArray span element size ih =>
    exact .fixedArray span size (ih (Nat.pos_of_ne_zero (Nat.ne_zero_of_mul_ne_zero_right (Nat.ne_of_gt hpos))))
  | map span key value ihKey ihValue => cases hpos
  | defined span name resolved =>
    cases resolved with
    | none => cases hpos
    | some ref =>
      rw [ParseResult.unboundedSize, definedSize] at hpos ⊢
      split
      · rename_i baseType members hbody
        rw [hbody] at hpos
        obtain ⟨d, hdef, hbody⟩ := body?_eq_some.mp hbody
        exact .enum span name hdef hbody (Scalar.wireSize_eq hpos)
      · rename_i isMutable fields hbody
        rw [hbody] at hpos
        exact .defined span name hpos (h ref hpos)
      · rename_i henum hstruct
        split at hpos
        · rename_i hbody
          exact absurd hbody (henum _ _)
        · rename_i hbody
          exact absurd hbody (hstruct _ _)
        · exact absurd hpos (Nat.lt_irrefl 0)

theorem SizesFixed.typeFixedSize (h : result.SizesFixed sizes) {type : Ty}
    (hpos : 0 < result.typeFixedSize sizes type) :
    result.Fixed (.type type) (result.typeFixedSize sizes type) := by
  rw [typeFixedSize_eq] at hpos ⊢
  obtain ⟨heq, -⟩ := checked_pos hpos
  rw [heq] at hpos ⊢
  exact h.unboundedSize hpos

theorem setFixedSize_apply {ref other : DefRef} (h : other ≠ ref) :
    result.setFixedSize sizes ref other = sizes other := by
  unfold setFixedSize
  cases result.body? ref with
  | none => rfl
  | some body =>
    cases body with
    | struct isMutable fields => exact Function.update_of_ne h _ _
    | _ => rfl

theorem setFixedSize_struct {ref : DefRef} {isMutable : Bool} {fields : List Field}
    (hbody : result.body? ref = some (.struct isMutable fields)) :
    result.setFixedSize sizes ref ref = result.structFixedSize sizes 0 fields := by
  unfold setFixedSize
  rw [hbody]
  exact Function.update_self ..

theorem SizesFixed.setFixedSize (h : result.SizesFixed sizes) (ref : DefRef) :
    result.SizesFixed (result.setFixedSize sizes ref) := by
  intro other hpos
  by_cases hother : other = ref
  · subst hother
    cases hbody : result.body? other with
    | none =>
      unfold ParseResult.setFixedSize at hpos ⊢
      rw [hbody] at hpos ⊢
      exact h other hpos
    | some body =>
      cases body with
      | struct isMutable fields =>
        rw [setFixedSize_struct hbody] at hpos ⊢
        obtain ⟨hall, hsum⟩ := structFixedSize_pos result sizes hpos
        rw [hsum]
        obtain ⟨d, hdef, hbody⟩ := body?_eq_some.mp hbody
        exact .struct hdef hbody (.ofFields fun field hfield => h.typeFixedSize (hall field hfield))
      | _ =>
        unfold ParseResult.setFixedSize at hpos ⊢
        rw [hbody] at hpos ⊢
        exact h other hpos
  · rw [setFixedSize_apply hother] at hpos ⊢
    exact h other hpos

theorem sizesFixed_computeFixedSizes (order : List DefRef) : result.SizesFixed (result.computeFixedSizes order) := by
  unfold computeFixedSizes
  refine List.foldlRecOn order _ (fun ref hpos => ?_) fun sizes h ref _ => h.setFixedSize ref
  exact absurd hpos (Nat.lt_irrefl 0)

theorem sizesFixed_fixedSizes : result.SizesFixed result.fixedSizes := sizesFixed_computeFixedSizes _

theorem foldl_setFixedSize_of_notMem {order : List DefRef} {ref : DefRef} (h : ref ∉ order) :
    order.foldl result.setFixedSize sizes ref = sizes ref := by
  induction order generalizing sizes with
  | nil => rfl
  | cons first order ih =>
    rw [List.foldl_cons, ih (List.not_mem_of_not_mem_cons h)]
    exact setFixedSize_apply (List.ne_of_not_mem_cons h)

theorem nodup_sortedOrder (result : ParseResult) : result.sortedOrder.Nodup := by
  unfold sortedOrder
  split
  · rename_i order horder
    exact (perm_of_toposort horder).nodup_iff.mpr result.nodup_registered
  · exact List.nodup_nil

theorem fixedSizes_eq {before later : List DefRef} {ref : DefRef} (horder : result.sortedOrder = before ++ ref :: later)
    {isMutable : Bool} {fields : List Field} (hbody : result.body? ref = some (.struct isMutable fields)) :
    result.fixedSizes ref = result.structFixedSize (result.computeFixedSizes before) 0 fields := by
  have hnodup := result.nodup_sortedOrder
  rw [horder] at hnodup
  unfold fixedSizes computeFixedSizes
  rw [horder, List.foldl_append, List.foldl_cons, foldl_setFixedSize_of_notMem, setFixedSize_struct hbody]
  exact (List.nodup_cons.mp (List.nodup_append.mp hnodup).2.1).1

theorem computeFixedSizes_before {before later : List DefRef} {ref dep : DefRef}
    (horder : result.sortedOrder = before ++ ref :: later) (hdep : dep ∈ before) :
    result.computeFixedSizes before dep = result.fixedSizes dep := by
  have hnodup := result.nodup_sortedOrder
  rw [horder] at hnodup
  have hlater : dep ∉ ref :: later := by
    intro hlater
    exact (List.nodup_append.mp hnodup).2.2 _ hdep _ hlater rfl
  unfold fixedSizes
  rw [horder]
  unfold computeFixedSizes
  rw [List.foldl_append]
  exact (foldl_setFixedSize_of_notMem hlater).symm

theorem computeFixedSizes_of_notMem {ref : DefRef} {order : List DefRef} (h : ref ∉ order) :
    result.computeFixedSizes order ref = 0 :=
  foldl_setFixedSize_of_notMem h

theorem fixedSize_exact {type : Ty} {n : Nat} (hpos : 0 < result.typeFixedSize result.fixedSizes type)
    (htakes : result.Takes (.type type) n) : n = result.typeFixedSize result.fixedSizes type :=
  (sizesFixed_fixedSizes.typeFixedSize hpos).unique htakes

/-! ## Definitions of fixed size -/

theorem Fixed.body? {ref : DefRef} {n : Nat} (h : result.Fixed (.definition ref) n) :
    ∃ isMutable fields, result.body? ref = some (.struct isMutable fields) ∧ result.Fixed (.fields fields) n := by
  obtain ⟨d, isMutable, fields, hdef, hbody, hfields⟩ := h.isStruct
  exact ⟨isMutable, fields, body?_eq_some.mpr ⟨d, hdef, hbody⟩, hfields⟩

theorem structFixedSize_lt {fields : List Field} : result.structFixedSize sizes 0 fields < 2 ^ 32 := by
  rw [structFixedSize_eq result sizes (by decide)]
  unfold checked
  split
  · split
    · assumption
    · decide
  · decide

/-- The sizes agree on the struct that the items of the type are, if they are structs. -/
def AgreeOn (result : ParseResult) (sizes sizes' : DefRef → Nat) (type : Ty) : Prop :=
  ∀ dep, type.itemRef = some dep → ∀ isMutable fields, result.body? dep = some (.struct isMutable fields) →
    sizes dep = sizes' dep

/-- Where the sizes that are computed are those of the wire. -/
def Computed (result : ParseResult) : Wire → Nat → Prop
  | .type type, n => type.Counted → ∀ sizes, result.AgreeOn sizes result.fixedSizes type →
    result.unboundedSize sizes type = n ∧ 0 < n
  | .fields fields, n => (∀ field ∈ fields, field.type.Counted) → ∀ sizes,
    (∀ field ∈ fields, result.AgreeOn sizes result.fixedSizes field.type) →
      (∀ field ∈ fields, 0 < result.unboundedSize sizes field.type) ∧
        (fields.map fun field => result.unboundedSize sizes field.type).sum = n
  | .definition ref, n => n ≠ 0 → result.fixedSizes ref = n
  | .items _ _, _ => True

theorem Scalar.fixedSize_eq {kind : Scalar} {n : Nat} (h : kind.wireSize = some n) : kind.fixedSize = n ∧ 0 < n := by
  cases kind with
  | string => cases h
  | _ =>
    cases h
    exact ⟨rfl, by decide⟩

theorem SizesParsed.fields (h : result.SizesParsed) {ref : DefRef} {isMutable : Bool} {fields : List Field}
    (hbody : result.body? ref = some (.struct isMutable fields)) : ∀ field ∈ fields, field.type.Counted :=
  fun field hfield => h.counted ref _ hbody (.field, field.type) (List.mem_map.mpr ⟨field, hfield, rfl⟩)

theorem StructsInOrder.computed (horder : result.StructsInOrder) (hparsed : result.SizesParsed) {s : Wire} {n : Nat}
    (h : result.Fixed s n) : result.Computed s n := by
  induction h with
  | scalar span hsize =>
    intro _ sizes _
    exact Scalar.fixedSize_eq hsize
  | fixedArray span size helement ih =>
    intro hcounted sizes hagree
    obtain ⟨helement, hpos⟩ := ih hcounted.2 sizes hagree
    rw [ParseResult.unboundedSize, helement]
    exact ⟨rfl, Nat.mul_pos hcounted.1 hpos⟩
  | enum span name hdef hbody hsize =>
    intro _ sizes _
    rw [ParseResult.unboundedSize, definedSize, body?_eq_some.mpr ⟨_, hdef, hbody⟩]
    exact Scalar.fixedSize_eq hsize
  | defined span name hpos hstruct ih =>
    intro _ sizes hagree
    obtain ⟨isMutable, fields, hbody, -⟩ := hstruct.body?
    rw [ParseResult.unboundedSize, definedSize, hbody]
    exact ⟨(hagree _ rfl _ _ hbody).trans (ih (Nat.ne_of_gt hpos)), hpos⟩
  | noFields =>
    intro _ sizes _
    exact ⟨fun _ h => (by cases h), rfl⟩
  | moreFields hfirst hrest ihFirst ihRest =>
    intro hcounted sizes hagree
    obtain ⟨hfirst, hpos⟩ := ihFirst (hcounted _ (List.mem_cons_self ..)) sizes (hagree _ (List.mem_cons_self ..))
    obtain ⟨hall, hsum⟩ := ihRest (fun field hfield => hcounted field (List.mem_cons_of_mem _ hfield)) sizes
      fun field hfield => hagree field (List.mem_cons_of_mem _ hfield)
    rw [List.forall_mem_cons, List.map_cons, List.sum_cons, hfirst, hsum]
    exact ⟨⟨hpos, hall⟩, rfl⟩
  | @struct ref d isMutable fields n hdef hbody hfields ih =>
    intro hn
    have hbody := body?_eq_some.mpr ⟨d, hdef, hbody⟩
    obtain ⟨hlt, before, later, hsplit, hbefore⟩ := horder _ _ (.struct hdef ‹_› hfields) hn
    obtain ⟨hall, hsum⟩ := ih (hparsed.fields hbody) (result.computeFixedSizes before)
      fun field hfield dep hdep isMutable' fields' hbody' =>
        computeFixedSizes_before hsplit (hbefore _ _ hbody field hfield dep hdep _ _ hbody')
    -- each size is part of the sum, so that none is too large
    have hsize (field : Field) (hfield : field ∈ fields) :
        result.typeFixedSize (result.computeFixedSizes before) field.type =
          result.unboundedSize (result.computeFixedSizes before) field.type := by
      rw [typeFixedSize_eq, checked_eq]
      refine Nat.lt_of_le_of_lt ?_ hlt
      rw [← hsum]
      exact List.le_sum_of_mem (List.mem_map.mpr ⟨field, hfield, rfl⟩)
    rw [fixedSizes_eq hsplit hbody, structFixedSize_eq _ _ (by decide), Nat.zero_add, List.map_congr_left hsize, hsum,
      checked_eq hlt, if_pos]
    intro field hfield
    rw [hsize field hfield]
    exact hall field hfield

theorem SizesParsed.unboundedSize_pos (hparsed : result.SizesParsed) {type : Ty} (hcounted : type.Counted)
    (h : result.typeIsFixed sizes type = true) : 0 < result.unboundedSize sizes type := by
  induction type with
  | scalar span kind =>
    cases kind with
    | string => cases h
    | _ => exact Nat.succ_pos _
  | array span element ih => cases h
  | fixedArray span element size ih => exact Nat.mul_pos hcounted.1 (ih hcounted.2 h)
  | map span key value ihKey ihValue => cases h
  | defined span name resolved =>
    cases resolved with
    | none => cases h
    | some ref =>
      rw [typeIsFixed, definedIsFixed] at h
      rw [ParseResult.unboundedSize, definedSize]
      cases hbody : result.body? ref with
      | none =>
        rw [hbody] at h
        cases h
      | some body =>
        rw [hbody] at h
        cases body with
        | enum baseType members => exact hparsed.number ref _ _ hbody
        | struct isMutable fields => exact of_decide_eq_true h
        | _ => cases h

theorem SizesParsed.fixed (hparsed : result.SizesParsed) {ref : DefRef} {isMutable : Bool} {fields : List Field}
    (hbody : result.body? ref = some (.struct isMutable fields))
    (h : result.defIsFixedSize result.fixedSizes ref = true) :
    ∃ n, result.Fixed (.definition ref) n ∧ (n = 0 → fields = []) := by
  rw [defIsFixedSize, hbody] at h
  have hpos (field : Field) (hfield : field ∈ fields) : 0 < result.unboundedSize result.fixedSizes field.type :=
    hparsed.unboundedSize_pos (hparsed.fields hbody field hfield) (List.all_eq_true.mp h field hfield)
  obtain ⟨d, hdef, hbody⟩ := body?_eq_some.mp hbody
  have hfields := Fixed.ofFields fun field hfield => sizesFixed_fixedSizes.unboundedSize (hpos field hfield)
  refine ⟨_, .struct hdef hbody hfields, ?_⟩
  intro hzero
  refine List.eq_nil_iff_forall_not_mem.mpr fun field hfield => ?_
  have hle : result.unboundedSize result.fixedSizes field.type ≤
      (fields.map fun field => result.unboundedSize result.fixedSizes field.type).sum :=
    List.le_sum_of_mem (List.mem_map.mpr ⟨field, hfield, rfl⟩)
  rw [hzero] at hle
  exact Nat.not_lt_of_le hle (hpos field hfield)

theorem StructsInOrder.definition (horder : result.StructsInOrder) (hparsed : result.SizesParsed) {ref : DefRef}
    {n : Nat}
    (h : result.defIsFixedSize result.fixedSizes ref = true) (htakes : result.Takes (.definition ref) n) :
    n = result.defFixedSize result.fixedSizes ref := by
  rw [defFixedSize, definedSize]
  split
  · rename_i hbody
    obtain ⟨d, hdef, hbody⟩ := body?_eq_some.mp hbody
    have hsize := htakes.body hdef
    rw [hbody] at hsize
    exact (Scalar.fixedSize_eq hsize).1.symm
  · rename_i hbody
    obtain ⟨m, hfixed, hempty⟩ := hparsed.fixed hbody h
    have hn := hfixed.unique htakes
    rw [hn]
    by_cases hm : m = 0
    · -- without fields nothing is computed either
      refine hm.trans (Nat.eq_zero_of_not_pos fun hpos => ?_).symm
      have := (sizesFixed_fixedSizes ref hpos).unique htakes
      omega
    · exact (horder.computed hparsed hfixed hm).symm
  · rename_i henum hstruct
    rw [defIsFixedSize] at h
    split at h
    · rename_i hbody
      exact absurd hbody (hstruct _ _)
    · rename_i hbody
      exact absurd hbody (henum _ _)
    · cases h

/-! ## Structs that get their sizes -/

/-- What is reported as fixed where the sizes are exact. -/
def Reported (result : ParseResult) : Wire → Nat → Prop
  | .type type, _ => result.typeIsFixed result.fixedSizes type = true
  | .fields fields, _ => ∀ field ∈ fields, result.typeIsFixed result.fixedSizes field.type = true
  | .definition ref, n => n ≠ 0 → result.fixedSizes ref = n
  | .items _ _, _ => True

theorem SizesExact.reported (hexact : result.SizesExact) {s : Wire} {n : Nat} (h : result.Fixed s n) :
    result.Reported s n := by
  induction h with
  | @scalar kind n span hsize =>
    cases kind with
    | string => cases hsize
    | _ => rfl
  | fixedArray span size helement ih => exact ih
  | enum span name hdef hbody hsize =>
    change result.definedIsFixed _ _ = true
    rw [definedIsFixed, body?_eq_some.mpr ⟨_, hdef, hbody⟩]
  | defined span name hpos hstruct ih =>
    obtain ⟨isMutable, fields, hbody, -⟩ := hstruct.body?
    change result.definedIsFixed _ _ = true
    rw [definedIsFixed, hbody, ih (Nat.ne_of_gt hpos)]
    exact decide_eq_true hpos
  | noFields =>
    intro field hfield
    cases hfield
  | moreFields hfirst hrest ihFirst ihRest => exact List.forall_mem_cons.mpr ⟨ihFirst, ihRest⟩
  | @struct ref d isMutable fields n hdef hbody hfields ih =>
    intro hn
    have hreported : result.defIsFixedSize result.fixedSizes ref = true := by
      rw [defIsFixedSize, body?_eq_some.mpr ⟨d, hdef, hbody⟩]
      exact List.all_eq_true.mpr ih
    have hsize := hexact.definition ref n hreported (Fixed.struct hdef hbody hfields).takes
    rw [defFixedSize, definedSize, body?_eq_some.mpr ⟨d, hdef, hbody⟩] at hsize
    exact hsize.symm

theorem unboundedSize_itemRef {type : Ty} (hpos : 0 < result.unboundedSize sizes type) {dep : DefRef}
    (hdep : type.itemRef = some dep) {isMutable : Bool} {fields : List Field}
    (hbody : result.body? dep = some (.struct isMutable fields)) : 0 < sizes dep := by
  induction type with
  | scalar span kind => cases hdep
  | array span element ih => cases hdep
  | fixedArray span element size ih =>
    exact ih (Nat.pos_of_ne_zero (Nat.ne_zero_of_mul_ne_zero_right (Nat.ne_of_gt hpos))) hdep
  | map span key value ihKey ihValue => cases hdep
  | defined span name resolved =>
    cases hdep
    rw [ParseResult.unboundedSize, definedSize, hbody] at hpos
    exact hpos

theorem comesAfterFields {ref : DefRef} {isMutable : Bool} {fields : List Field}
    (hbody : result.body? ref = some (.struct isMutable fields)) (hpos : 0 < result.fixedSizes ref) :
    result.fixedSizes ref < 2 ^ 32 ∧ result.ComesAfterFields ref := by
  have hmem : ref ∈ result.sortedOrder := by
    by_contra hnot
    exact Nat.ne_of_gt hpos (computeFixedSizes_of_notMem hnot)
  obtain ⟨before, later, horder⟩ := List.append_of_mem hmem
  rw [fixedSizes_eq horder hbody] at hpos ⊢
  refine ⟨structFixedSize_lt, before, later, horder, ?_⟩
  intro isMutable' fields' hbody' field hfield dep hdep isMutable'' fields'' hdepBody
  rw [hbody, Option.some.injEq, Body.struct.injEq] at hbody'
  obtain ⟨-, rfl⟩ := hbody'
  have hfieldPos := (structFixedSize_pos result _ hpos).1 field hfield
  rw [typeFixedSize_eq] at hfieldPos
  by_contra hnot
  have hdepPos := unboundedSize_itemRef (Nat.lt_of_lt_of_le hfieldPos (checked_le _)) hdep hdepBody
  rw [computeFixedSizes_of_notMem hnot] at hdepPos
  exact Nat.lt_irrefl 0 hdepPos

theorem SizesExact.structsInOrder (hexact : result.SizesExact) : result.StructsInOrder := by
  intro ref n h hn
  have hsize : result.fixedSizes ref = n := hexact.reported h hn
  obtain ⟨isMutable, fields, hbody, -⟩ := h.body?
  rw [← hsize]
  exact comesAfterFields hbody (Nat.pos_of_ne_zero (hsize ▸ hn))

theorem wireSize_eq {ref : DefRef} {n : Nat} (h : result.Fixed (.definition ref) n) : result.wireSize ref = n := by
  unfold wireSize
  rw [dif_pos ⟨n, h⟩]
  exact h.unique (Exists.choose_spec ⟨n, h⟩).takes

theorem StructsInOrder.fixedSizes_eq (horder : result.StructsInOrder) (hparsed : result.SizesParsed) :
    result.fixedSizes = result.wireSize := by
  funext ref
  by_cases hfixed : ∃ n, result.Fixed (.definition ref) n
  · obtain ⟨n, hfixed⟩ := hfixed
    rw [wireSize_eq hfixed]
    by_cases hn : n = 0
    · refine (Nat.eq_zero_of_not_pos fun hpos => ?_).trans hn.symm
      have := hfixed.unique (sizesFixed_fixedSizes ref hpos).takes
      omega
    · exact horder.computed hparsed hfixed hn
  · unfold wireSize
    rw [dif_neg hfixed]
    exact Nat.eq_zero_of_not_pos fun hpos => hfixed ⟨_, sizesFixed_fixedSizes ref hpos⟩

/-! ## Minimum sizes -/

section

variable (result : ParseResult) (sizes : DefRef → Nat)

def definedLeastSize (ref : DefRef) : Nat :=
  match result.body? ref with
  | some (.message _) => 4
  | some (.union _) => 5
  | _ => result.definedSize sizes ref

def leastSize : Ty → Nat
  | .scalar _ .string => 5
  | .scalar _ kind => kind.fixedSize
  | .array _ _ => 4
  | .map _ _ _ => 4
  | .fixedArray _ element size => size * leastSize element
  | .defined _ _ none => 0
  | .defined _ _ (some ref) => result.definedLeastSize sizes ref

theorem definedSize_le (ref : DefRef) : result.definedSize sizes ref ≤ result.definedLeastSize sizes ref := by
  rw [definedLeastSize]
  split
  · rename_i hbody
    rw [definedSize, hbody]
    exact Nat.zero_le _
  · rename_i hbody
    rw [definedSize, hbody]
    exact Nat.zero_le _
  · exact Nat.le_refl _

theorem unboundedSize_le (type : Ty) : result.unboundedSize sizes type ≤ result.leastSize sizes type := by
  induction type with
  | scalar span kind =>
    cases kind with
    | string => exact Nat.zero_le 5
    | _ => exact Nat.le_refl _
  | array span element ih => exact Nat.zero_le _
  | fixedArray span element size ih => exact Nat.mul_le_mul_left size ih
  | map span key value ihKey ihValue => exact Nat.zero_le _
  | defined span name resolved =>
    cases resolved with
    | none => exact Nat.le_refl 0
    | some ref => exact result.definedSize_le sizes ref

theorem typeFixedSize_le (type : Ty) : result.typeFixedSize sizes type ≤ result.leastSize sizes type := by
  rw [typeFixedSize_eq]
  exact (checked_le _).trans (result.unboundedSize_le sizes type)

variable {reduce : Nat → Nat}

theorem typeMinWireSizeFrom_le (hreduce : ∀ n, reduce n ≤ n) (multiplier : Nat) (type : Ty) :
    result.typeMinWireSizeFrom sizes reduce multiplier type ≤ result.leastSize sizes type * multiplier := by
  induction type generalizing multiplier with
  | scalar span kind =>
    unfold typeMinWireSizeFrom
    rw [ite_mulWouldOverflow]
    split
    · exact (checked_le _).trans (Nat.mul_le_mul_right _ (result.typeFixedSize_le sizes _))
    · cases kind with
      | string => exact hreduce _
      | _ => exact Nat.zero_le _
  | array span element ih =>
    rw [typeMinWireSizeFrom, ite_mulWouldOverflow]
    split
    · exact (checked_le _).trans (Nat.mul_le_mul_right _ (result.typeFixedSize_le sizes _))
    · exact hreduce _
  | fixedArray span element size ih =>
    rw [typeMinWireSizeFrom, ite_mulWouldOverflow]
    split
    · exact (checked_le _).trans (Nat.mul_le_mul_right _ (result.typeFixedSize_le sizes _))
    · split
      · exact Nat.zero_le _
      · refine (ih (multiplier * size)).trans (Nat.le_of_eq ?_)
        rw [leastSize, Nat.mul_comm size, Nat.mul_assoc, Nat.mul_comm multiplier]
  | map span key value ihKey ihValue =>
    rw [typeMinWireSizeFrom, ite_mulWouldOverflow]
    split
    · exact (checked_le _).trans (Nat.mul_le_mul_right _ (result.typeFixedSize_le sizes _))
    · exact hreduce _
  | defined span name resolved =>
    unfold typeMinWireSizeFrom
    rw [ite_mulWouldOverflow]
    split
    · exact (checked_le _).trans (Nat.mul_le_mul_right _ (result.typeFixedSize_le sizes _))
    · cases resolved with
      | none => exact Nat.zero_le _
      | some ref =>
        dsimp only
        rw [leastSize, definedLeastSize]
        split
        · exact hreduce _
        · exact hreduce _
        · exact Nat.zero_le _

end

theorem SizesFixed.definedLeastSize_le (h : result.SizesFixed sizes) {ref : DefRef} {n : Nat}
    (htakes : result.Takes (.definition ref) n) : result.definedLeastSize sizes ref ≤ n := by
  cases hdef : result.def? ref with
  | none =>
    rw [definedLeastSize, definedSize, ParseResult.body?, hdef]
    exact Nat.zero_le n
  | some d =>
    have hsize := htakes.body hdef
    have hbody : result.body? ref = some d.body := congrArg (Option.map Def.body) hdef
    rw [definedLeastSize, definedSize, hbody]
    cases hd : d.body with
    | enum baseType members =>
      rw [hd] at hsize
      exact Nat.le_of_eq (Scalar.fixedSize_eq hsize).1
    | struct isMutable fields =>
      rcases Nat.eq_zero_or_pos (sizes ref) with hzero | hpos
      · exact (Nat.le_of_eq hzero).trans (Nat.zero_le n)
      · exact Nat.le_of_eq ((h ref hpos).unique htakes).symm
    | message fields =>
      rw [hd] at hsize
      exact Nat.le_of_succ_le hsize
    | union branches =>
      rw [hd] at hsize
      exact hsize
    | _ => exact Nat.zero_le n

theorem Takes.items_ge {element : Ty} {least : Nat} (hitem : ∀ m, result.Takes (.type element) m → least ≤ m)
    {count n : Nat}
    (h : result.Takes (.items element count) n) : count * least ≤ n := by
  induction count generalizing n with
  | zero =>
    rw [Nat.zero_mul]
    exact Nat.zero_le n
  | succ count ih =>
    cases h with
    | moreItems hfirst hrest =>
      rw [Nat.succ_mul, Nat.add_comm]
      exact Nat.add_le_add (hitem _ hfirst) (ih hrest)

theorem SizesFixed.leastSize_le (h : result.SizesFixed sizes) {type : Ty} {n : Nat}
    (htakes : result.Takes (.type type) n) :
    result.leastSize sizes type ≤ n := by
  induction type generalizing n with
  | scalar span kind =>
    cases htakes with
    | scalar _ hsize =>
      cases kind with
      | string => cases hsize
      | _ => exact Nat.le_of_eq (Scalar.fixedSize_eq hsize).1
    | string _ length =>
      change 5 ≤ _
      omega
  | array span element ih =>
    cases htakes with
    | array _ hitems => exact Nat.le_add_right 4 _
  | fixedArray span element size ih =>
    cases htakes with
    | fixedArray _ hitems => exact hitems.items_ge fun _ => ih
  | map span key value ihKey ihValue =>
    cases htakes with
    | map _ hkeys hvalues => exact Nat.le_add_right 4 _
  | defined span name resolved =>
    cases htakes with
    | defined _ _ hdefinition => exact h.definedLeastSize_le hdefinition

theorem typeMinWireSize_le {reduce : Nat → Nat} (hreduce : ∀ n, reduce n ≤ n) (h : result.SizesFixed sizes) {type : Ty}
    {n : Nat} (htakes : result.Takes (.type type) n) : result.typeMinWireSize sizes reduce type ≤ n := by
  have hle := result.typeMinWireSizeFrom_le sizes hreduce 1 type
  rw [Nat.mul_one] at hle
  exact hle.trans (h.leastSize_le htakes)

theorem fieldsMinWireSize_le {reduce : Nat → Nat} (hreduce : ∀ n, reduce n ≤ n) (h : result.SizesFixed sizes)
    {fields : List Field} {n size : Nat} (htakes : result.Takes (.fields fields) n) :
    fields.foldl (fun size field => reduce (size + result.typeMinWireSize sizes reduce field.type)) size ≤ size + n := by
  induction fields generalizing n size with
  | nil => exact Nat.le_add_right size n
  | cons field fields ih =>
    cases htakes with
    | @moreFields _ _ first rest hfirst hrest =>
      rw [List.foldl_cons, ← Nat.add_assoc]
      refine (ih hrest).trans (Nat.add_le_add_right ?_ rest)
      exact (hreduce _).trans (Nat.add_le_add_left (typeMinWireSize_le hreduce h hfirst) size)

theorem defMinWireSize_le {reduce : Nat → Nat} (hreduce : ∀ n, reduce n ≤ n) (h : result.SizesFixed sizes)
    {ref : DefRef}
    {n : Nat} (htakes : result.Takes (.definition ref) n) : result.defMinWireSize sizes reduce ref ≤ n := by
  cases hdef : result.def? ref with
  | none =>
    rw [defMinWireSize, ParseResult.body?, hdef]
    exact Nat.zero_le n
  | some d =>
    have hleast := h.definedLeastSize_le htakes
    have hsize := htakes.body hdef
    have hbody : result.body? ref = some d.body := congrArg (Option.map Def.body) hdef
    rw [definedLeastSize, definedSize, hbody] at hleast
    rw [defMinWireSize, hbody]
    cases hd : d.body with
    | struct isMutable fields =>
      rw [hd] at hleast hsize
      dsimp only
      split
      · exact hleast
      · exact (fieldsMinWireSize_le hreduce h hsize).trans (Nat.le_of_eq (Nat.zero_add n))
    | enum baseType members =>
      rw [hd] at hleast
      exact hleast
    | message fields =>
      rw [hd] at hleast
      exact hleast
    | union branches =>
      rw [hd] at hleast
      exact hleast
    | _ => exact Nat.zero_le n

/-! ## Minimum sizes that are reduced -/

theorem checked_mod (n : Nat) : checked n % 2 ^ 32 = checked n := by
  refine Nat.mod_eq_of_lt ?_
  unfold checked
  split
  · assumption
  · decide

theorem typeMinWireSizeFrom_mod (multiplier : Nat) (type : Ty) :
    result.typeMinWireSizeFrom sizes (· % 2 ^ 32) multiplier type =
      result.typeMinWireSizeFrom sizes id multiplier type % 2 ^ 32 := by
  induction type generalizing multiplier with
  | scalar span kind =>
    unfold typeMinWireSizeFrom
    rw [ite_mulWouldOverflow]
    split
    · exact (checked_mod _).symm
    · cases kind <;> rfl
  | array span element ih =>
    rw [typeMinWireSizeFrom, typeMinWireSizeFrom, ite_mulWouldOverflow]
    split
    · exact (checked_mod _).symm
    · rfl
  | fixedArray span element size ih =>
    rw [typeMinWireSizeFrom, typeMinWireSizeFrom, ite_mulWouldOverflow]
    split
    · exact (checked_mod _).symm
    · split
      · rfl
      · exact ih _
  | map span key value ihKey ihValue =>
    rw [typeMinWireSizeFrom, typeMinWireSizeFrom, ite_mulWouldOverflow]
    split
    · exact (checked_mod _).symm
    · rfl
  | defined span name resolved =>
    unfold typeMinWireSizeFrom
    rw [ite_mulWouldOverflow]
    split
    · exact (checked_mod _).symm
    · cases resolved with
      | none => rfl
      | some ref =>
        dsimp only
        split <;> rfl

theorem typeMinWireSize_mod (type : Ty) : result.typeMinWireSize sizes (· % 2 ^ 32) type =
    result.typeMinWireSize sizes id type % 2 ^ 32 := typeMinWireSizeFrom_mod 1 type

theorem foldl_minWireSize_mod (fields : List Field) (size : Nat) :
    fields.foldl (fun size field => (size + result.typeMinWireSize sizes (· % 2 ^ 32) field.type) % 2 ^ 32)
        (size % 2 ^ 32) =
      fields.foldl (fun size field => id (size + result.typeMinWireSize sizes id field.type)) size % 2 ^ 32 := by
  induction fields generalizing size with
  | nil => rfl
  | cons field fields ih =>
    rw [List.foldl_cons, List.foldl_cons, typeMinWireSize_mod, ← Nat.add_mod]
    exact ih _

theorem fixedSizes_lt {ref : DefRef} {isMutable : Bool} {fields : List Field}
    (hbody : result.body? ref = some (.struct isMutable fields)) : result.fixedSizes ref < 2 ^ 32 := by
  rcases Nat.eq_zero_or_pos (result.fixedSizes ref) with hzero | hpos
  · rw [hzero]
    decide
  · exact (comesAfterFields hbody hpos).1

theorem defMinWireSize_mod (ref : DefRef) : result.defMinWireSize result.fixedSizes (· % 2 ^ 32) ref =
    result.defMinWireSize result.fixedSizes id ref % 2 ^ 32 := by
  rw [defMinWireSize, defMinWireSize]
  cases hbody : result.body? ref with
  | none => rfl
  | some body =>
    cases body with
    | struct isMutable fields =>
      dsimp only
      split
      · exact (Nat.mod_eq_of_lt (fixedSizes_lt hbody)).symm
      · exact foldl_minWireSize_mod fields 0
    | enum baseType members => cases baseType <;> rfl
    | _ => rfl

theorem mod_eq_self_iff {n : Nat} : n % 2 ^ 32 = n ↔ n < 2 ^ 32 :=
  ⟨fun h => h ▸ Nat.mod_lt n (by decide), Nat.mod_eq_of_lt⟩

theorem unboundedSize_of_variable {type : Ty} (h : result.variableSize type.item ≠ 0) :
    result.unboundedSize sizes type = 0 := by
  induction type with
  | scalar span kind =>
    cases kind with
    | string => rfl
    | _ => exact absurd rfl h
  | array span element ih => rfl
  | fixedArray span element size ih => exact congrArg (size * ·) (ih h)
  | map span key value ihKey ihValue => rfl
  | defined span name resolved =>
    cases resolved with
    | none => rfl
    | some ref =>
      change (match result.body? ref with
        | some (.message _) => 4
        | some (.union _) => 5
        | _ => 0) ≠ 0 at h
      rw [unboundedSize, definedSize]
      split
      · rename_i hbody
        rw [hbody] at h
        exact absurd rfl h
      · rename_i hbody
        rw [hbody] at h
        exact absurd rfl h
      · rfl

theorem checked_mul_eq_zero {n : Nat} (h : checked n = 0) (multiplier : Nat) : checked (multiplier * n) = 0 := by
  rcases Nat.eq_zero_or_pos multiplier with rfl | hpos
  · rw [Nat.zero_mul]
    rfl
  · unfold checked at h ⊢
    split at h
    · rw [h, Nat.mul_zero, ite_self]
    · rename_i hlarge
      have := Nat.le_mul_of_pos_left n hpos
      exact if_neg (by omega)

theorem typeMinWireSizeFrom_fixed {type : Ty} (h : result.variableSize type.item = 0) (multiplier : Nat) :
    result.typeMinWireSizeFrom sizes id multiplier type = checked (multiplier * result.unboundedSize sizes type) := by
  have hfixed (hpos : checked (result.unboundedSize sizes type) > 0) (multiplier : Nat) :
      checked (checked (result.unboundedSize sizes type) * multiplier) =
        checked (multiplier * result.unboundedSize sizes type) := by
    rw [(checked_pos hpos).1, Nat.mul_comm]
  induction type generalizing multiplier with
  | scalar span kind =>
    unfold typeMinWireSizeFrom
    rw [ite_mulWouldOverflow, typeFixedSize_eq]
    split
    · exact hfixed ‹_› multiplier
    · rename_i hzero
      rw [checked_mul_eq_zero (Nat.eq_zero_of_not_pos hzero)]
      cases kind with
      | string => cases h
      | _ => rfl
  | array span element ih => cases h
  | fixedArray span element size ih =>
    rw [typeMinWireSizeFrom, ite_mulWouldOverflow, typeFixedSize_eq]
    split
    · exact hfixed ‹_› multiplier
    · rename_i hzero
      have hzero := Nat.eq_zero_of_not_pos hzero
      split
      · exact (checked_mul_eq_zero hzero multiplier).symm
      · rw [ih h, unboundedSize, Nat.mul_assoc]
        intro hpos multiplier
        rw [(checked_pos hpos).1, Nat.mul_comm]
  | map span key value ihKey ihValue => cases h
  | defined span name resolved =>
    unfold typeMinWireSizeFrom
    rw [ite_mulWouldOverflow, typeFixedSize_eq]
    split
    · exact hfixed ‹_› multiplier
    · rename_i hzero
      rw [checked_mul_eq_zero (Nat.eq_zero_of_not_pos hzero)]
      cases resolved with
      | none => rfl
      | some ref =>
        change (match result.body? ref with
          | some (.message _) => 4
          | some (.union _) => 5
          | _ => 0) = 0 at h
        dsimp only
        split at h
        · cases h
        · cases h
        · rfl

theorem typeMinWireSizeFrom_variable {type : Ty} (h : result.variableSize type.item ≠ 0) {multiplier : Nat}
    (hlt : multiplier < 2 ^ 32) : result.typeMinWireSizeFrom sizes id multiplier type =
      if multiplier * type.itemCount < 2 ^ 32 then multiplier * type.itemCount * result.variableSize type.item else 0 := by
  have hzero : ¬result.typeFixedSize sizes type > 0 := by
    rw [typeFixedSize_eq, unboundedSize_of_variable h]
    decide
  induction type generalizing multiplier with
  | scalar span kind =>
    unfold typeMinWireSizeFrom
    rw [if_neg hzero, Ty.itemCount, Nat.mul_one, if_pos hlt]
    cases kind with
    | string => exact Nat.mul_comm 5 multiplier
    | _ => exact absurd rfl h
  | array span element ih =>
    rw [typeMinWireSizeFrom, if_neg hzero, Ty.itemCount, Nat.mul_one, if_pos hlt]
    exact Nat.mul_comm 4 multiplier
  | fixedArray span element size ih =>
    rw [typeMinWireSizeFrom, if_neg hzero, Ty.itemCount, ← Nat.mul_assoc]
    split
    · rename_i hover
      have hover := mulWouldOverflow_iff.mp hover
      split
      · -- an empty array of what cannot be counted
        rename_i hcount
        have hnone : element.itemCount = 0 := by
          by_contra hpos
          have := Nat.le_mul_of_pos_right (multiplier * size) (Nat.pos_of_ne_zero hpos)
          omega
        rw [hnone, Nat.mul_zero, Nat.zero_mul]
      · rfl
    · rename_i hover
      refine ih h (Nat.not_le.mp (mulWouldOverflow_iff.not.mp hover)) ?_
      have hnone : result.unboundedSize sizes element = 0 := unboundedSize_of_variable h
      rw [typeFixedSize_eq, hnone]
      decide
  | map span key value ihKey ihValue =>
    rw [typeMinWireSizeFrom, if_neg hzero, Ty.itemCount, Nat.mul_one, if_pos hlt]
    exact Nat.mul_comm 4 multiplier
  | defined span name resolved =>
    cases resolved with
    | none => exact absurd rfl h
    | some ref =>
      unfold typeMinWireSizeFrom
      rw [if_neg hzero, Ty.itemCount, Nat.mul_one, if_pos hlt]
      change (match result.body? ref with
        | some (.message _) => 4
        | some (.union _) => 5
        | _ => 0) ≠ 0 at h
      change _ = multiplier * (match result.body? ref with
        | some (.message _) => 4
        | some (.union _) => 5
        | _ => 0)
      dsimp only
      split at h
      · exact Nat.mul_comm 4 multiplier
      · exact Nat.mul_comm 5 multiplier
      · exact absurd rfl h

theorem typeMinWireSize_id (type : Ty) : result.typeMinWireSize sizes id type = result.leastBytes sizes type := by
  unfold typeMinWireSize leastBytes
  split
  · rename_i h
    rw [typeMinWireSizeFrom_fixed h, Nat.one_mul]
  · rename_i h
    rw [typeMinWireSizeFrom_variable h (by decide), Nat.one_mul]

theorem leastBytes_lt_iff {type : Ty} : result.leastBytes sizes type < 2 ^ 32 ↔
    (type.itemCount < 2 ^ 32 → type.itemCount * result.variableSize type.item < 2 ^ 32) := by
  unfold leastBytes
  split
  · rename_i h
    rw [h, Nat.mul_zero]
    refine iff_of_true ?_ fun _ => by decide
    unfold checked
    split
    · assumption
    · decide
  · split
    · rename_i hcount
      exact ⟨fun h _ => h, fun h => h hcount⟩
    · rename_i hcount
      exact iff_of_true (by decide) fun h => absurd h hcount

theorem fieldsMinWireSize_id (fields : List Field) : result.fieldsMinWireSize sizes id fields =
    (fields.map fun field => result.leastBytes sizes field.type).sum := by
  unfold fieldsMinWireSize
  suffices hsum : ∀ size, fields.foldl (fun size field => id (size + result.typeMinWireSize sizes id field.type)) size =
      size + (fields.map fun field => result.leastBytes sizes field.type).sum from (hsum 0).trans (Nat.zero_add _)
  induction fields with
  | nil =>
    intro size
    rfl
  | cons field fields ih =>
    intro size
    rw [List.foldl_cons, ih, List.map_cons, List.sum_cons, typeMinWireSize_id, ← Nat.add_assoc]
    rfl

theorem defMinWireSize_struct {ref : DefRef} {isMutable : Bool} {fields : List Field}
    (hbody : result.body? ref = some (.struct isMutable fields)) (hzero : sizes ref = 0) :
    result.defMinWireSize sizes id ref = (fields.map fun field => result.leastBytes sizes field.type).sum := by
  rw [defMinWireSize, hbody]
  dsimp only
  rw [if_neg (Nat.not_lt_of_le (Nat.le_of_eq hzero)), fieldsMinWireSize_id]

theorem defMinWireSize_lt {ref : DefRef} (h : ∀ isMutable fields, result.body? ref = some (.struct isMutable fields) →
    result.fixedSizes ref ≠ 0) : result.defMinWireSize result.fixedSizes id ref < 2 ^ 32 := by
  rw [defMinWireSize]
  cases hbody : result.body? ref with
  | none => exact (by decide : 0 < 2 ^ 32)
  | some body =>
    cases body with
    | struct isMutable fields =>
      dsimp only
      rw [if_pos (Nat.pos_of_ne_zero (h isMutable fields hbody))]
      exact fixedSizes_lt hbody
    | enum baseType members => exact baseType.fixedSize_lt
    | message fields => exact (by decide : 4 < 2 ^ 32)
    | union branches => exact (by decide : 5 < 2 ^ 32)
    | _ => exact (by decide : 0 < 2 ^ 32)

theorem SizesExact.inRange (hexact : result.SizesExact) (hparsed : result.SizesParsed) : result.SizesInRange := by
  have hsizes := hexact.structsInOrder.fixedSizes_eq hparsed
  constructor
  · exact hexact.structsInOrder
  · intro type htype
    rw [← @leastBytes_lt_iff result result.fixedSizes, ← typeMinWireSize_id, ← mod_eq_self_iff, ← typeMinWireSize_mod]
    exact hexact.typeWhole type htype
  · intro ref isMutable fields hbody hzero
    rw [← hsizes] at hzero ⊢
    rw [← defMinWireSize_struct hbody hzero, ← mod_eq_self_iff, ← defMinWireSize_mod]
    exact hexact.defWhole ref

theorem SizesInRange.exact (hrange : result.SizesInRange) (hparsed : result.SizesParsed) : result.SizesExact := by
  have hsizes := hrange.structs.fixedSizes_eq hparsed
  have hreduce (n : Nat) : n % 2 ^ 32 ≤ n := Nat.mod_le n _
  constructor
  · intro type n hpos htakes
    exact fixedSize_exact hpos htakes
  · intro ref n hfixed htakes
    exact hrange.structs.definition hparsed hfixed htakes
  · intro type n htakes
    exact typeMinWireSize_le hreduce sizesFixed_fixedSizes htakes
  · intro ref n htakes
    exact defMinWireSize_le hreduce sizesFixed_fixedSizes htakes
  · intro type htype
    rw [typeMinWireSize_mod, mod_eq_self_iff, typeMinWireSize_id, leastBytes_lt_iff]
    exact hrange.items type htype
  · intro ref
    rw [defMinWireSize_mod, mod_eq_self_iff]
    by_cases hstruct : ∃ isMutable fields,
        result.body? ref = some (.struct isMutable fields) ∧ result.fixedSizes ref = 0
    · obtain ⟨isMutable, fields, hbody, hzero⟩ := hstruct
      rw [defMinWireSize_struct hbody hzero, hsizes]
      exact hrange.fields ref isMutable fields hbody (hsizes ▸ hzero)
    · exact defMinWireSize_lt fun isMutable fields hbody hzero => hstruct ⟨isMutable, fields, hbody, hzero⟩

/-- Exact if and only if the structs are in order and no size reaches `2 ^ 32`. -/
theorem sizes_exact_iff (result : ParseResult) (hparsed : result.SizesParsed) :
    result.SizesExact ↔ result.SizesInRange :=
  ⟨fun hexact => hexact.inRange hparsed, fun hrange => hrange.exact hparsed⟩

end ParseResult

/-! ## A struct of eight gigabytes -/

namespace Sample

/-- `struct S { f: …; }` -/
def holder (type : Ty) : Def := ⟨['S'], nowhere, [], .visDefault, [], .struct false [⟨['f'], nowhere, [], type, 0⟩]⟩

/-- `struct S { f: byte; }` -/
def byteHolder : ParseResult := ⟨[.ofDefinitions none [] [holder (.scalar nowhere .byte)] (by decide)]⟩

def manyNumbers : Ty := .fixedArray nowhere (.fixedArray nowhere (.scalar nowhere .uint16) 65535) 65535

/-- `struct S { f: uint16[65535][65535]; }` -/
def tooLarge : ParseResult := ⟨[.ofDefinitions none [] [holder manyNumbers] (by decide)]⟩

end Sample

open Sample

namespace ParseResult

theorem body?_byteHolder {ref : DefRef} {body : Body} (h : byteHolder.resolved.body? ref = some body) :
    ref = ⟨0, [0]⟩ ∧ body = (holder (.scalar nowhere .byte)).body := by
  obtain ⟨d, hdef, rfl⟩ := body?_eq_some.mp h
  have hmem := mem_registered.mpr ⟨d, hdef⟩
  rw [(by decide : byteHolder.resolved.registered = [⟨0, [0]⟩]), List.mem_singleton] at hmem
  subst hmem
  rw [(by decide : byteHolder.resolved.body? ⟨0, [0]⟩ = some (holder (.scalar nowhere .byte)).body)] at h
  exact ⟨rfl, (Option.some.inj h).symm⟩

theorem sizes_exact_byteHolder : byteHolder.resolved.SizesExact := by
  refine (sizes_exact_iff byteHolder.resolved ⟨fun ref body h => ?_, fun ref baseType members h => ?_⟩).mpr
    ⟨fun ref n hfixed hn => ?_, fun type htype _ => ?_, fun ref isMutable fields hbody _ => ?_⟩
  · obtain ⟨-, rfl⟩ := body?_byteHolder h
    intro x hx
    rw [List.mem_singleton.mp hx]
    trivial
  · cases (body?_byteHolder h).2
  · obtain ⟨isMutable, fields, hbody, hfields⟩ := hfixed.body?
    obtain ⟨rfl, hstruct⟩ := body?_byteHolder hbody
    cases hstruct
    have htakes : byteHolder.resolved.Takes (.fields [⟨['f'], nowhere, [], .scalar nowhere .byte, 0⟩]) 1 :=
      .moreFields (.scalar nowhere rfl) .noFields
    rw [← hfields.unique htakes]
    refine ⟨by decide, [], [], by decide, ?_⟩
    intro isMutable fields hbody field hfield dep hdep
    obtain ⟨-, hstruct⟩ := body?_byteHolder hbody
    cases hstruct
    rw [List.mem_singleton.mp hfield] at hdep
    cases hdep
  · obtain ⟨ref, body, hbody, x, hx, htype⟩ := htype
    obtain ⟨-, rfl⟩ := body?_byteHolder hbody
    rw [List.mem_singleton.mp hx] at htype
    rw [List.mem_singleton.mp htype]
    decide
  · obtain ⟨-, hstruct⟩ := body?_byteHolder hbody
    cases hstruct
    exact (by decide : 1 < 2 ^ 32)

/-- The field's size is not computed, and the struct counts as one of no byte. -/
theorem sizes_exact_fails :
    tooLarge.Accepted (fun _ => []) ∧ tooLarge.resolved.defIsFixedSize tooLarge.resolved.fixedSizes ⟨0, [0]⟩ = true ∧
      tooLarge.resolved.defFixedSize tooLarge.resolved.fixedSizes ⟨0, [0]⟩ = 0 ∧
        tooLarge.resolved.Takes (.definition ⟨0, [0]⟩) 8589672450 ∧ ¬tooLarge.resolved.SizesExact := by
  have hfixed : tooLarge.resolved.defIsFixedSize tooLarge.resolved.fixedSizes ⟨0, [0]⟩ = true := by decide
  have hzero : tooLarge.resolved.defFixedSize tooLarge.resolved.fixedSizes ⟨0, [0]⟩ = 0 := by decide
  have htype : tooLarge.resolved.Takes (.type manyNumbers) 8589672450 :=
    (Takes.fixedArray nowhere ((Takes.fixedArray nowhere ((Takes.scalar nowhere rfl).items 65535)).items 65535) :
      tooLarge.resolved.Takes (.type manyNumbers) (65535 * (65535 * 2)))
  have htakes : tooLarge.resolved.Takes (.definition ⟨0, [0]⟩) 8589672450 := by
    obtain ⟨d, hdef, hbody⟩ := body?_eq_some.mp
      (by decide : tooLarge.resolved.body? ⟨0, [0]⟩ = some (holder manyNumbers).body)
    exact .struct hdef hbody (.moreFields htype .noFields)
  refine ⟨by decide, hfixed, hzero, htakes, fun h => ?_⟩
  have hsize := h.definition _ _ hfixed htakes
  rw [hzero] at hsize
  cases hsize

end ParseResult

end Bebop.Compiler
