import UtilityFramework.Parsers.NestedParsers
import UtilityFramework.Parsers.RecordTree

/-!
# Validation

`validate` of a parser: a switch over the type of each field, which stops at the first field that
is not valid. The parser and its nested parsers share one buffer.

The elements of an array of enumeration values are not looked at. The parser of a record of an
array is made by `read_complex_at` by name, which leaves out the offset of the parser it is called
on: in a nested record, the bytes that are validated as a record of an array are those at the same
distance from the beginning of the buffer. A `BOOL` and a NaN are not compared with the bounds, and
an enumeration value or an element that cannot be read is passed over. Everything else is exact
(`BinaryMetadata.validates_iff`).

`none` stands for a null pointer and for undefined behaviour, which reading more than the eight
bytes of a value or using bytes that were not read is, and for what the model leaves out: an `ARRAY`
or `COMPLEX` field that shares its name with another field of the same metadata.
-/

namespace UtilityFramework

open Bytes BinaryMetadata

/-! ### The code -/

/-- A loop that stops at the first check that fails. -/
def checkAll {ι : Type*} (check : ι → Option Bool) : List ι → Option Bool
  | [] => some true
  | i :: is => (check i).bind fun ok => if ok then checkAll check is else some false

section Fields

variable (p : Platform) (names : List String) (buf : List UInt8) (off : ℕ) (node : Node)

/-- An element of an array of simple elements. One that cannot be read is passed over. -/
def validateElement (child : Node) (j : ℕ) : Option Bool :=
  match readAt buf off node child j with
  | none => some true
  | some data =>
    if 8 < data.length ∨ data.length < child.type.sizeofType then none
    else some (node.options.isInBounds child.type (ofLE data))

/-- An array in `validate`, given the validation of a record of the array at an offset. The offset
of the parser is not added to that of the record. -/
def validateArray (element : ℕ → Option Bool) : Option Bool :=
  match node.nested, node.child with
  | none, _ => none
  | some _, none => some true
  | some _, some child =>
    if child.type = .complex then
      checkAll (fun j => element (node.offset + j * child.size)) (List.range node.count)
    else if child.type.isSimpleType then
      checkAll (validateElement buf off node child) (List.range node.count)
    else some true

/-- A field in `validate` that is not complex and not an array. Of a simple field that is smaller
than its type, some bytes are never read. -/
def validateValue : Option Bool :=
  if node.type.isSimpleType = true ∧ node.size < node.type.sizeofType then none
  else validate p buf off node

/-- One field in `validate`, given the validation of a nested record and of a record of an
array. -/
def validateField (nested element : ℕ → Option Bool) : Option Bool :=
  match node.type with
  | .complex => if names.count node.name = 1 then nested (off + node.offset) else none
  | .array => if names.count node.name = 1 then validateArray buf off node element else none
  | _ => validateValue p buf off node

end Fields

section Recursion

variable (p : Platform) (buf : List UInt8)

mutual

/-- `validate` of the parser of a record at an offset. -/
def BinaryMetadata.validate : BinaryMetadata → ℕ → Option Bool
  | .mk _ _ nodes _, off => nodesValidate (nodes.map fun node => node.name) nodes off
termination_by structural m => m

/-- The loop over the fields. -/
def nodesValidate (names : List String) : List Node → ℕ → Option Bool
  | [], _ => some true
  | node :: rest, off =>
    (nodeValidate names node off).bind fun ok => if ok then nodesValidate names rest off
      else some false
termination_by structural nodes => nodes

/-- One field with what it nests. -/
def nodeValidate (names : List String) : Node → ℕ → Option Bool
  | ⟨name, offset, size, type, bigEndian, options, defString, nested, enum, count, bits⟩, off =>
    validateField p names buf off
      ⟨name, offset, size, type, bigEndian, options, defString, nested, enum, count, bits⟩
      (nestedValidate nested) (elementValidate nested)
termination_by structural node => node

/-- A nested record. -/
def nestedValidate : Option BinaryMetadata → ℕ → Option Bool
  | none, _ => none
  | some m, off => m.validate off
termination_by structural nested => nested

/-- A record of an array. -/
def elementValidate : Option BinaryMetadata → ℕ → Option Bool
  | some (.mk _ _ (⟨_, _, _, _, _, _, _, nested, _, _, _⟩ :: _) _), off => nestedValidate nested off
  | _, _ => none
termination_by structural nested => nested

end

end Recursion

/-! ### The specification -/

namespace TypeEnum

/-- A `FLOAT` or `DOUBLE` that is no number. -/
def isNaN (type : TypeEnum) (v : ℕ) : Bool :=
  match type with
  | .float => decide (0x7f800000 < v % 2 ^ 31)
  | .double => decide (0x7ff0000000000000 < v % 2 ^ 63)
  | _ => false

/-- The order of the values of a type. -/
def valueLe (type : TypeEnum) (a b : ℕ) : Bool :=
  if type = .bool then decide (a % 256 ≤ b % 256)
  else !type.isNaN a && !type.isNaN b && !type.valueLt b a

end TypeEnum

/-- A value of a type lies within its bounds. -/
structure Within (options : SimpleOptions) (type : TypeEnum) (v : ℕ) : Prop where
  value : type = .bool → v % 256 ≤ 1
  min : options.hasMin = true → type.valueLe options.minval.toNat v = true
  max : options.hasMax = true → type.valueLe v options.maxval.toNat = true

/-- The bytes of a value of a simple type that lies within its bounds. -/
structure ValueWithin (options : SimpleOptions) (type : TypeEnum) (data : List UInt8) : Prop where
  size : type.sizeofType ≤ data.length ∧ data.length ≤ 8
  within : Within options type (ofLE data)

/-- The bytes of a value of an enumeration. -/
def EnumHolds (enum : Option EnumData) (data : List UInt8) : Prop :=
  data.length ≤ 8 ∧ ∃ e, enum = some e ∧
    ∃ item ∈ e.items, item.value = reinterpretEnum data.length (ofLE data)

/-- A simple field lies within its bounds, and so do the elements of an array of simple elements;
an enumeration field holds a value of its enumeration, and so do the elements of an array of
them. -/
structure FieldValid (p : Platform) (buf : List UInt8) (off : ℕ) (node : Node) : Prop where
  simple : node.type.isSimpleType = true → ∃ data,
    readByNode p buf off node node.size = some data ∧ ValueWithin node.options node.type data
  enum : node.type = .enum → ∃ data,
    readByNode p buf off node node.size = some data ∧ EnumHolds node.enum data
  elements : node.type = .array → ∀ child, node.child = some child →
    child.type.isSimpleType = true → ∀ j < node.count, ∃ data,
      readAt buf off node child j = some data ∧ ValueWithin node.options child.type data
  enums : node.type = .array → ∀ child, node.child = some child → child.type = .enum →
    ∀ j < node.count, ∃ data, readAt buf off node child j = some data ∧ EnumHolds child.enum data

/-- All fields are valid, in the record and in all records inside of it. -/
def BinaryMetadata.AllValid (p : Platform) (buf : List UInt8) (m : BinaryMetadata) (off : ℕ) :
    Prop :=
  ∀ n o, m.Contains (fun node j => j < node.count) off n o →
    ∀ node ∈ n.nodes, FieldValid p buf o node

/-! ### What is looked at -/

/-- The checks that `validate` makes of a field itself. -/
structure FieldPasses (p : Platform) (buf : List UInt8) (off : ℕ) (node : Node) : Prop where
  simple : node.type.isSimpleType = true → ∃ data,
    readByNode p buf off node node.size = some data ∧
      (node.type.sizeofType ≤ data.length ∧ data.length ≤ 8) ∧
        node.options.isInBounds node.type (ofLE data) = true
  enum : node.type = .enum → node.size ≤ 8 ∧ ∃ e, node.enum = some e ∧
    ∃ item ∈ e.items, item.value =
      reinterpretEnum node.size (ofLE ((readByNode p buf off node node.size).getD []))
  elements : node.type = .array → ∀ child, node.child = some child →
    child.type.isSimpleType = true → ∀ j < node.count, ∀ data,
      readAt buf off node child j = some data →
        (child.type.sizeofType ≤ data.length ∧ data.length ≤ 8) ∧
          node.options.isInBounds child.type (ofLE data) = true

/-- What the bounds ask beyond `is_in_bounds`: it does not compare a `BOOL`, and takes a NaN for
equal to everything. -/
structure Compares (options : SimpleOptions) (type : TypeEnum) (v : ℕ) : Prop where
  bool : type = .bool → (options.hasMin = true → options.minval.toNat % 256 ≤ v % 256) ∧
    (options.hasMax = true → v % 256 ≤ options.maxval.toNat % 256)
  min : options.hasMin = true → type.isNaN options.minval.toNat = false ∧ type.isNaN v = false
  max : options.hasMax = true → type.isNaN v = false ∧ type.isNaN options.maxval.toNat = false

/-- What is asked of a field and passed over by `validate`. -/
structure FieldSkipped (p : Platform) (buf : List UInt8) (off : ℕ) (node : Node) : Prop where
  simple : node.type.isSimpleType = true → ∀ data,
    readByNode p buf off node node.size = some data → Compares node.options node.type (ofLE data)
  enum : node.type = .enum → (readByNode p buf off node node.size).isSome = true
  elements : node.type = .array → ∀ child, node.child = some child →
    child.type.isSimpleType = true → ∀ j < node.count, ∃ data,
      readAt buf off node child j = some data ∧ Compares node.options child.type (ofLE data)
  enums : node.type = .array → ∀ child, node.child = some child → child.type = .enum →
    ∀ j < node.count, ∃ data, readAt buf off node child j = some data ∧ EnumHolds child.enum data

/-- The values that `validate` uses of a field itself are there: a simple field is not smaller than
its type and can be read, and no value has more than eight bytes. -/
structure FieldDefined (p : Platform) (buf : List UInt8) (off : ℕ) (node : Node) : Prop where
  simple : node.type.isSimpleType = true →
    (node.type.sizeofType ≤ node.size ∧ node.size ≤ 8) ∧
      (readByNode p buf off node node.size).isSome = true
  enum : node.type = .enum → node.size ≤ 8
  elements : node.type = .array → ∀ child, node.child = some child →
    child.type.isSimpleType = true → child.type.sizeofType ≤ child.size ∧ child.size ≤ 8

namespace BinaryMetadata

/-- The record of `n`, which is at offset `o`, is validated at offset `o'` when the record of `m`
is at offset `off` and is validated at offset `off'`. -/
inductive Visits : BinaryMetadata → ℕ → ℕ → BinaryMetadata → ℕ → ℕ → Prop
  | refl (m : BinaryMetadata) (off off' : ℕ) : Visits m off off' m off off'
  | nested {m n m' : BinaryMetadata} {off off' o o' : ℕ} {node : Node} (hnode : node ∈ m.nodes)
    (htype : node.type = .complex) (hnested : node.nested = some m')
    (h : Visits m' (off + node.offset) (off' + node.offset) n o o') : Visits m off off' n o o'
  | element {m n m' : BinaryMetadata} {off off' o o' j : ℕ} {node child : Node}
    (hnode : node ∈ m.nodes) (htype : node.type = .array) (hchild : node.child = some child)
    (hcomplex : child.type = .complex) (hnested : child.nested = some m') (hj : j < node.count)
    (h : Visits m' (off + node.offset + j * child.size) (node.offset + j * child.size) n o o') :
    Visits m off off' n o o'

/-- If all fields that are validated in place pass, then the fields that are validated elsewhere
pass precisely if those are valid, and what is passed over is valid as well. -/
def LooksAtAll (p : Platform) (buf : List UInt8) (m : BinaryMetadata) (off : ℕ) : Prop :=
  (∀ n o, m.Visits off off n o o → ∀ node ∈ n.nodes, FieldPasses p buf o node) →
    ((∀ n o o', m.Visits off off n o o' → o ≠ o' → ∀ node ∈ n.nodes, FieldPasses p buf o' node) ↔
      (∀ n o, m.Visits off off n o o → ∀ node ∈ n.nodes, FieldSkipped p buf o node) ∧
        ∀ n o o', m.Visits off off n o o' → o ≠ o' → ∀ node ∈ n.nodes, FieldValid p buf o node)

/-- The fields have distinct names, and those of type `COMPLEX` or `ARRAY` nest a metadata. -/
structure Nesting (m : BinaryMetadata) : Prop where
  names : (m.nodes.map fun node => node.name).Nodup
  nests : ∀ node ∈ m.nodes, node.nests = true

end BinaryMetadata

/-! ### One field -/

theorem checkAll_isSome {ι : Type*} {check : ι → Option Bool} {is : List ι}
    (h : ∀ i ∈ is, (check i).isSome = true) : (checkAll check is).isSome = true := by
  induction is with
  | nil => rfl
  | cons i is ih =>
    obtain ⟨hi, his⟩ := List.forall_mem_cons.mp h
    obtain ⟨ok, hok⟩ := Option.isSome_iff_exists.mp hi
    rw [checkAll, hok, Option.bind_some]
    split
    · exact ih his
    · rfl

theorem checkAll_eq_true_iff {ι : Type*} {check : ι → Option Bool} {is : List ι} :
    checkAll check is = some true ↔ ∀ i ∈ is, check i = some true := by
  induction is with
  | nil => exact iff_of_true rfl (List.forall_mem_nil _)
  | cons i is ih =>
    rw [List.forall_mem_cons, ← ih, checkAll]
    cases hcheck : check i with
    | none => simp
    | some ok => cases ok <;> simp

section OneField

variable {p : Platform} {names : List String} {buf data : List UInt8} {off : ℕ} {node child : Node}
  {options : SimpleOptions} {type : TypeEnum} {v : ℕ} {nested element : ℕ → Option Bool}

theorem isInBounds_of_ne_bool (h : type ≠ .bool) :
    options.isInBounds type v = true ↔
      (options.hasMin = true → type.valueLt v options.minval.toNat = false) ∧
        (options.hasMax = true → type.valueLt options.maxval.toNat v = false) := by
  have heq : options.isInBounds type v =
      ((!options.hasMin || !type.valueLt v options.minval.toNat) &&
        (!options.hasMax || !type.valueLt options.maxval.toNat v)) := by
    cases type <;> first | rfl | exact absurd rfl h
  rw [heq, Bool.and_eq_true]
  simp only [Bool.or_eq_true, Bool.not_eq_true', imp_iff_not_or, Bool.not_eq_true]

/-- **The bounds** are what `is_in_bounds` checks, and what it does not compare. -/
theorem within_iff :
    Within options type v ↔
      options.isInBounds type v = true ∧ Compares options type v := by
  by_cases hbool : type = .bool
  · subst hbool
    have hle (a b : ℕ) : TypeEnum.bool.valueLe a b = true ↔ a % 256 ≤ b % 256 := by
      rw [TypeEnum.valueLe, if_pos rfl, decide_eq_true_iff]
    constructor
    · intro h
      refine ⟨decide_eq_true (h.value rfl), fun _ => ⟨fun hmin => ?_, fun hmax => ?_⟩,
        fun _ => ⟨rfl, rfl⟩, fun _ => ⟨rfl, rfl⟩⟩
      · exact (hle _ _).mp (h.min hmin)
      · exact (hle _ _).mp (h.max hmax)
    · rintro ⟨hvalue, h⟩
      refine ⟨fun _ => of_decide_eq_true hvalue, fun hmin => ?_, fun hmax => ?_⟩
      · exact (hle _ _).mpr ((h.bool rfl).1 hmin)
      · exact (hle _ _).mpr ((h.bool rfl).2 hmax)
  · have hle (a b : ℕ) : type.valueLe a b = true ↔
        (type.isNaN a = false ∧ type.isNaN b = false) ∧ type.valueLt b a = false := by
      rw [TypeEnum.valueLe, if_neg hbool]
      simp only [Bool.and_eq_true, Bool.not_eq_true']
    rw [isInBounds_of_ne_bool hbool]
    constructor
    · intro h
      refine ⟨⟨fun hmin => ((hle _ _).mp (h.min hmin)).2,
        fun hmax => ((hle _ _).mp (h.max hmax)).2⟩, fun hb => absurd hb hbool, fun hmin => ?_,
        fun hmax => ?_⟩
      · exact ((hle _ _).mp (h.min hmin)).1
      · exact ((hle _ _).mp (h.max hmax)).1
    · rintro ⟨⟨hmin, hmax⟩, h⟩
      exact ⟨fun hb => absurd hb hbool, fun hm => (hle _ _).mpr ⟨h.min hm, hmin hm⟩,
        fun hm => (hle _ _).mpr ⟨h.max hm, hmax hm⟩⟩

theorem valueWithin_iff :
    ValueWithin options type data ↔
      ((type.sizeofType ≤ data.length ∧ data.length ≤ 8) ∧
        options.isInBounds type (ofLE data) = true) ∧ Compares options type (ofLE data) := by
  rw [and_assoc, ← within_iff]
  exact ⟨fun h => ⟨h.size, h.within⟩, fun h => ⟨h.1, h.2⟩⟩

theorem length_of_readByNode (htype : node.type ≠ .bitmap)
    (h : readByNode p buf off node node.size = some data) : data.length = node.size := by
  rw [readByNode, if_neg (lt_irrefl _), if_neg htype] at h
  obtain ⟨bytes, hread, rfl⟩ := Option.map_eq_some_iff.mp h
  rw [length_convertOrder, length_of_safeRead hread]

/-- **A valid field** passes, and nothing that is passed over is wrong with it. -/
theorem fieldValid_iff :
    FieldValid p buf off node ↔ FieldPasses p buf off node ∧ FieldSkipped p buf off node := by
  constructor
  · intro h
    refine ⟨⟨fun htype => ?_, fun htype => ?_, fun htype child hchild hs j hj data hdata => ?_⟩,
      fun htype data hdata => ?_, fun htype => ?_, fun htype child hchild hs j hj => ?_, h.enums⟩
    · obtain ⟨data, hread, hdata⟩ := h.simple htype
      exact ⟨data, hread, (valueWithin_iff.mp hdata).1⟩
    · obtain ⟨data, hread, hlen, hholds⟩ := h.enum htype
      rw [length_of_readByNode (by simp [htype]) hread] at hlen hholds
      rw [hread]
      exact ⟨hlen, hholds⟩
    · obtain ⟨data', hread, hwithin⟩ := h.elements htype child hchild hs j hj
      obtain rfl := Option.some.inj (hread.symm.trans hdata)
      exact (valueWithin_iff.mp hwithin).1
    · obtain ⟨data', hread, hwithin⟩ := h.simple htype
      obtain rfl := Option.some.inj (hread.symm.trans hdata)
      exact (valueWithin_iff.mp hwithin).2
    · obtain ⟨data, hread, -⟩ := h.enum htype
      rw [hread]
      rfl
    · obtain ⟨data, hread, hdata⟩ := h.elements htype child hchild hs j hj
      exact ⟨data, hread, (valueWithin_iff.mp hdata).2⟩
  · rintro ⟨hpasses, hskipped⟩
    refine ⟨fun htype => ?_, fun htype => ?_, fun htype child hchild hs j hj => ?_,
      hskipped.enums⟩
    · obtain ⟨data, hread, hdata⟩ := hpasses.simple htype
      exact ⟨data, hread, valueWithin_iff.mpr ⟨hdata, hskipped.simple htype data hread⟩⟩
    · obtain ⟨data, hread⟩ := Option.isSome_iff_exists.mp (hskipped.enum htype)
      obtain ⟨hsize, hholds⟩ := hpasses.enum htype
      rw [hread, Option.getD_some] at hholds
      have hlen := length_of_readByNode (by simp [htype]) hread
      rw [← hlen] at hsize hholds
      exact ⟨data, hread, hsize, hholds⟩
    · obtain ⟨data, hread, hcompares⟩ := hskipped.elements htype child hchild hs j hj
      have hdata := hpasses.elements htype child hchild hs j hj data hread
      exact ⟨data, hread, valueWithin_iff.mpr ⟨hdata, hcompares⟩⟩

/-- The field itself passes, if what is inside of it does. -/
theorem validateValue_eq_true_iff (harray : node.type ≠ .array) :
    validateValue p buf off node = some true ↔ FieldPasses p buf off node := by
  rw [validateValue]
  by_cases hsimple : node.type.isSimpleType = true
  · have hbitmap : node.type ≠ .bitmap := by
      rintro h
      simp [h, TypeEnum.isSimpleType] at hsimple
    have henum : node.type ≠ .enum := by
      rintro h
      simp [h, TypeEnum.isSimpleType] at hsimple
    have hpasses : FieldPasses p buf off node ↔ ∃ data,
        readByNode p buf off node node.size = some data ∧
          (node.type.sizeofType ≤ data.length ∧ data.length ≤ 8) ∧
            node.options.isInBounds node.type (ofLE data) = true :=
      ⟨fun h => h.simple hsimple, fun h => ⟨fun _ => h, fun he => absurd he henum,
        fun ha => absurd ha harray⟩⟩
    rw [hpasses]
    by_cases hsize : node.size < node.type.sizeofType
    · rw [if_pos ⟨hsimple, hsize⟩]
      refine ⟨fun h => (by cases h), fun ⟨data, hread, hdata, _⟩ => ?_⟩
      rw [length_of_readByNode hbitmap hread] at hdata
      omega
    · rw [if_neg fun h => hsize h.2, validate, if_pos hsimple]
      by_cases hbig : 8 < node.size
      · rw [if_pos hbig]
        refine ⟨fun h => (by cases h), fun ⟨data, hread, hdata, _⟩ => ?_⟩
        rw [length_of_readByNode hbitmap hread] at hdata
        omega
      · rw [if_neg hbig, Option.map_eq_some_iff]
        refine exists_congr fun data => and_congr_right fun hread => ?_
        have hlen := length_of_readByNode hbitmap hread
        exact (and_iff_right ⟨by omega, by omega⟩).symm
  · rw [if_neg fun h => hsimple h.1, validate, if_neg hsimple]
    by_cases henum : node.type = .enum
    · have hpasses : FieldPasses p buf off node ↔ node.size ≤ 8 ∧ ∃ e, node.enum = some e ∧
          ∃ item ∈ e.items, item.value =
            reinterpretEnum node.size (ofLE ((readByNode p buf off node node.size).getD [])) :=
        ⟨fun h => h.enum henum, fun h => ⟨fun hs => absurd hs hsimple, fun _ => h,
          fun ha => absurd ha harray⟩⟩
      rw [hpasses, if_pos henum]
      by_cases hbig : 8 < node.size
      · rw [if_pos hbig]
        exact ⟨fun h => (by cases h), fun h => absurd h.1 (not_le.mpr hbig)⟩
      · rw [if_neg hbig, and_iff_right (not_lt.mp hbig)]
        cases henumData : node.enum with
        | none => simp
        | some e => simp [EnumData.itemByVal, List.find?_isSome]
    · rw [if_neg henum]
      exact iff_of_true rfl ⟨fun hs => absurd hs hsimple, fun he => absurd he henum,
        fun ha => absurd ha harray⟩

theorem validateElement_eq_true_iff {j : ℕ} :
    validateElement buf off node child j = some true ↔ ∀ data,
      readAt buf off node child j = some data →
        (child.type.sizeofType ≤ data.length ∧ data.length ≤ 8) ∧
          node.options.isInBounds child.type (ofLE data) = true := by
  rw [validateElement]
  cases hread : readAt buf off node child j with
  | none => exact iff_of_true rfl fun _ h => (by cases h)
  | some data =>
    simp only [Option.some.injEq, forall_eq']
    by_cases hsize : 8 < data.length ∨ data.length < child.type.sizeofType
    · refine ⟨fun h => ?_, fun h => ?_⟩
      · simp only [if_pos hsize] at h
        cases h
      · exact absurd h.1 (by omega)
    · simp only [if_neg hsize, Option.some.injEq]
      exact (and_iff_right (by omega)).symm

theorem validateValue_isSome (h : FieldDefined p buf off node) :
    (validateValue p buf off node).isSome = true := by
  rw [validateValue]
  by_cases hsimple : node.type.isSimpleType = true
  · obtain ⟨hsize, hread⟩ := h.simple hsimple
    rw [if_neg (by omega), validate, if_pos hsimple, if_neg (by omega), Option.isSome_map, hread]
  · rw [if_neg fun hs => hsimple hs.1, validate, if_neg hsimple]
    by_cases henum : node.type = .enum
    · have hsize := h.enum henum
      rw [if_pos henum, if_neg (by omega)]
      cases node.enum <;> rfl
    · rw [if_neg henum]
      rfl

theorem validateElement_isSome {j : ℕ}
    (h : child.type.sizeofType ≤ child.size ∧ child.size ≤ 8) :
    (validateElement buf off node child j).isSome = true := by
  rw [validateElement]
  cases hread : readAt buf off node child j with
  | none => rfl
  | some data =>
    obtain ⟨bytes, hbytes, rfl⟩ := Option.map_eq_some_iff.mp hread
    have hlen : (convertOrder child.bigEndian bytes).length = child.size := by
      rw [length_convertOrder, length_of_safeRead hbytes]
    simp only [hlen]
    rw [if_neg (by omega)]
    rfl

end OneField

/-! ### The recursion -/

section Equations

variable (p : Platform) (buf : List UInt8)

theorem elementValidate_eq (node : Node) :
    elementValidate p buf node.nested =
      fun off => node.element.bind fun m => m.validate p buf off := by
  funext off
  obtain ⟨_, _, _, _, _, _, _, nested, _, _, _⟩ := node
  rcases nested with _ | ⟨_, _, _ | ⟨⟨_, _, _, _, _, _, _, inner, _, _, _⟩, rest⟩, _⟩
  · rfl
  · rfl
  · cases inner <;> rfl

theorem nodeValidate_eq (names : List String) (node : Node) (off : ℕ) :
    nodeValidate p buf names node off =
      validateField p names buf off node (fun o => node.nested.bind fun m => m.validate p buf o)
        fun o => node.element.bind fun m => m.validate p buf o := by
  have hnested : nestedValidate p buf node.nested =
      fun o => node.nested.bind fun m => m.validate p buf o := by
    funext o
    cases node.nested <;> rfl
  rw [← hnested, ← elementValidate_eq p buf node]
  cases node
  rfl

theorem nodesValidate_eq (names : List String) (nodes : List Node) (off : ℕ) :
    nodesValidate p buf names nodes off =
      checkAll (fun node => nodeValidate p buf names node off) nodes := by
  induction nodes with
  | nil => rfl
  | cons node rest ih => rw [nodesValidate, ih, checkAll]

theorem BinaryMetadata.validate_eq (m : BinaryMetadata) (off : ℕ) :
    m.validate p buf off =
      checkAll (fun node => nodeValidate p buf (m.nodes.map fun node => node.name) node off)
        m.nodes := by
  obtain ⟨_, _, nodes, _⟩ := m
  exact nodesValidate_eq p buf _ nodes off

end Equations

section Record

variable {p : Platform} {buf : List UInt8} {m m' n : BinaryMetadata} {node child : Node}
  {off off' o o' : ℕ}

/-- The metadata of the records of an array is there. -/
theorem exists_element (hm : layout.Throughout Nesting m) (hnode : node ∈ m.nodes)
    (hchild : node.child = some child) (hcomplex : child.type = .complex) :
    ∃ m', child.nested = some m' ∧ node.element = some m' := by
  obtain ⟨wrapper, hwrapper, hmem⟩ := exists_of_child hchild
  have hnests := (hm.of_nested hnode hwrapper).here.nests child hmem
  rw [Node.nests, Bool.or_eq_true, decide_eq_true_iff] at hnests
  rcases hnests with hother | hsome
  · exact absurd hcomplex hother.1
  · obtain ⟨m', hm'⟩ := Option.isSome_iff_exists.mp hsome
    exact ⟨m', hm', Option.bind_eq_some_iff.mpr ⟨child, hchild, hm'⟩⟩

/-- **An array**: the elements that are values, and the records. -/
theorem validateArray_eq_true_iff (hm : layout.Throughout Nesting m) (hnode : node ∈ m.nodes)
    (htype : node.type = .array) :
    validateArray buf off node (fun o => node.element.bind fun m => m.validate p buf o) =
        some true ↔
      FieldPasses p buf off node ∧ ∀ child, node.child = some child → child.type = .complex →
        ∀ m', child.nested = some m' → ∀ j < node.count,
          m'.validate p buf (node.offset + j * child.size) = some true := by
  have hsome : node.nested.isSome = true := by
    have hnests := hm.here.nests node hnode
    rwa [Node.nests, decide_eq_false (by simp [htype]), Bool.false_or] at hnests
  obtain ⟨wrapper, hwrapper⟩ := Option.isSome_iff_exists.mp hsome
  have hpasses : FieldPasses p buf off node ↔ ∀ child, node.child = some child →
      child.type.isSimpleType = true → ∀ j < node.count, ∀ data,
        readAt buf off node child j = some data →
          (child.type.sizeofType ≤ data.length ∧ data.length ≤ 8) ∧
            node.options.isInBounds child.type (ofLE data) = true := by
    refine ⟨fun h => h.elements htype, fun h => ⟨fun hs => ?_, fun he => ?_, fun _ => h⟩⟩
    · rw [htype] at hs
      simp [TypeEnum.isSimpleType] at hs
    · simp [htype] at he
  rw [hpasses, validateArray, hwrapper]
  cases hchild : node.child with
  | none => exact iff_of_true rfl ⟨fun child hc => (by cases hc), fun child hc => (by cases hc)⟩
  | some child =>
    simp only [Option.some.injEq, forall_eq']
    by_cases hcomplex : child.type = .complex
    · obtain ⟨m', hm', helement⟩ := exists_element hm hnode hchild hcomplex
      have hsimple : child.type.isSimpleType ≠ true := by simp [hcomplex, TypeEnum.isSimpleType]
      simp only [if_pos hcomplex, checkAll_eq_true_iff, List.mem_range, helement,
        Option.bind_some]
      refine ⟨fun h => ⟨fun hs => absurd hs hsimple, fun _ n hn => ?_⟩,
        fun h => h.2 hcomplex m' hm'⟩
      rwa [← Option.some.inj (hm'.symm.trans hn)]
    · simp only [if_neg hcomplex]
      by_cases hsimple : child.type.isSimpleType = true
      · simp only [if_pos hsimple, checkAll_eq_true_iff, List.mem_range,
          validateElement_eq_true_iff]
        exact ⟨fun h => ⟨fun _ => h, fun hc => absurd hc hcomplex⟩, fun h => h.1 hsimple⟩
      · simp only [if_neg hsimple]
        exact iff_of_true trivial ⟨fun hs => absurd hs hsimple, fun hc => absurd hc hcomplex⟩

/-- **One field**: its own checks, and those of what is inside of it. -/
theorem nodeValidate_eq_true_iff (hm : layout.Throughout Nesting m) (hnode : node ∈ m.nodes) :
    nodeValidate p buf (m.nodes.map fun node => node.name) node off = some true ↔
      FieldPasses p buf off node ∧
        (node.type = .complex → ∀ m', node.nested = some m' →
          m'.validate p buf (off + node.offset) = some true) ∧
        (node.type = .array → ∀ child, node.child = some child → child.type = .complex →
          ∀ m', child.nested = some m' → ∀ j < node.count,
            m'.validate p buf (node.offset + j * child.size) = some true) := by
  have hcount : (m.nodes.map fun node => node.name).count node.name = 1 :=
    List.count_eq_one_of_mem hm.here.names (List.mem_map_of_mem hnode)
  rw [nodeValidate_eq]
  by_cases hcomplex : node.type = .complex
  · have hsome : node.nested.isSome = true := by
      have hnests := hm.here.nests node hnode
      rwa [Node.nests, decide_eq_false (by simp [hcomplex]), Bool.false_or] at hnests
    obtain ⟨m', hm'⟩ := Option.isSome_iff_exists.mp hsome
    have hpasses : FieldPasses p buf off node := by
      refine ⟨fun hs => ?_, fun he => ?_, fun ha => ?_⟩
      · rw [hcomplex] at hs
        simp [TypeEnum.isSimpleType] at hs
      · simp [hcomplex] at he
      · simp [hcomplex] at ha
    have hrun : validateField p (m.nodes.map fun node => node.name) buf off node
        (fun o => node.nested.bind fun m => m.validate p buf o)
        (fun o => node.element.bind fun m => m.validate p buf o) =
          m'.validate p buf (off + node.offset) := by
      simp only [validateField, hcomplex, hcount, if_true, hm', Option.bind_some]
    rw [hrun]
    refine ⟨fun h => ⟨hpasses, fun _ n hn => ?_, fun ha => ?_⟩, fun h => h.2.1 hcomplex m' hm'⟩
    · rwa [← Option.some.inj (hm'.symm.trans hn)]
    · simp [hcomplex] at ha
  by_cases harray : node.type = .array
  · have hrun : validateField p (m.nodes.map fun node => node.name) buf off node
        (fun o => node.nested.bind fun m => m.validate p buf o)
        (fun o => node.element.bind fun m => m.validate p buf o) =
          validateArray buf off node fun o => node.element.bind fun m => m.validate p buf o := by
      simp only [validateField, harray, hcount, if_true]
    rw [hrun, validateArray_eq_true_iff hm hnode harray]
    exact and_congr_right fun _ => ⟨fun h => ⟨fun hc => absurd hc hcomplex, fun _ => h⟩,
      fun h => h.2 harray⟩
  · have hrun : validateField p (m.nodes.map fun node => node.name) buf off node
        (fun o => node.nested.bind fun m => m.validate p buf o)
        (fun o => node.element.bind fun m => m.validate p buf o) =
          validateValue p buf off node := by
      rw [validateField]
      split
      · exact absurd ‹_› hcomplex
      · exact absurd ‹_› harray
      · rfl
    rw [hrun, validateValue_eq_true_iff harray]
    exact ⟨fun h => ⟨h, fun hc => absurd hc hcomplex, fun ha => absurd ha harray⟩, fun h => h.1⟩

/-- A statement about all records that are validated, level by level. -/
theorem forall_visits_iff {Q : BinaryMetadata → ℕ → Prop} :
    (∀ n o o', m.Visits off off' n o o' → Q n o') ↔
      Q m off' ∧
        (∀ node ∈ m.nodes, node.type = .complex → ∀ m', node.nested = some m' →
          ∀ n o o', m'.Visits (off + node.offset) (off' + node.offset) n o o' → Q n o') ∧
          ∀ node ∈ m.nodes, node.type = .array → ∀ child, node.child = some child →
            child.type = .complex → ∀ m', child.nested = some m' → ∀ j < node.count,
              ∀ n o o', m'.Visits (off + node.offset + j * child.size)
                (node.offset + j * child.size) n o o' → Q n o' := by
  constructor
  · intro h
    refine ⟨h m off off' (.refl m off off'), ?_, ?_⟩
    · intro node hnode htype m' hm' n o o' hn
      exact h n o o' (.nested hnode htype hm' hn)
    · intro node hnode htype child hchild hcomplex m' hm' j hj n o o' hn
      exact h n o o' (.element hnode htype hchild hcomplex hm' hj hn)
  · rintro ⟨hself, hnested, helement⟩ n o o' h
    cases h with
    | refl => exact hself
    | nested hnode htype hm' hn => exact hnested _ hnode htype _ hm' n o o' hn
    | element hnode htype hchild hcomplex hm' hj hn =>
      exact helement _ hnode htype _ hchild hcomplex _ hm' _ hj n o o' hn

/-- **`validate` returns true** when all fields it comes to pass, each where it is validated. -/
theorem validate_eq_true_iff_visits (p : Platform) (buf : List UInt8) (m : BinaryMetadata) :
    layout.Throughout Nesting m → ∀ off off', m.validate p buf off' = some true ↔
      ∀ n o o', m.Visits off off' n o o' → ∀ node ∈ n.nodes, FieldPasses p buf o' node := by
  induction m using BinaryMetadata.induction with
  | h m ihnested ihelement =>
    intro hm off off'
    rw [BinaryMetadata.validate_eq, checkAll_eq_true_iff,
      forall_visits_iff (Q := fun n o' => ∀ node ∈ n.nodes, FieldPasses p buf o' node)]
    constructor
    · intro h
      have hfields := fun node hnode => (nodeValidate_eq_true_iff hm hnode).mp (h node hnode)
      refine ⟨fun node hnode => (hfields node hnode).1, ?_, ?_⟩
      · intro node hnode htype m' hm'
        exact (ihnested node hnode m' hm' (hm.of_nested hnode hm') _ _).mp
          ((hfields node hnode).2.1 htype m' hm')
      · intro node hnode htype child hchild hcomplex m' hm' j hj
        have helement : node.element = some m' := Option.bind_eq_some_iff.mpr ⟨child, hchild, hm'⟩
        exact (ihelement node hnode m' helement (of_element hm hnode hchild hm') _ _).mp
          ((hfields node hnode).2.2 htype child hchild hcomplex m' hm' j hj)
    · rintro ⟨hself, hnested, helements⟩ node hnode
      refine (nodeValidate_eq_true_iff hm hnode).mpr ⟨hself node hnode, ?_, ?_⟩
      · intro htype m' hm'
        exact (ihnested node hnode m' hm' (hm.of_nested hnode hm') _ _).mpr
          (hnested node hnode htype m' hm')
      · intro htype child hchild hcomplex m' hm' j hj
        have helement : node.element = some m' := Option.bind_eq_some_iff.mpr ⟨child, hchild, hm'⟩
        exact (ihelement node hnode m' helement (of_element hm hnode hchild hm') _ _).mpr
          (helements node hnode htype child hchild hcomplex m' hm' j hj)

/-- A field is validated when its values are there and what is inside of it is validated. -/
theorem nodeValidate_isSome (hm : layout.Throughout Nesting m) (hnode : node ∈ m.nodes)
    (hself : FieldDefined p buf off node)
    (hnested : node.type = .complex → ∀ m', node.nested = some m' →
      (m'.validate p buf (off + node.offset)).isSome = true)
    (helement : node.type = .array → ∀ child, node.child = some child → child.type = .complex →
      ∀ m', child.nested = some m' → ∀ j < node.count,
        (m'.validate p buf (node.offset + j * child.size)).isSome = true) :
    (nodeValidate p buf (m.nodes.map fun node => node.name) node off).isSome = true := by
  have hcount : (m.nodes.map fun node => node.name).count node.name = 1 :=
    List.count_eq_one_of_mem hm.here.names (List.mem_map_of_mem hnode)
  have hnests := hm.here.nests node hnode
  rw [nodeValidate_eq, validateField]
  split
  · have hcomplex : node.type = .complex := ‹_›
    rw [Node.nests, decide_eq_false (by simp [hcomplex]), Bool.false_or] at hnests
    obtain ⟨m', hm'⟩ := Option.isSome_iff_exists.mp hnests
    rw [if_pos hcount, hm', Option.bind_some]
    exact hnested hcomplex m' hm'
  · have harray : node.type = .array := ‹_›
    rw [Node.nests, decide_eq_false (by simp [harray]), Bool.false_or] at hnests
    obtain ⟨wrapper, hwrapper⟩ := Option.isSome_iff_exists.mp hnests
    rw [if_pos hcount, validateArray, hwrapper]
    cases hchild : node.child with
    | none => rfl
    | some child =>
      by_cases hcomplex : child.type = .complex
      · obtain ⟨m', hm', helem⟩ := exists_element hm hnode hchild hcomplex
        simp only [if_pos hcomplex, helem, Option.bind_some]
        exact checkAll_isSome fun j hj =>
          helement harray child hchild hcomplex m' hm' j (List.mem_range.mp hj)
      · simp only [if_neg hcomplex]
        split
        · exact checkAll_isSome fun j _ =>
            validateElement_isSome (hself.elements harray child hchild ‹_›)
        · rfl
  · exact validateValue_isSome hself

/-- **`validate` returns** when the values it uses are there. -/
theorem validate_isSome_of_defined (p : Platform) (buf : List UInt8) (m : BinaryMetadata) :
    layout.Throughout Nesting m → ∀ off off',
      (∀ n o o', m.Visits off off' n o o' → ∀ node ∈ n.nodes, FieldDefined p buf o' node) →
        (m.validate p buf off').isSome = true := by
  induction m using BinaryMetadata.induction with
  | h m ihnested ihelement =>
    intro hm off off' h
    rw [forall_visits_iff (Q := fun n o' => ∀ node ∈ n.nodes, FieldDefined p buf o' node)] at h
    obtain ⟨hself, hnested, helements⟩ := h
    rw [BinaryMetadata.validate_eq]
    refine checkAll_isSome fun node hnode => nodeValidate_isSome hm hnode (hself node hnode) ?_ ?_
    · intro htype m' hm'
      exact ihnested node hnode m' hm' (hm.of_nested hnode hm') _ _
        (hnested node hnode htype m' hm')
    · intro htype child hchild hcomplex m' hm' j hj
      have helement : node.element = some m' := Option.bind_eq_some_iff.mpr ⟨child, hchild, hm'⟩
      exact ihelement node hnode m' helement (of_element hm hnode hchild hm') _ _
        (helements node hnode htype child hchild hcomplex m' hm' j hj)

/-- Each record is validated once, somewhere. -/
theorem contains_iff_exists_visits (off' : ℕ) :
    m.Contains (fun node j => j < node.count) off n o ↔ ∃ o', m.Visits off off' n o o' := by
  constructor
  · intro h
    induction h generalizing off' with
    | refl m off => exact ⟨off', .refl m off off'⟩
    | nested hnode htype hnested h ih =>
      exact (ih _).imp fun o' ho' => .nested hnode htype hnested ho'
    | element hnode htype hchild hcomplex hnested hj h ih =>
      exact (ih _).imp fun o' ho' => .element hnode htype hchild hcomplex hnested hj ho'
  · rintro ⟨o', h⟩
    induction h with
    | refl m off off' => exact .refl m off
    | nested hnode htype hnested h ih => exact .nested hnode htype hnested ih
    | element hnode htype hchild hcomplex hnested hj h ih =>
      exact .element hnode htype hchild hcomplex hnested hj ih

/-- The fields are valid, of the records that are validated in place and of the others. -/
theorem allValid_iff :
    m.AllValid p buf off ↔
      (∀ n o, m.Visits off off n o o → ∀ node ∈ n.nodes, FieldPasses p buf o node) ∧
        (∀ n o, m.Visits off off n o o → ∀ node ∈ n.nodes, FieldSkipped p buf o node) ∧
          ∀ n o o', m.Visits off off n o o' → o ≠ o' → ∀ node ∈ n.nodes,
            FieldValid p buf o node := by
  constructor
  · intro h
    have hvalid (n : BinaryMetadata) (o o' : ℕ) (hn : m.Visits off off n o o') (node : Node)
        (hnode : node ∈ n.nodes) : FieldValid p buf o node :=
      h n o ((contains_iff_exists_visits off).mpr ⟨o', hn⟩) node hnode
    exact ⟨fun n o hn node hnode => (fieldValid_iff.mp (hvalid n o o hn node hnode)).1,
      fun n o hn node hnode => (fieldValid_iff.mp (hvalid n o o hn node hnode)).2,
      fun n o o' hn _ node hnode => hvalid n o o' hn node hnode⟩
  · rintro ⟨hpasses, hskipped, hvalid⟩ n o hn node hnode
    obtain ⟨o', ho'⟩ := (contains_iff_exists_visits off).mp hn
    by_cases hplace : o = o'
    · subst hplace
      exact fieldValid_iff.mpr ⟨hpasses n o ho' node hnode, hskipped n o ho' node hnode⟩
    · exact hvalid n o o' ho' hplace node hnode

end Record

/-! ### Validation of a record -/

/-- `validate` returns true precisely when all fields are valid, and returns if the values that it
uses are there. -/
def BinaryMetadata.ValidatesExactly (p : Platform) (buf : List UInt8) (m : BinaryMetadata)
    (off : ℕ) : Prop :=
  (m.validate p buf off = some true ↔ m.AllValid p buf off) ∧
    ((∀ n o o', m.Visits off off n o o' → ∀ node ∈ n.nodes, FieldDefined p buf o' node) →
      ∃ ok, m.validate p buf off = some ok)

/-- **`validate`** is exact, precisely when it looks at all that is asked. -/
theorem BinaryMetadata.validates_iff (p : Platform) (buf : List UInt8) {m : BinaryMetadata}
    (hm : layout.Throughout Nesting m) (off : ℕ) :
    m.ValidatesExactly p buf off ↔ m.LooksAtAll p buf off := by
  have hreturns := fun h => Option.isSome_iff_exists.mp
    (validate_isSome_of_defined p buf m hm off off h)
  have hsplit : (∀ n o o', m.Visits off off n o o' → ∀ node ∈ n.nodes, FieldPasses p buf o' node) ↔
      (∀ n o, m.Visits off off n o o → ∀ node ∈ n.nodes, FieldPasses p buf o node) ∧
        ∀ n o o', m.Visits off off n o o' → o ≠ o' → ∀ node ∈ n.nodes,
          FieldPasses p buf o' node := by
    refine ⟨fun h => ⟨fun n o => h n o o, fun n o o' hn _ => h n o o' hn⟩, fun h n o o' hn => ?_⟩
    by_cases hplace : o = o'
    · subst hplace
      exact h.1 n o hn
    · exact h.2 n o o' hn hplace
  rw [ValidatesExactly, and_iff_left hreturns, validate_eq_true_iff_visits p buf m hm off off,
    hsplit, allValid_iff, LooksAtAll]
  constructor
  · intro h hpasses
    have hrest := h
    rw [and_iff_right hpasses, and_iff_right hpasses] at hrest
    exact hrest
  · exact fun h => and_congr_right h

/-- A byte of at most three, and an array of two such bytes. -/
def boundedCalls : List BuilderCall :=
  let options := { SimpleOptions.reset with hasMax := true, maxval := 3 }
  [.put "b" 1 .uint8 options, .array "v" 1 .uint8 2 options none]

/-- In a buffer of three bytes. -/
theorem BinaryMetadata.validates_iff_flat :
    ∃ m, Transition.run (fun m call => BuilderCall.step (fun _ => none) m call) (empty false)
      boundedCalls = some m ∧
        (m.ValidatesExactly ⟨fun _ _ => 0⟩ [1, 2, 3] 0 ↔
          m.LooksAtAll ⟨fun _ _ => 0⟩ [1, 2, 3] 0) := by
  refine ⟨_, rfl, BinaryMetadata.validates_iff _ _ (.intro ⟨by decide, by decide⟩ ?_) 0⟩
  intro node hnode n hn
  rcases hnode with _ | ⟨_, _ | ⟨_, hnil⟩⟩
  · cases hn
  · obtain rfl := Option.some.inj hn
    exact .of_flat ⟨by decide, by decide⟩ (by decide)
  · cases hnil

/-- An array of two values of an enumeration that has only the value 7. -/
def enumRow : BinaryMetadata :=
  (empty false).arrayEnum "v" 2 1 .reset ⟨"e", [⟨"seven", 7⟩]⟩

/-- Two zeroes are taken for values of the enumeration. -/
theorem BinaryMetadata.not_validatesExactly :
    enumRow.validate ⟨fun _ _ => 0⟩ [0, 0] 0 = some true ∧
      ¬ enumRow.ValidatesExactly ⟨fun _ _ => 0⟩ [0, 0] 0 := by
  refine ⟨rfl, fun h => ?_⟩
  have hvalid := h.1.mp rfl enumRow 0 (.refl _ 0) _ List.mem_cons_self
  obtain ⟨data, hread, -, e, he, item, hitem, hval⟩ :=
    hvalid.enums rfl _ rfl rfl 0 (by decide)
  obtain rfl := Option.some.inj hread
  obtain rfl := Option.some.inj he
  obtain rfl := List.mem_singleton.mp hitem
  revert hval
  decide

end UtilityFramework
