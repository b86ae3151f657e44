import UtilityFramework.Lib.LocalSteps
import UtilityFramework.Parsers.ParserJson
import UtilityFramework.Parsers.RecordTree

/-!
# Default values

`set_default_values` of a parser: a switch over the type of each field, which writes the default
of a simple or enumeration field, the text of a string and the elements of an array of simple
elements, goes on in nested records, and fills an array of records by copying its first element.
The parser and its nested parsers share one buffer.

An array of enumeration values is never written, since the type that is compared with `ENUM` is
that of the array; an array of records without elements is a null pointer; a text that does not
fit in its field, and the bytes of a field of the other byte order, are not what is read later.
Where the fields of a tree lie apart, nothing else goes wrong
(`BinaryMetadata.sets_defaults_iff`).
-/

namespace UtilityFramework

open Bytes BinaryMetadata LocalSteps

/-! ### The code -/

/-- The names of the fields that have nested parsers. -/
def nestedNames (nodes : List Node) : List String :=
  (nodes.filter fun node => node.type = .complex ∨ node.type = .array).map fun node => node.name

namespace Node

/-- The first bytes of `raw_defval`. -/
def defaultBytes (node : Node) (n : ℕ) : List UInt8 := toLE n node.options.defval.toNat

/-- The characters of `string_default`. -/
def defaultText (node : Node) : List UInt8 := Text.untilNul (Text.toBytes node.defString)

end Node

section Fields

variable (p : Platform) (nodes : List Node) (node : Node) (off : ℕ) (buf : List UInt8)

/-- `write_simple_default`; `none` if it reads behind the eight bytes of the default. -/
def writeSimpleDefault : Option (List UInt8) :=
  if node.options.hasDef then
    if 8 < node.size then none
    else some ((writeByNode p buf off node (node.defaultBytes node.size)).getD buf)
  else some buf

/-- `write_string_default`, which writes by the name of the field. -/
def writeStringDefault : Option (List UInt8) :=
  if node.defaultText = [] then some buf
  else
    match nodes.find? fun n => n.name = node.name with
    | none => some buf
    | some found => some ((writeString p buf off found node.defaultText).getD buf)

/-- The loop over the elements of an array of simple elements. -/
def writeElementDefaults (child : Node) : List UInt8 :=
  (List.range node.count).foldl
    (fun b j => writeAt b off node child j (node.defaultBytes child.size)) buf

/-- The loop that copies the first element of an array of records to the other ones. -/
def copyFirstElement (child : Node) : List UInt8 :=
  let bytes := (safeRead buf child.size (off + node.offset)).getD (zeroes child.size)
  (List.range (node.count - 1)).foldl
    (fun b j => (safeWrite b bytes (off + node.offset + (j + 1) * child.size)).getD b) buf

/-- An array in `set_default_values`, given what it does with a record of the array at an
offset. -/
def setArrayDefault (element : ℕ → List UInt8 → Option (List UInt8)) : Option (List UInt8) :=
  match node.nested, node.child with
  | none, _ => none
  | some _, none => some buf
  | some _, some child =>
    if node.options.hasDef = true ∧ (child.type.isSimpleType = true ∨ node.type = .enum) then
      if 8 < child.size ∧ 0 < node.count then none
      else some (writeElementDefaults node off buf child)
    else if child.type = .complex then
      if node.count = 0 then none
      else (element (off + node.offset) buf).map fun b => copyFirstElement node off b child
    else some buf

/-- One field in `set_default_values`, given what it does with a nested record and with a record
of an array. A nested parser that is not there is a null pointer. -/
def setFieldDefault (nested element : ℕ → List UInt8 → Option (List UInt8)) :
    Option (List UInt8) :=
  if node.type.isSimpleType = true ∨ node.type = .enum then writeSimpleDefault p node off buf
  else
    match node.type with
    | .string => writeStringDefault p nodes node off buf
    | .complex =>
      if (nestedNames nodes).count node.name = 1 then nested (off + node.offset) buf else none
    | .array =>
      if (nestedNames nodes).count node.name = 1 then setArrayDefault node off buf element
      else none
    | _ => some buf

end Fields

section Recursion

variable (p : Platform)

mutual

/-- `set_default_values` of the parser of a record at an offset; `none` if it uses a null pointer
or is undefined. -/
def BinaryMetadata.setDefaultValues :
    BinaryMetadata → ℕ → List UInt8 → Option (List UInt8)
  | .mk _ _ nodes _, off, buf => nodesSetDefaults nodes nodes off buf
termination_by structural m => m

/-- The loop over the fields. -/
def nodesSetDefaults (all : List Node) : List Node → ℕ → List UInt8 → Option (List UInt8)
  | [], _, buf => some buf
  | node :: rest, off, buf =>
    (nodeSetDefault all node off buf).bind fun b => nodesSetDefaults all rest off b
termination_by structural nodes => nodes

/-- One field with what it nests. -/
def nodeSetDefault (all : List Node) : Node → ℕ → List UInt8 → Option (List UInt8)
  | ⟨name, offset, size, type, bigEndian, options, defString, nested, enum, count, bits⟩, off,
    buf =>
    setFieldDefault p all
      ⟨name, offset, size, type, bigEndian, options, defString, nested, enum, count, bits⟩ off buf
      (nestedSetDefaults nested) (elementSetDefaults nested)
termination_by structural node => node

/-- A nested record. -/
def nestedSetDefaults : Option BinaryMetadata → ℕ → List UInt8 → Option (List UInt8)
  | none, _, _ => none
  | some m, off, buf => m.setDefaultValues off buf
termination_by structural nested => nested

/-- A record of an array. -/
def elementSetDefaults : Option BinaryMetadata → ℕ → List UInt8 → Option (List UInt8)
  | some (.mk _ _ (⟨_, _, _, _, _, _, _, nested, _, _, _⟩ :: _) _), off, buf =>
    nestedSetDefaults nested off buf
  | _, _, _ => none
termination_by structural nested => nested

end

end Recursion

/-! ### The specification -/

/-- The field holds the default it is declared with: a simple or enumeration field, a string, or
every element of an array of simple or enumeration elements. -/
structure HoldsDefault (p : Platform) (buf : List UInt8) (off : ℕ) (node : Node) : Prop where
  simple : node.type.isSimpleType = true ∨ node.type = .enum → node.options.hasDef = true →
    readByNode p buf off node node.size = some (node.defaultBytes node.size)
  string : node.type = .string → node.defaultText ≠ [] →
    ∃ s, readByNode p buf off node node.size = some s ∧ Text.untilNul s = node.defaultText
  array : node.type = .array → node.options.hasDef = true → ∀ child, node.child = some child →
    child.type.isSimpleType = true ∨ child.type = .enum → ∀ j < node.count,
      readAt buf off node child j = some (node.defaultBytes child.size)

/-- What makes a field hold its default afterwards: bytes that are not reordered when they are
read, a text that fits, an array of simple elements, or a default that is already there. -/
structure SettlesDefault (buf : List UInt8) (off : ℕ) (node : Node) : Prop where
  simple : node.type.isSimpleType = true ∨ node.type = .enum → node.options.hasDef = true →
    node.size ≤ 8 ∧ convertOrder node.bigEndian (node.defaultBytes node.size) =
      node.defaultBytes node.size
  text : node.type = .string → node.defaultText ≠ [] →
    node.defaultText.length + 1 ≤ node.size →
      Text.untilNul (convertOrder node.bigEndian (node.defaultText ++ 0 ::
        (slice buf (off + node.offset) node.size).drop (node.defaultText.length + 1))) =
          node.defaultText
  longText : node.type = .string → node.defaultText ≠ [] →
    node.size < node.defaultText.length + 1 →
      Text.untilNul (convertOrder node.bigEndian (slice buf (off + node.offset) node.size)) =
        node.defaultText
  nested : node.type = .complex ∨ node.type = .array → node.nested.isSome = true
  elements : node.type = .array → node.options.hasDef = true → ∀ child, node.child = some child →
    child.type.isSimpleType = true → 0 < node.count →
      child.size ≤ 8 ∧ convertOrder child.bigEndian (node.defaultBytes child.size) =
        node.defaultBytes child.size
  enums : node.type = .array → node.options.hasDef = true → ∀ child, node.child = some child →
    child.type = .enum → ∀ j < node.count, convertOrder child.bigEndian
      (slice buf (off + node.offset + j * child.size) child.size) = node.defaultBytes child.size
  records : node.type = .array → ∀ child, node.child = some child → child.type = .complex →
    0 < node.count ∧ child.nested.isSome = true

namespace BinaryMetadata

/-- All fields with a default hold it, in the record and in all records inside of it. -/
def DefaultsHeld (p : Platform) (buf : List UInt8) (m : BinaryMetadata) (off : ℕ) : Prop :=
  ∀ n o, Contains (fun node j => j < node.count) m off n o →
    ∀ node ∈ n.nodes, HoldsDefault p buf o node

/-- All fields with a default come to hold it; of an array of records the first one counts. -/
def DefaultsSettle (buf : List UInt8) (m : BinaryMetadata) (off : ℕ) : Prop :=
  ∀ n o, Contains (fun node j => j = 0 ∧ 0 < node.count) m off n o → ∀ node ∈ n.nodes,
    SettlesDefault buf o node

/-- The fields without a default are unchanged, in the record and in all records inside of it that
are not in an array. -/
def OthersKept (buf buf' : List UInt8) (m : BinaryMetadata) (off : ℕ) : Prop :=
  ∀ n o, Contains (fun _ _ => False) m off n o → ∀ node ∈ n.nodes,
    node.options.hasDef = false → node.defaultText = [] → node.type ≠ .complex →
      (node.type = .array → ∀ child, node.child = some child → child.type ≠ .complex) →
        SameOn (window (o + node.offset) (extent node)) buf buf'

end BinaryMetadata

/-! ### One field -/

section OneField

variable {p : Platform} {m : BinaryMetadata} {node child : Node} {off len : ℕ} {b buf : List UInt8}

/-- The field and what is inside of it hold their defaults. -/
def FieldHeld (p : Platform) (buf : List UInt8) (off : ℕ) (node : Node) : Prop :=
  HoldsDefault p buf off node ∧
    (node.type = .complex → ∀ m', node.nested = some m' →
      m'.DefaultsHeld p buf (off + node.offset)) ∧
    (node.type = .array → ∀ child, node.child = some child → child.type = .complex →
      ∀ m', child.nested = some m' → ∀ j < node.count,
        m'.DefaultsHeld p buf (off + node.offset + j * child.size))

/-- The field and what is inside of it come to hold their defaults. -/
def FieldSettles (buf : List UInt8) (off : ℕ) (node : Node) : Prop :=
  SettlesDefault buf off node ∧
    (node.type = .complex → ∀ m', node.nested = some m' →
      m'.DefaultsSettle buf (off + node.offset)) ∧
    (node.type = .array → ∀ child, node.child = some child → child.type = .complex →
      ∀ m', child.nested = some m' → ∀ j, j = 0 ∧ 0 < node.count →
        m'.DefaultsSettle buf (off + node.offset + j * child.size))

theorem defaultsHeld_iff :
    m.DefaultsHeld p buf off ↔ ∀ node ∈ m.nodes, FieldHeld p buf off node := by
  rw [DefaultsHeld, forall_contains_iff]
  exact ⟨fun h node hnode => ⟨h.1 node hnode, h.2.1 node hnode, h.2.2 node hnode⟩,
    fun h => ⟨fun node hnode => (h node hnode).1, fun node hnode => (h node hnode).2.1,
      fun node hnode => (h node hnode).2.2⟩⟩

theorem defaultsSettle_iff :
    m.DefaultsSettle buf off ↔ ∀ node ∈ m.nodes, FieldSettles buf off node := by
  rw [DefaultsSettle, forall_contains_iff]
  exact ⟨fun h node hnode => ⟨h.1 node hnode, h.2.1 node hnode, h.2.2 node hnode⟩,
    fun h => ⟨fun node hnode => (h node hnode).1, fun node hnode => (h node hnode).2.1,
      fun node hnode => (h node hnode).2.2⟩⟩

/-! ### What each kind of field asks -/

theorem ne_of_value (hvalue : node.type.isSimpleType = true ∨ node.type = .enum) :
    node.type ≠ .string ∧ node.type ≠ .complex ∧ node.type ≠ .array ∧ node.type ≠ .bitmap := by
  refine ⟨?_, ?_, ?_, ?_⟩ <;> rintro h <;> simp [h, TypeEnum.isSimpleType] at hvalue

theorem not_value (h : node.type = .string ∨ node.type = .complex ∨ node.type = .array) :
    ¬ (node.type.isSimpleType = true ∨ node.type = .enum) := by
  rcases h with h | h | h <;> simp [h, TypeEnum.isSimpleType]

theorem fieldHeld_value_iff (hvalue : node.type.isSimpleType = true ∨ node.type = .enum) :
    FieldHeld p b off node ↔ (node.options.hasDef = true →
      readByNode p b off node node.size = some (node.defaultBytes node.size)) := by
  obtain ⟨hstring, hcomplex, harray, -⟩ := ne_of_value hvalue
  exact ⟨fun h => h.1.simple hvalue,
    fun h => ⟨⟨fun _ => h, fun hs => absurd hs hstring, fun ha => absurd ha harray⟩,
      fun hc => absurd hc hcomplex, fun ha => absurd ha harray⟩⟩

theorem fieldSettles_value_iff (hvalue : node.type.isSimpleType = true ∨ node.type = .enum) :
    FieldSettles b off node ↔ (node.options.hasDef = true → node.size ≤ 8 ∧
      convertOrder node.bigEndian (node.defaultBytes node.size) = node.defaultBytes node.size) := by
  obtain ⟨hstring, hcomplex, harray, -⟩ := ne_of_value hvalue
  exact ⟨fun h => h.1.simple hvalue,
    fun h => ⟨⟨fun _ => h, fun hs => absurd hs hstring, fun hs => absurd hs hstring,
      fun hn => absurd hn (not_or.mpr ⟨hcomplex, harray⟩), fun ha => absurd ha harray,
      fun ha => absurd ha harray, fun ha => absurd ha harray⟩,
      fun hc => absurd hc hcomplex, fun ha => absurd ha harray⟩⟩

theorem fieldHeld_string_iff (htype : node.type = .string) :
    FieldHeld p b off node ↔ (node.defaultText ≠ [] → ∃ s,
      readByNode p b off node node.size = some s ∧ Text.untilNul s = node.defaultText) := by
  have hvalue := not_value (Or.inl htype)
  have hcomplex : node.type ≠ .complex := by simp [htype]
  have harray : node.type ≠ .array := by simp [htype]
  exact ⟨fun h => h.1.string htype,
    fun h => ⟨⟨fun hv => absurd hv hvalue, fun _ => h, fun ha => absurd ha harray⟩,
      fun hc => absurd hc hcomplex, fun ha => absurd ha harray⟩⟩

theorem fieldSettles_string_iff (htype : node.type = .string) :
    FieldSettles b off node ↔ (node.defaultText ≠ [] →
      (node.defaultText.length + 1 ≤ node.size →
        Text.untilNul (convertOrder node.bigEndian (node.defaultText ++ 0 ::
          (slice b (off + node.offset) node.size).drop (node.defaultText.length + 1))) =
            node.defaultText) ∧
      (node.size < node.defaultText.length + 1 →
        Text.untilNul (convertOrder node.bigEndian (slice b (off + node.offset) node.size)) =
          node.defaultText)) := by
  have hvalue := not_value (Or.inl htype)
  have hcomplex : node.type ≠ .complex := by simp [htype]
  have harray : node.type ≠ .array := by simp [htype]
  exact ⟨fun h htext => ⟨h.1.text htype htext, h.1.longText htype htext⟩,
    fun h => ⟨⟨fun hv => absurd hv hvalue, fun _ htext => (h htext).1, fun _ htext => (h htext).2,
      fun hn => absurd hn (not_or.mpr ⟨hcomplex, harray⟩), fun ha => absurd ha harray,
      fun ha => absurd ha harray, fun ha => absurd ha harray⟩,
      fun hc => absurd hc hcomplex, fun ha => absurd ha harray⟩⟩

theorem fieldHeld_complex_iff (htype : node.type = .complex) :
    FieldHeld p b off node ↔ ∀ m', node.nested = some m' →
      m'.DefaultsHeld p b (off + node.offset) := by
  have hvalue := not_value (Or.inr (Or.inl htype))
  have hstring : node.type ≠ .string := by simp [htype]
  have harray : node.type ≠ .array := by simp [htype]
  exact ⟨fun h => h.2.1 htype,
    fun h => ⟨⟨fun hv => absurd hv hvalue, fun hs => absurd hs hstring, fun ha => absurd ha harray⟩,
      fun _ => h, fun ha => absurd ha harray⟩⟩

theorem fieldSettles_complex_iff (htype : node.type = .complex) :
    FieldSettles b off node ↔ node.nested.isSome = true ∧ ∀ m', node.nested = some m' →
      m'.DefaultsSettle b (off + node.offset) := by
  have hvalue := not_value (Or.inr (Or.inl htype))
  have hstring : node.type ≠ .string := by simp [htype]
  have harray : node.type ≠ .array := by simp [htype]
  exact ⟨fun h => ⟨h.1.nested (Or.inl htype), h.2.1 htype⟩,
    fun h => ⟨⟨fun hv => absurd hv hvalue, fun hs => absurd hs hstring,
      fun hs => absurd hs hstring, fun _ => h.1, fun ha => absurd ha harray,
      fun ha => absurd ha harray, fun ha => absurd ha harray⟩, fun _ => h.2,
      fun ha => absurd ha harray⟩⟩

theorem fieldHeld_array_iff (htype : node.type = .array) :
    FieldHeld p b off node ↔ ∀ child, node.child = some child →
      (node.options.hasDef = true → child.type.isSimpleType = true ∨ child.type = .enum →
        ∀ j < node.count, readAt b off node child j = some (node.defaultBytes child.size)) ∧
      (child.type = .complex → ∀ m', child.nested = some m' → ∀ j < node.count,
        m'.DefaultsHeld p b (off + node.offset + j * child.size)) := by
  have hvalue := not_value (Or.inr (Or.inr htype))
  have hstring : node.type ≠ .string := by simp [htype]
  have hcomplex : node.type ≠ .complex := by simp [htype]
  constructor
  · exact fun h child hchild => ⟨fun hdef => h.1.array htype hdef child hchild,
      fun hc => h.2.2 htype child hchild hc⟩
  · exact fun h => ⟨⟨fun hv => absurd hv hvalue, fun hs => absurd hs hstring,
      fun _ hdef child hchild => (h child hchild).1 hdef⟩, fun hc => absurd hc hcomplex,
      fun _ child hchild => (h child hchild).2⟩

theorem fieldSettles_array_iff (htype : node.type = .array) :
    FieldSettles b off node ↔ node.nested.isSome = true ∧ ∀ child, node.child = some child →
      (node.options.hasDef = true → child.type.isSimpleType = true → 0 < node.count →
        child.size ≤ 8 ∧ convertOrder child.bigEndian (node.defaultBytes child.size) =
          node.defaultBytes child.size) ∧
      (node.options.hasDef = true → child.type = .enum → ∀ j < node.count,
        convertOrder child.bigEndian (slice b (off + node.offset + j * child.size) child.size) =
          node.defaultBytes child.size) ∧
      (child.type = .complex → 0 < node.count ∧ ∃ m', child.nested = some m' ∧
        m'.DefaultsSettle b (off + node.offset)) := by
  have hvalue := not_value (Or.inr (Or.inr htype))
  have hstring : node.type ≠ .string := by simp [htype]
  have hcomplex : node.type ≠ .complex := by simp [htype]
  constructor
  · refine fun h => ⟨h.1.nested (Or.inr htype), fun child hchild =>
      ⟨fun hdef => h.1.elements htype hdef child hchild,
        fun hdef => h.1.enums htype hdef child hchild, fun hc => ?_⟩⟩
    obtain ⟨hcount, hsome⟩ := h.1.records htype child hchild hc
    obtain ⟨m', hm'⟩ := Option.isSome_iff_exists.mp hsome
    have hfirst := h.2.2 htype child hchild hc m' hm' 0 ⟨rfl, hcount⟩
    rw [Nat.zero_mul, Nat.add_zero] at hfirst
    exact ⟨hcount, m', hm', hfirst⟩
  · rintro ⟨hnested, h⟩
    refine ⟨⟨fun hv => absurd hv hvalue, fun hs => absurd hs hstring, fun hs => absurd hs hstring,
      fun _ => hnested, fun _ hdef child hchild => (h child hchild).1 hdef,
      fun _ hdef child hchild => (h child hchild).2.1 hdef, fun _ child hchild hc => ?_⟩,
      fun hc => absurd hc hcomplex, fun _ child hchild hc n hn j hj => ?_⟩
    · obtain ⟨hcount, m', hm', -⟩ := (h child hchild).2.2 hc
      exact ⟨hcount, Option.isSome_iff_exists.mpr ⟨m', hm'⟩⟩
    · obtain ⟨-, m', hm', hfirst⟩ := (h child hchild).2.2 hc
      obtain rfl := Option.some.inj (hm'.symm.trans hn)
      rwa [hj.1, Nat.zero_mul, Nat.add_zero]

/-! ### Values, strings and nested records -/

@[simp] theorem length_defaultBytes (node : Node) (n : ℕ) : (node.defaultBytes n).length = n :=
  length_toLE n _

/-- A write to a field that is no bit field, in a buffer that has it. -/
theorem writeByNode_eq {data : List UInt8} (htype : node.type ≠ .bitmap)
    (hsize : data.length ≤ node.size) (hfit : off + node.offset + node.size ≤ b.length) :
    writeByNode p b off node data = some (blit b (off + node.offset) data) := by
  rw [writeByNode, if_neg (not_lt.mpr hsize), if_neg htype, safeWrite, if_pos (by omega)]

/-- A simple or enumeration field. -/
theorem localStep_simple (hvalue : node.type.isSimpleType = true ∨ node.type = .enum)
    (hin : off + node.offset + node.size ≤ len) :
    LocalStep len (window (off + node.offset) node.size)
      (fun b => writeSimpleDefault p node off b) (fun b => FieldSettles b off node)
      fun b => FieldHeld p b off node := by
  have hbitmap := (ne_of_value hvalue).2.2.2
  have hheld (b : List UInt8) (hb : len ≤ b.length) : FieldHeld p b off node ↔
      (node.options.hasDef = true →
        convertOrder node.bigEndian (slice b (off + node.offset) node.size) =
          node.defaultBytes node.size) := by
    rw [fieldHeld_value_iff hvalue, readByNode_eq hbitmap (by omega), Option.some.injEq]
  by_cases hdef : node.options.hasDef = true
  · have hP : ∀ b, len ≤ b.length →
        (convertOrder node.bigEndian (slice b (off + node.offset) node.size) =
          node.defaultBytes node.size ↔ FieldHeld p b off node) :=
      fun b hb => (hheld b hb).trans (imp_iff_right hdef) |>.symm
    by_cases hsize : 8 < node.size
    · refine ((LocalStep.fail len (off + node.offset) node.size (fun w =>
        convertOrder node.bigEndian w = node.defaultBytes node.size)).of_eq fun b _ => ?_).congr
        (fun b _ => ?_) hP
      · rw [writeSimpleDefault, if_pos hdef, if_pos hsize]
      · rw [fieldSettles_value_iff hvalue]
        exact ⟨False.elim, fun h => absurd (h hdef).1 (not_le.mpr hsize)⟩
    · have hlen := length_defaultBytes node node.size
      refine ((LocalStep.write hlen.le hin (fun w =>
        convertOrder node.bigEndian w = node.defaultBytes node.size)).of_eq fun b _ => ?_).congr
        (fun b _ => ?_) hP
      · rw [writeSimpleDefault, if_pos hdef, if_neg hsize,
          writeByNode_eq hbitmap hlen.le (by omega)]
        rfl
      · rw [fieldSettles_value_iff hvalue, List.drop_eq_nil_of_le, List.append_nil]
        · exact ⟨fun h _ => ⟨not_lt.mp hsize, h⟩, fun h => (h hdef).2⟩
        · rw [hlen, length_slice (by omega)]
  · refine ((LocalStep.skip len (off + node.offset) node.size fun _ => True).of_eq
      fun b _ => ?_).congr (fun b _ => iff_of_true trivial ?_)
        fun b hb => iff_of_true trivial ?_
    · rw [writeSimpleDefault, if_neg hdef]
    · exact (fieldSettles_value_iff hvalue).mpr fun h => absurd h hdef
    · exact (hheld b hb).mpr fun h => absurd h hdef

/-- A string. -/
theorem localStep_string (htype : node.type = .string) (hnames : m.queryNode node.name = some node)
    (hin : off + node.offset + node.size ≤ len) :
    LocalStep len (window (off + node.offset) node.size)
      (fun b => writeStringDefault p m.nodes node off b) (fun b => FieldSettles b off node)
      fun b => FieldHeld p b off node := by
  have hbitmap : node.type ≠ .bitmap := by simp [htype]
  have hheld (b : List UInt8) (hb : len ≤ b.length) : FieldHeld p b off node ↔
      (node.defaultText ≠ [] → Text.untilNul (convertOrder node.bigEndian
        (slice b (off + node.offset) node.size)) = node.defaultText) := by
    rw [fieldHeld_string_iff htype, readByNode_eq hbitmap (by omega)]
    simp only [Option.some.injEq, exists_eq_left']
  have hfind : m.nodes.find? (fun n => n.name = node.name) = some node := hnames
  by_cases htext : node.defaultText = []
  · refine ((LocalStep.skip len (off + node.offset) node.size fun _ => True).of_eq
      fun b _ => ?_).congr (fun b _ => iff_of_true trivial ?_)
        fun b hb => iff_of_true trivial ?_
    · rw [writeStringDefault, if_pos htext]
    · exact (fieldSettles_string_iff htype).mpr fun h => absurd htext h
    · exact (hheld b hb).mpr fun h => absurd htext h
  · have hP : ∀ b, len ≤ b.length →
        (Text.untilNul (convertOrder node.bigEndian (slice b (off + node.offset) node.size)) =
          node.defaultText ↔ FieldHeld p b off node) :=
      fun b hb => (hheld b hb).trans (imp_iff_right htext) |>.symm
    have hrun (b : List UInt8) : writeStringDefault p m.nodes node off b =
        some ((writeString p b off node node.defaultText).getD b) := by
      rw [writeStringDefault, if_neg htext, hfind]
    by_cases hsize : node.size < node.defaultText.length + 1
    · refine ((LocalStep.skip len (off + node.offset) node.size fun w =>
        Text.untilNul (convertOrder node.bigEndian w) = node.defaultText).of_eq
          fun b _ => ?_).congr (fun b _ => ?_) hP
      · rw [hrun, writeString, if_neg (not_not_intro htype), if_pos hsize]
        rfl
      · rw [fieldSettles_string_iff htype]
        exact ⟨fun h _ => ⟨fun hle => absurd hsize (not_lt.mpr hle), fun _ => h⟩,
          fun h => (h htext).2 hsize⟩
    · have hlen : (node.defaultText ++ [0]).length = node.defaultText.length + 1 :=
        List.length_append
      have hle : (node.defaultText ++ [0]).length ≤ node.size := by omega
      refine ((LocalStep.write hle hin fun w =>
        Text.untilNul (convertOrder node.bigEndian w) = node.defaultText).of_eq
          fun b _ => ?_).congr (fun b _ => ?_) hP
      · rw [hrun, writeString, if_neg (not_not_intro htype), if_neg hsize,
          writeByNode_eq hbitmap (by omega) (by omega)]
        rfl
      · rw [fieldSettles_string_iff htype, hlen, List.append_assoc, List.singleton_append]
        exact ⟨fun h _ => ⟨fun _ => h, fun hlt => absurd hlt hsize⟩,
          fun h => (h htext).1 (not_lt.mp hsize)⟩

/-- A nested record; without metadata it is a null pointer. -/
theorem localStep_complex (htype : node.type = .complex) {f : List UInt8 → Option (List UInt8)}
    {n : ℕ} (hnone : node.nested = none → f = fun _ => none)
    (h : ∀ m', node.nested = some m' → LocalStep len (window (off + node.offset) n) f
      (fun b => m'.DefaultsSettle b (off + node.offset))
      fun b => m'.DefaultsHeld p b (off + node.offset)) :
    LocalStep len (window (off + node.offset) n) f (fun b => FieldSettles b off node)
      fun b => FieldHeld p b off node := by
  cases hnested : node.nested with
  | none =>
    rw [hnone hnested]
    refine (LocalStep.fail len (off + node.offset) n fun _ => True).congr (fun b _ => ?_)
      fun b _ => iff_of_true trivial ?_
    · rw [fieldSettles_complex_iff htype, hnested]
      exact ⟨False.elim, fun hsettle => Bool.noConfusion hsettle.1⟩
    · rw [fieldHeld_complex_iff htype, hnested]
      exact fun m' hm' => by cases hm'
  | some m' =>
    refine (h m' hnested).congr (fun b _ => ?_) fun b _ => ?_
    · rw [fieldSettles_complex_iff htype, hnested]
      simp only [Option.isSome_some, Option.some.injEq, forall_eq', true_and]
    · rw [fieldHeld_complex_iff htype, hnested]
      simp only [Option.some.injEq, forall_eq']

end OneField

/-! ### Arrays -/

section Arrays

variable {p : Platform} {m m' : BinaryMetadata} {node child : Node} {off len : ℕ}
  {b : List UInt8} {element : ℕ → List UInt8 → Option (List UInt8)}

theorem fieldHeld_elements_iff (htype : node.type = .array) (hchild : node.child = some child) :
    FieldHeld p b off node ↔
      (node.options.hasDef = true → child.type.isSimpleType = true ∨ child.type = .enum →
        ∀ j < node.count, readAt b off node child j = some (node.defaultBytes child.size)) ∧
      (child.type = .complex → ∀ m', child.nested = some m' → ∀ j < node.count,
        m'.DefaultsHeld p b (off + node.offset + j * child.size)) := by
  rw [fieldHeld_array_iff htype, hchild]
  simp only [Option.some.injEq, forall_eq']

theorem fieldSettles_elements_iff (htype : node.type = .array)
    (hchild : node.child = some child) :
    FieldSettles b off node ↔
      (node.options.hasDef = true → child.type.isSimpleType = true → 0 < node.count →
        child.size ≤ 8 ∧ convertOrder child.bigEndian (node.defaultBytes child.size) =
          node.defaultBytes child.size) ∧
      (node.options.hasDef = true → child.type = .enum → ∀ j < node.count,
        convertOrder child.bigEndian (slice b (off + node.offset + j * child.size) child.size) =
          node.defaultBytes child.size) ∧
      (child.type = .complex → 0 < node.count ∧ ∃ m', child.nested = some m' ∧
        m'.DefaultsSettle b (off + node.offset)) := by
  obtain ⟨wrapper, hwrapper, -⟩ := exists_of_child hchild
  rw [fieldSettles_array_iff htype, hchild, hwrapper]
  simp only [Option.isSome_some, Option.some.injEq, forall_eq', true_and]

theorem setArrayDefault_eq (htype : node.type = .array) (hchild : node.child = some child) :
    setArrayDefault node off b element =
      if node.options.hasDef = true ∧ child.type.isSimpleType = true then
        if 8 < child.size ∧ 0 < node.count then none
        else some (writeElementDefaults node off b child)
      else if child.type = .complex then
        if node.count = 0 then none
        else (element (off + node.offset) b).map fun b => copyFirstElement node off b child
      else some b := by
  obtain ⟨wrapper, hwrapper, -⟩ := exists_of_child hchild
  have henum : (child.type.isSimpleType = true ∨ node.type = .enum) ↔
      child.type.isSimpleType = true := by simp [htype]
  rw [setArrayDefault, hwrapper, hchild]
  simp only [henum]

/-- Writes at places in the buffer. -/
theorem foldl_safeWrite {src : List UInt8} {place : ℕ → ℕ} {is : List ℕ}
    (h : ∀ j ∈ is, place j + src.length ≤ b.length) :
    is.foldl (fun b j => (safeWrite b src (place j)).getD b) b =
      is.foldl (fun b j => blit b (place j) src) b := by
  induction is generalizing b with
  | nil => rfl
  | cons j is ih =>
    have hj := h j List.mem_cons_self
    rw [List.foldl_cons, List.foldl_cons, safeWrite, if_pos (by omega), Option.getD_some]
    refine ih fun i hi => ?_
    rw [length_blit hj]
    exact h i (List.mem_cons_of_mem j hi)

theorem writeElementDefaults_eq (hfit : off + node.offset + node.count * child.size ≤ b.length) :
    writeElementDefaults node off b child =
      (List.range node.count).foldl (fun b j =>
        blit b (off + node.offset + j * child.size) (node.defaultBytes child.size)) b := by
  refine foldl_safeWrite fun j hj => ?_
  have hle : j * child.size + child.size ≤ node.count * child.size :=
    row_le (List.mem_range.mp hj)
  rw [length_defaultBytes]
  omega

theorem copyFirstElement_eq (hcount : 0 < node.count)
    (hfit : off + node.offset + node.count * child.size ≤ b.length) :
    copyFirstElement node off b child =
      LocalStep.copies (off + node.offset) child.size (node.count - 1) b := by
  have hfirst : 0 * child.size + child.size ≤ node.count * child.size := row_le hcount
  have hread : safeRead b child.size (off + node.offset) =
      some (slice b (off + node.offset) child.size) := by
    rw [safeRead, if_pos (by omega)]
  rw [copyFirstElement, hread]
  refine foldl_safeWrite fun j hj => ?_
  have hj' : j + 1 < node.count := by
    have := List.mem_range.mp hj
    omega
  have hle : (j + 1) * child.size + child.size ≤ node.count * child.size := row_le hj'
  rw [Option.getD_some, length_slice (by omega)]
  omega

/-- An array of simple elements with a default. -/
theorem localStep_values (htype : node.type = .array) (hchild : node.child = some child)
    (hdef : node.options.hasDef = true) (hsimple : child.type.isSimpleType = true)
    (hin : off + node.offset + node.count * child.size ≤ len) :
    LocalStep len (window (off + node.offset) (node.count * child.size))
      (fun b => setArrayDefault node off b element) (fun b => FieldSettles b off node)
      fun b => FieldHeld p b off node := by
  have hcomplex : child.type ≠ .complex := by
    rintro h
    simp [h, TypeEnum.isSimpleType] at hsimple
  have henum : child.type ≠ .enum := by
    rintro h
    simp [h, TypeEnum.isSimpleType] at hsimple
  have hP (b : List UInt8) (hb : len ≤ b.length) :
      (∀ j < node.count, convertOrder child.bigEndian
        (slice b (off + node.offset + j * child.size) child.size) =
          node.defaultBytes child.size) ↔ FieldHeld p b off node := by
    rw [fieldHeld_elements_iff htype hchild]
    refine ⟨fun h => ⟨fun _ _ j hj => ?_, fun hc => absurd hc hcomplex⟩, fun h j hj => ?_⟩
    · have := row_le (n := child.size) hj
      rw [readAt_eq (by omega), h j hj]
    · have := row_le (n := child.size) hj
      have hread := h.1 hdef (Or.inl hsimple) j hj
      rw [readAt_eq (by omega)] at hread
      exact Option.some.inj hread
  have hC (b : List UInt8) : FieldSettles b off node ↔
      (0 < node.count → child.size ≤ 8 ∧ convertOrder child.bigEndian
        (node.defaultBytes child.size) = node.defaultBytes child.size) := by
    rw [fieldSettles_elements_iff htype hchild]
    exact ⟨fun h => h.1 hdef hsimple, fun h => ⟨fun _ _ => h, fun _ he => absurd he henum,
      fun hc => absurd hc hcomplex⟩⟩
  by_cases hbig : 8 < child.size ∧ 0 < node.count
  · refine ((LocalStep.fail len (off + node.offset) (node.count * child.size) fun w =>
      ∀ j < node.count, convertOrder child.bigEndian (slice w (j * child.size) child.size) =
        node.defaultBytes child.size).of_eq fun b _ => ?_).congr (fun b _ => ?_) fun b hb => ?_
    · rw [setArrayDefault_eq htype hchild, if_pos ⟨hdef, hsimple⟩, if_pos hbig]
    · rw [hC]
      exact ⟨False.elim, fun h => absurd (h hbig.2).1 (not_le.mpr hbig.1)⟩
    · rw [← hP b hb]
      refine forall₂_congr fun j hj => ?_
      rw [slice_slice b (row_le hj)]
  · refine ((LocalStep.fill (length_defaultBytes node child.size) hin fun w =>
      convertOrder child.bigEndian w = node.defaultBytes child.size).of_eq fun b hb => ?_).congr
        (fun b _ => ?_) hP
    · rw [setArrayDefault_eq htype hchild, if_pos ⟨hdef, hsimple⟩, if_neg hbig,
        writeElementDefaults_eq (by omega)]
    · rw [hC]
      refine ⟨fun h hcount => ⟨by omega, h 0 hcount⟩, fun h j hj => (h (by omega)).2⟩

/-- An array that is neither of simple elements with a default nor of records is left as it is. -/
theorem localStep_others (htype : node.type = .array) (hchild : node.child = some child)
    (hvalues : ¬ (node.options.hasDef = true ∧ child.type.isSimpleType = true))
    (hcomplex : child.type ≠ .complex)
    (hin : off + node.offset + node.count * child.size ≤ len) :
    LocalStep len (window (off + node.offset) (node.count * child.size))
      (fun b => setArrayDefault node off b element) (fun b => FieldSettles b off node)
      fun b => FieldHeld p b off node := by
  refine ((LocalStep.skip len (off + node.offset) (node.count * child.size) fun w =>
    node.options.hasDef = true → child.type = .enum → ∀ j < node.count,
      convertOrder child.bigEndian (slice w (j * child.size) child.size) =
        node.defaultBytes child.size).of_eq fun b _ => ?_).congr (fun b _ => ?_) fun b hb => ?_
  · rw [setArrayDefault_eq htype hchild, if_neg hvalues, if_neg hcomplex]
  · rw [fieldSettles_elements_iff htype hchild]
    constructor
    · refine fun h => ⟨fun hdef hsimple => absurd ⟨hdef, hsimple⟩ hvalues,
        fun hdef henum j hj => ?_, fun hc => absurd hc hcomplex⟩
      rw [← slice_slice b (row_le hj)]
      exact h hdef henum j hj
    · intro h hdef henum j hj
      rw [slice_slice b (row_le hj)]
      exact h.2.1 hdef henum j hj
  · rw [fieldHeld_elements_iff htype hchild]
    constructor
    · refine fun h => ⟨fun hdef hvalue j hj => ?_, fun hc => absurd hc hcomplex⟩
      have := row_le (n := child.size) hj
      rcases hvalue with hsimple | henum
      · exact absurd ⟨hdef, hsimple⟩ hvalues
      · rw [readAt_eq (by omega), ← slice_slice b (row_le hj), h hdef henum j hj]
    · intro h hdef henum j hj
      have := row_le (n := child.size) hj
      have hread := h.1 hdef (Or.inr henum) j hj
      rw [readAt_eq (by omega)] at hread
      rw [slice_slice b (row_le hj)]
      exact Option.some.inj hread

theorem holdsDefault_slice_iff {n o : ℕ} (hm : m.Built) (hs : m.Spaced) (hnode : node ∈ m.nodes)
    (hin : o + m.size ≤ n) (hfit : off + n ≤ b.length) :
    HoldsDefault p (slice b off n) o node ↔ HoldsDefault p b (off + o) node := by
  have hlen : (slice b off n).length = n := length_slice hfit
  have hinside := hs.inside node hnode
  have hfield (harray : node.type ≠ .array) (hbitmap : node.type ≠ .bitmap) :
      readByNode p (slice b off n) o node node.size = readByNode p b (off + o) node node.size := by
    have hsize := hm.extent_of_not_array hnode harray
    rw [readByNode_eq hbitmap (by omega), readByNode_eq hbitmap (by omega),
      slice_slice b (by omega), Nat.add_assoc]
  have hsimple (htype : node.type.isSimpleType = true ∨ node.type = .enum) :
      readByNode p (slice b off n) o node node.size = readByNode p b (off + o) node node.size := by
    refine hfield ?_ ?_
    · rintro h
      simp [h, TypeEnum.isSimpleType] at htype
    · rintro h
      simp [h, TypeEnum.isSimpleType] at htype
  have hstring (htype : node.type = .string) :
      readByNode p (slice b off n) o node node.size = readByNode p b (off + o) node node.size :=
    hfield (by simp [htype]) (by simp [htype])
  have helement (htype : node.type = .array) (child : Node) (hchild : node.child = some child)
      (j : ℕ) (hj : j < node.count) :
      readAt (slice b off n) o node child j = readAt b (off + o) node child j := by
    have hle := hs.element_le hnode htype hchild hj
    rw [readAt_eq (by omega), readAt_eq (by omega), slice_slice b (by omega)]
    simp only [Nat.add_assoc]
  constructor
  · intro h
    refine ⟨fun htype hdef => ?_, fun htype htext => ?_,
      fun htype hdef child hchild hvalue j hj => ?_⟩
    · rw [← hsimple htype]
      exact h.simple htype hdef
    · rw [← hstring htype]
      exact h.string htype htext
    · rw [← helement htype child hchild j hj]
      exact h.array htype hdef child hchild hvalue j hj
  · intro h
    refine ⟨fun htype hdef => ?_, fun htype htext => ?_,
      fun htype hdef child hchild hvalue j hj => ?_⟩
    · rw [hsimple htype]
      exact h.simple htype hdef
    · rw [hstring htype]
      exact h.string htype htext
    · rw [helement htype child hchild j hj]
      exact h.array htype hdef child hchild hvalue j hj

theorem defaultsHeld_slice_iff (hm : m.Built) (hs : layout.Throughout Spaced m)
    (hfit : off + m.size ≤ b.length) :
    m.DefaultsHeld p b off ↔ m.DefaultsHeld p (slice b off m.size) 0 :=
  forall_contains_slice_iff (fun _ _ => id) hm hs fun _ _ hbuilt hspaced hin _ hnode =>
    holdsDefault_slice_iff hbuilt hspaced hnode hin hfit

/-- An array of records: it is settled when the first is. -/
theorem fieldSettles_records_iff (htype : node.type = .array) (hchild : node.child = some child)
    (hcomplex : child.type = .complex) (hnested : child.nested = some m') :
    FieldSettles b off node ↔ 0 < node.count ∧ m'.DefaultsSettle b (off + node.offset) := by
  rw [fieldSettles_elements_iff htype hchild]
  constructor
  · intro hsettle
    obtain ⟨hcount, n, hn, hfirst⟩ := hsettle.2.2 hcomplex
    rw [Option.some.inj (hnested.symm.trans hn)]
    exact ⟨hcount, hfirst⟩
  · refine fun ⟨hcount, hfirst⟩ => ⟨fun _ hsimple => ?_, fun _ henum => ?_,
      fun _ => ⟨hcount, m', hnested, hfirst⟩⟩
    · simp [hcomplex, TypeEnum.isSimpleType] at hsimple
    · simp [hcomplex] at henum

/-- An array of records: each holds its defaults, wherever it lies. -/
theorem fieldHeld_records_iff (htype : node.type = .array) (hchild : node.child = some child)
    (hcomplex : child.type = .complex) (hnested : child.nested = some m')
    (hsize : m'.size = child.size) (hm : m'.Built) (hs : layout.Throughout Spaced m')
    (hin : off + node.offset + node.count * child.size ≤ b.length) :
    FieldHeld p b off node ↔ ∀ j < node.count,
      m'.DefaultsHeld p (slice b (off + node.offset + j * child.size) child.size) 0 := by
  rw [fieldHeld_elements_iff htype hchild]
  have hmove (j : ℕ) (hj : j < node.count) :
      m'.DefaultsHeld p b (off + node.offset + j * child.size) ↔
        m'.DefaultsHeld p (slice b (off + node.offset + j * child.size) child.size) 0 := by
    have := row_le (n := child.size) hj
    rw [defaultsHeld_slice_iff hm hs (by omega), hsize]
  constructor
  · exact fun hheld j hj => (hmove j hj).mp (hheld.2 hcomplex m' hnested j hj)
  · refine fun hheld => ⟨fun _ hvalue => ?_, fun _ n hn j hj => ?_⟩
    · simp [hcomplex, TypeEnum.isSimpleType] at hvalue
    · obtain rfl := Option.some.inj (hnested.symm.trans hn)
      exact (hmove j hj).mpr (hheld j hj)

/-- An array of records. -/
theorem localStep_records (htype : node.type = .array) (hchild : node.child = some child)
    (hcomplex : child.type = .complex) (hnested : child.nested = some m')
    (hsize : m'.size = child.size) (hm : m'.Built) (hs : layout.Throughout Spaced m')
    (hin : off + node.offset + node.count * child.size ≤ len)
    (h : 0 < node.count → LocalStep len (window (off + node.offset) child.size)
      (element (off + node.offset)) (fun b => m'.DefaultsSettle b (off + node.offset))
      fun b => m'.DefaultsHeld p b (off + node.offset)) :
    LocalStep len (window (off + node.offset) (node.count * child.size))
      (fun b => setArrayDefault node off b element) (fun b => FieldSettles b off node)
      fun b => FieldHeld p b off node := by
  have hvalues : ¬ (node.options.hasDef = true ∧ child.type.isSimpleType = true) := by
    simp [hcomplex, TypeEnum.isSimpleType]
  have hC (b : List UInt8) : FieldSettles b off node ↔ _ :=
    fieldSettles_records_iff htype hchild hcomplex hnested
  have hP (b : List UInt8) (hb : len ≤ b.length) : FieldHeld p b off node ↔ _ :=
    fieldHeld_records_iff htype hchild hcomplex hnested hsize hm hs (hin.trans hb)
  rcases Nat.eq_zero_or_pos node.count with hzero | hcount
  · rw [hzero, Nat.zero_mul]
    refine ((LocalStep.fail len (off + node.offset) 0 fun _ => True).of_eq fun b _ => ?_).congr
      (fun b _ => ?_) fun b hb => ?_
    · rw [setArrayDefault_eq htype hchild, if_neg hvalues, if_pos hcomplex, if_pos hzero]
    · rw [hC]
      exact ⟨False.elim, fun hsettle => absurd hsettle.1 (by omega)⟩
    · rw [hP b hb]
      exact iff_of_true trivial fun j hj => absurd hj (by omega)
  · obtain ⟨count, hsucc⟩ : ∃ count, node.count = count + 1 := ⟨node.count - 1, by omega⟩
    have hstep := (h hcount).congr (fun _ _ => Iff.rfl) fun b hb => by
      have := row_le (n := child.size) hcount
      rw [defaultsHeld_slice_iff hm hs (by omega), hsize]
    have hcopies : LocalStep len (window (off + node.offset) ((count + 1) * child.size))
        (fun b => (element (off + node.offset) b).map
          (LocalStep.copies (off + node.offset) child.size count))
        (fun b => m'.DefaultsSettle b (off + node.offset)) fun b => ∀ j < count + 1,
          m'.DefaultsHeld p (slice b (off + node.offset + j * child.size) child.size) 0 :=
      LocalStep.withCopies (P := fun w => m'.DefaultsHeld p w 0) hstep (hsucc ▸ hin)
    rw [← hsucc] at hcopies
    refine (hcopies.of_eq fun b hb => ?_).congr (fun b _ => ?_) fun b hb => (hP b hb).symm
    · rw [setArrayDefault_eq htype hchild, if_neg hvalues, if_pos hcomplex, if_neg (by omega)]
      cases hf : element (off + node.offset) b with
      | none => rfl
      | some b₁ =>
        have hlen := (hstep.frame b b₁ hb hf).1
        rw [Option.map_some, Option.map_some, copyFirstElement_eq hcount (by omega), hsucc]
        rfl
    · rw [hC]
      exact (and_iff_right hcount).symm

end Arrays

/-! ### The recursion -/

namespace BinaryMetadata

theorem setDefaultValues_eq (p : Platform) (m : BinaryMetadata) (off : ℕ) (b : List UInt8) :
    m.setDefaultValues p off b = nodesSetDefaults p m.nodes m.nodes off b := by
  cases m
  rfl

end BinaryMetadata

theorem nodesSetDefaults_eq (p : Platform) (all nodes : List Node) (off : ℕ) :
    nodesSetDefaults p all nodes off =
      runAll (fun node b => nodeSetDefault p all node off b) nodes := by
  induction nodes with
  | nil => rfl
  | cons node rest ih =>
    funext b
    rw [nodesSetDefaults, ih, runAll]

theorem elementSetDefaults_eq (p : Platform) (node : Node) :
    elementSetDefaults p node.nested =
      fun off b => node.element.bind fun m => m.setDefaultValues p off b := by
  funext off b
  obtain ⟨_, _, _, _, _, _, _, nested, _, _, _⟩ := node
  rcases nested with _ | ⟨_, _, _ | ⟨⟨_, _, _, _, _, _, _, inner, _, _, _⟩, rest⟩, _⟩
  · rfl
  · rfl
  · cases inner <;> rfl

theorem nodeSetDefault_eq (p : Platform) (all : List Node) (node : Node) (off : ℕ)
    (b : List UInt8) :
    nodeSetDefault p all node off b =
      setFieldDefault p all node off b
        (fun o b => node.nested.bind fun m => m.setDefaultValues p o b)
        fun o b => node.element.bind fun m => m.setDefaultValues p o b := by
  have hnested : nestedSetDefaults p node.nested =
      fun o b => node.nested.bind fun m => m.setDefaultValues p o b := by
    funext o b
    cases node.nested <;> rfl
  rw [← hnested, ← elementSetDefaults_eq p node]
  cases node
  rfl

section Record

variable {p : Platform} {m m' : BinaryMetadata} {node child : Node} {off len : ℕ}
  {b b' : List UInt8}

/-- With distinct names each nested parser is found by its name. -/
theorem count_nestedNames (hnames : (m.nodes.map fun node => node.name).Nodup)
    (hnode : node ∈ m.nodes) (htype : node.type = .complex ∨ node.type = .array) :
    (nestedNames m.nodes).count node.name = 1 := by
  refine List.count_eq_one_of_mem ?_ ?_
  · exact List.Nodup.sublist
      (List.Sublist.map (fun node : Node => node.name) List.filter_sublist) hnames
  · exact List.mem_map_of_mem (List.mem_filter.mpr ⟨hnode, decide_eq_true htype⟩)

/-- The bytes of a field that the switch may write. -/
def fieldWidth (node : Node) : ℕ := if node.type = .bitmap then 0 else extent node

/-- A field that has no default of its own and nests none. -/
def Idle (node : Node) : Prop :=
  ¬ (node.type.isSimpleType = true ∨ node.type = .enum) ∧ node.type ≠ .string ∧
    node.type ≠ .complex ∧ node.type ≠ .array

theorem localStep_idle (h : Idle node) :
    LocalStep len (window (off + node.offset) (fieldWidth node)) some
      (fun b => FieldSettles b off node) fun b => FieldHeld p b off node := by
  obtain ⟨hvalue, hstring, hcomplex, harray⟩ := h
  refine (LocalStep.skip len (off + node.offset) (fieldWidth node) fun _ => True).congr
    (fun b _ => iff_of_true trivial ?_) fun b _ => iff_of_true trivial ?_
  · exact ⟨⟨fun ht => absurd ht hvalue, fun ht => absurd ht hstring, fun ht => absurd ht hstring,
      fun ht => absurd ht (not_or.mpr ⟨hcomplex, harray⟩), fun ht => absurd ht harray,
      fun ht => absurd ht harray, fun ht => absurd ht harray⟩, fun ht => absurd ht hcomplex,
      fun ht => absurd ht harray⟩
  · exact ⟨⟨fun ht => absurd ht hvalue, fun ht => absurd ht hstring, fun ht => absurd ht harray⟩,
      fun ht => absurd ht hcomplex, fun ht => absurd ht harray⟩

/-- An array without elements' metadata; without any it is a null pointer. -/
theorem localStep_noElements {element : ℕ → List UInt8 → Option (List UInt8)} {n : ℕ}
    (htype : node.type = .array) (hchild : node.child = none) :
    LocalStep len (window (off + node.offset) n) (fun b => setArrayDefault node off b element)
      (fun b => FieldSettles b off node) fun b => FieldHeld p b off node := by
  have hheld (b : List UInt8) : FieldHeld p b off node := by
    rw [fieldHeld_array_iff htype, hchild]
    exact fun child hc => by cases hc
  have hsettles (b : List UInt8) : FieldSettles b off node ↔ node.nested.isSome = true := by
    rw [fieldSettles_array_iff htype, hchild]
    exact and_iff_left fun child hc => by cases hc
  cases hnested : node.nested with
  | none =>
    refine ((LocalStep.fail len (off + node.offset) n fun _ => True).of_eq fun b _ => ?_).congr
      (fun b _ => ?_) fun b _ => iff_of_true trivial (hheld b)
    · rw [setArrayDefault, hnested]
    · rw [hsettles, hnested]
      exact ⟨False.elim, fun h => Bool.noConfusion h⟩
  | some wrapper =>
    refine ((LocalStep.skip len (off + node.offset) n fun _ => True).of_eq fun b _ => ?_).congr
      (fun b _ => iff_of_true trivial ?_) fun b _ => iff_of_true trivial (hheld b)
    · rw [setArrayDefault, hnested, hchild]
    · rw [hsettles, hnested]
      rfl

/-- An array. -/
theorem localStep_array (element : ℕ → List UInt8 → Option (List UInt8))
    (htype : node.type = .array) (hm : m.Built) (hs : layout.Throughout Spaced m)
    (hnode : node ∈ m.nodes) (hin : off + node.offset + extent node ≤ len)
    (hnone : node.element = none → element (off + node.offset) = fun _ => none)
    (h : ∀ m', node.element = some m' → off + node.offset + m'.size ≤ len →
      LocalStep len (window (off + node.offset) m'.size) (element (off + node.offset))
        (fun b => m'.DefaultsSettle b (off + node.offset))
        fun b => m'.DefaultsHeld p b (off + node.offset)) :
    LocalStep len (window (off + node.offset) (extent node))
      (fun b => setArrayDefault node off b element) (fun b => FieldSettles b off node)
      fun b => FieldHeld p b off node := by
  cases hchild : node.child with
  | none => exact localStep_noElements htype hchild
  | some child =>
    have hrow : node.count * child.size ≤ extent node := by
      rw [extent, Nat.mul_comm]
      exact Nat.mul_le_mul_right _ (hs.here.elements node hnode htype child hchild)
    have hwindow : window (off + node.offset) (node.count * child.size) ⊆
        window (off + node.offset) (extent node) := window_subset le_rfl (by omega)
    by_cases hvalues : node.options.hasDef = true ∧ child.type.isSimpleType = true
    · exact (localStep_values htype hchild hvalues.1 hvalues.2 (by omega)).widen hwindow
    by_cases hcomplex : child.type = .complex
    · cases hnested : child.nested with
      | none =>
        -- the record is a null pointer, unless there is no element at all
        have helement := hnone (by rw [Node.element, hchild, Option.bind_some, hnested])
        refine ((LocalStep.fail len (off + node.offset) (extent node) fun _ => True).of_eq
          fun b _ => ?_).congr (fun b _ => ?_) fun b _ => iff_of_true trivial ?_
        · rw [setArrayDefault_eq htype hchild, if_neg hvalues, if_pos hcomplex, helement]
          split_ifs <;> rfl
        · rw [fieldSettles_elements_iff htype hchild]
          refine ⟨False.elim, fun hsettle => ?_⟩
          obtain ⟨-, m', hm', -⟩ := hsettle.2.2 hcomplex
          cases hnested.symm.trans hm'
        · rw [fieldHeld_elements_iff htype hchild]
          refine ⟨fun _ hvalue => ?_, fun _ m' hm' => ?_⟩
          · simp [hcomplex, TypeEnum.isSimpleType] at hvalue
          · cases hnested.symm.trans hm'
      | some m' =>
        have hsize := hm.size_of_element hnode hchild hcomplex hnested
        have helement : node.element = some m' := by
          rw [Node.element, hchild, Option.bind_some, hnested]
        refine (localStep_records htype hchild hcomplex hnested hsize
          (hm.of_element hnode hchild hnested) (of_element hs hnode hchild hnested) (by omega)
          fun hcount => ?_).widen hwindow
        have := row_le (n := child.size) hcount
        rw [← hsize]
        exact h m' helement (by omega)
    · exact (localStep_others htype hchild hvalues hcomplex (by omega)).widen hwindow

/-- A field with what is inside of it. -/
theorem localStep_field (hm : m.Built) (hs : layout.Throughout Spaced m) (hnode : node ∈ m.nodes)
    (hin : off + m.size ≤ len)
    (hnested : ∀ m', node.nested = some m' → off + node.offset + m'.size ≤ len →
      LocalStep len (window (off + node.offset) m'.size)
        (m'.setDefaultValues p (off + node.offset))
        (fun b => m'.DefaultsSettle b (off + node.offset))
        fun b => m'.DefaultsHeld p b (off + node.offset))
    (helement : ∀ m', node.element = some m' → off + node.offset + m'.size ≤ len →
      LocalStep len (window (off + node.offset) m'.size)
        (m'.setDefaultValues p (off + node.offset))
        (fun b => m'.DefaultsSettle b (off + node.offset))
        fun b => m'.DefaultsHeld p b (off + node.offset)) :
    LocalStep len (window (off + node.offset) (fieldWidth node))
      (nodeSetDefault p m.nodes node off) (fun b => FieldSettles b off node)
      fun b => FieldHeld p b off node := by
  have hinside := hs.here.inside node hnode
  have hwidth (h : node.type ≠ .bitmap) : fieldWidth node = extent node := if_neg h
  by_cases hvalue : node.type.isSimpleType = true ∨ node.type = .enum
  · have hsize := hm.extent_of_not_array hnode
      (by rintro h; simp [h, TypeEnum.isSimpleType] at hvalue)
    rw [hwidth (by rintro h; simp [h, TypeEnum.isSimpleType] at hvalue), hsize]
    refine (localStep_simple hvalue (by omega)).of_eq fun b _ => ?_
    rw [nodeSetDefault_eq, setFieldDefault, if_pos hvalue]
  have hskip (b : List UInt8) : nodeSetDefault p m.nodes node off b = _ :=
    (nodeSetDefault_eq p m.nodes node off b).trans (if_neg hvalue)
  by_cases hstring : node.type = .string
  · have hsize := hm.extent_of_not_array hnode (by simp [hstring])
    rw [hwidth (by simp [hstring]), hsize]
    refine (localStep_string hstring (queryNode_of_mem hs.here.names hnode) (by omega)).of_eq
      fun b _ => ?_
    rw [hskip, hstring]
  by_cases hcomplex : node.type = .complex
  · rw [hwidth (by simp [hcomplex])]
    have hcount := count_nestedNames hs.here.names hnode (Or.inl hcomplex)
    have hrun (b : List UInt8) : nodeSetDefault p m.nodes node off b =
        node.nested.bind fun m' => m'.setDefaultValues p (off + node.offset) b := by
      rw [hskip, hcomplex]
      exact if_pos hcount
    refine localStep_complex hcomplex (fun hn => ?_) fun m' hm' => ?_
    · funext b
      rw [hrun, hn, Option.bind_none]
    · have hsize := hm.size_of_nested hnode hcomplex hm'
      rw [← hsize]
      refine (hnested m' hm' (by omega)).of_eq fun b _ => ?_
      rw [hrun, hm', Option.bind_some]
  by_cases harray : node.type = .array
  · rw [hwidth (by simp [harray])]
    have hcount := count_nestedNames hs.here.names hnode (Or.inr harray)
    refine (localStep_array (fun o b => node.element.bind fun m =>
      m.setDefaultValues p o b) harray hm hs hnode (by omega) (fun hnone => ?_)
      fun m' hm' hfit => ?_).of_eq fun b _ => ?_
    · simp only [hnone, Option.bind_none]
    · simp only [hm', Option.bind_some]
      exact helement m' hm' hfit
    · rw [hskip, harray]
      simp only [hcount, if_true]
  · refine (localStep_idle ⟨hvalue, hstring, hcomplex, harray⟩).of_eq fun b _ => ?_
    rw [hskip]
    split
    · exact absurd ‹_› hstring
    · exact absurd ‹_› hcomplex
    · exact absurd ‹_› harray
    · rfl

/-- The fields of a record lie apart, as far as the switch may write them. -/
theorem disjoint_fields {a c : Node} (hs : m.Spaced) (ha : a ∈ m.nodes) (hc : c ∈ m.nodes)
    (hne : a.name ≠ c.name) :
    Disjoint (window (off + a.offset) (fieldWidth a)) (window (off + c.offset) (extent c)) := by
  rw [fieldWidth]
  split_ifs with hbitmap
  · refine Set.disjoint_left.mpr fun i hi => ?_
    exact absurd hi.2 (not_lt.mpr hi.1)
  · have hapart := hs.apart a ha c hc hne fun h => absurd h hbitmap
    exact disjoint_window (by omega)

theorem window_fieldWidth_subset (node : Node) (pos : ℕ) :
    window pos (fieldWidth node) ⊆ window pos (extent node) := by
  rw [fieldWidth]
  split_ifs
  · exact window_subset le_rfl (by omega)
  · exact subset_rfl

/-- **A record** with all that is inside of it. -/
theorem localStep_setDefaultValues (p : Platform) (m : BinaryMetadata) :
    m.Built → layout.Throughout Spaced m → ∀ off len, off + m.size ≤ len →
      LocalStep len (window off m.size) (m.setDefaultValues p off) (fun b => m.DefaultsSettle b off)
        fun b => m.DefaultsHeld p b off := by
  induction m using BinaryMetadata.induction with
  | h m ihnested ihelement =>
    intro hm hs off len hin
    have hfields : ∀ node ∈ m.nodes,
        LocalStep len (window (off + node.offset) (fieldWidth node))
          (nodeSetDefault p m.nodes node off) (fun b => FieldSettles b off node)
          fun b => FieldHeld p b off node := by
      intro node hnode
      refine localStep_field hm hs hnode hin (fun m' hm' hfit => ?_) fun m' hm' hfit => ?_
      · exact ihnested node hnode m' hm' ((hm.nestsBuilt node hnode).built m' hm')
          (hs.of_nested hnode hm') _ _ hfit
      · obtain ⟨child, hchild, hnested⟩ := Option.bind_eq_some_iff.mp hm'
        exact ihelement node hnode m' hm' (hm.of_element hnode hchild hnested)
          (of_element hs hnode hchild hnested) _ _ hfit
    have hapart : m.nodes.Pairwise fun a c => Disjoint (window (off + a.offset) (fieldWidth a))
        (window (off + c.offset) (fieldWidth c)) := by
      refine (List.pairwise_map.mp hs.here.names).imp_of_mem fun {a c} ha hc hne => ?_
      exact (disjoint_fields hs.here ha hc hne).mono_right (window_fieldWidth_subset c _)
    refine (((LocalStep.runAll hfields hapart).of_eq fun b _ => ?_).widen ?_).congr
      (fun b _ => defaultsSettle_iff.symm) fun b _ => defaultsHeld_iff.symm
    · rw [setDefaultValues_eq, nodesSetDefaults_eq]
    · rintro i ⟨node, hnode, hi⟩
      have hinside := hs.here.inside node hnode
      exact window_subset (by omega) (by omega) (window_fieldWidth_subset node _ hi)

/-- A field without a default is left as it is. -/
theorem nodeSetDefault_of_no_default (hdef : node.options.hasDef = false)
    (htext : node.defaultText = []) (hcomplex : node.type ≠ .complex)
    (hrecords : node.type = .array → ∀ child, node.child = some child → child.type ≠ .complex)
    (hrun : nodeSetDefault p m.nodes node off b = some b') : b' = b := by
  rw [nodeSetDefault_eq, setFieldDefault] at hrun
  by_cases hvalue : node.type.isSimpleType = true ∨ node.type = .enum
  · rw [if_pos hvalue, writeSimpleDefault, hdef] at hrun
    exact (Option.some.inj hrun).symm
  · rw [if_neg hvalue] at hrun
    split at hrun
    · rw [writeStringDefault, if_pos htext] at hrun
      exact (Option.some.inj hrun).symm
    · exact absurd ‹_› hcomplex
    · have harray : node.type = .array := ‹_›
      split_ifs at hrun
      cases hchild : node.child with
      | none =>
        rw [setArrayDefault, hchild] at hrun
        cases hnested : node.nested with
        | none =>
          rw [hnested] at hrun
          cases hrun
        | some wrapper =>
          rw [hnested] at hrun
          exact (Option.some.inj hrun).symm
      | some child =>
        rw [setArrayDefault_eq harray hchild, if_neg (by simp [hdef]),
          if_neg (hrecords harray child hchild)] at hrun
        exact (Option.some.inj hrun).symm
    · exact (Option.some.inj hrun).symm

theorem localStep_node (hm : m.Built) (hs : layout.Throughout Spaced m) (hnode : node ∈ m.nodes)
    (hin : off + m.size ≤ len) :
    LocalStep len (window (off + node.offset) (fieldWidth node))
      (nodeSetDefault p m.nodes node off) (fun b => FieldSettles b off node)
      fun b => FieldHeld p b off node := by
  refine localStep_field hm hs hnode hin (fun m' hm' hfit => ?_) fun m' hm' hfit => ?_
  · exact localStep_setDefaultValues p m' ((hm.nestsBuilt node hnode).built m' hm')
      (hs.of_nested hnode hm') _ _ hfit
  · obtain ⟨child, hchild, hnested⟩ := Option.bind_eq_some_iff.mp hm'
    exact localStep_setDefaultValues p m' (hm.of_element hnode hchild hnested)
      (of_element hs hnode hchild hnested) _ _ hfit

/-- What a run over the fields of a record does in the window of one field is what it does at that
field. -/
theorem sameOn_field {W : Set ℕ} (hm : m.Built) (hs : layout.Throughout Spaced m)
    (hnode : node ∈ m.nodes) (hfit : off + m.size ≤ b.length)
    (hW : W ⊆ window (off + node.offset) (extent node))
    (hstep : ∀ b₀ b₁, off + m.size ≤ b₀.length → nodeSetDefault p m.nodes node off b₀ = some b₁ →
      SameOn W b₀ b₁)
    (hrun : m.setDefaultValues p off b = some b') : SameOn W b b' := by
  rw [setDefaultValues_eq, nodesSetDefaults_eq] at hrun
  refine sameOn_runAll (fun other hother b₀ b₁ hb₀ hrun₀ => ?_) hfit hrun
  by_cases hname : other.name = node.name
  · obtain rfl := List.inj_on_of_nodup_map hs.here.names hother hnode hname
    exact hstep b₀ b₁ hb₀ hrun₀
  · refine ((localStep_node hm hs hother le_rfl).frame b₀ b₁ hb₀ hrun₀).mono (hW.trans ?_)
    exact (disjoint_fields hs.here hother hnode hname).subset_compl_left

/-- What a run over a record leaves as it is. -/
theorem othersKept_of_run (hm : m.Built) (hs : layout.Throughout Spaced m)
    (hfit : off + m.size ≤ b.length) (hrun : m.setDefaultValues p off b = some b') :
    m.OthersKept b b' off := by
  intro n o hcontains idle hidle hdef htext hcomplex hrecords
  induction hcontains generalizing b b' with
  | refl m off =>
    refine sameOn_field hm hs hidle hfit subset_rfl (fun b₀ b₁ _ hstep => ?_) hrun
    rw [nodeSetDefault_of_no_default hdef htext hcomplex hrecords hstep]
    exact .refl _ b₀
  | @nested m n m' off o node hnode htype hnested h ih =>
    have hbuilt := (hm.nestsBuilt node hnode).built m' hnested
    have hspaced := hs.of_nested hnode hnested
    obtain ⟨d, rfl, hin, -, hn, -⟩ := h.place (fun _ _ => False.elim) hbuilt hspaced
    have hsize := hm.size_of_nested hnode htype hnested
    have hinside := hs.here.inside node hnode
    have hidleInside := hn.here.inside idle hidle
    refine sameOn_field hm hs hnode hfit (window_subset (by omega) (by omega))
      (fun b₀ b₁ hb₀ hstep => ?_) hrun
    rw [nodeSetDefault_eq, setFieldDefault, if_neg (by simp [htype, TypeEnum.isSimpleType]),
      htype] at hstep
    simp only [count_nestedNames hs.here.names hnode (Or.inl htype), if_true, hnested,
      Option.bind_some] at hstep
    exact ih hbuilt hspaced (by omega) hstep hidle
  | element hnode htype hchild hcomplex hnested hj h ih => exact absurd hj id

end Record

/-! ### Runs -/

/-- **`set_default_values`** brings all fields to their defaults and leaves the others as they are,
precisely when all fields with a default come to hold it. -/
theorem BinaryMetadata.sets_defaults_iff (p : Platform) {m : BinaryMetadata} {off : ℕ}
    {buf : List UInt8} (hm : m.Built) (hs : layout.Throughout Spaced m)
    (hbuf : off + m.size ≤ buf.length) :
    (∃ buf', m.setDefaultValues p off buf = some buf' ∧ m.DefaultsHeld p buf' off ∧
      m.OthersKept buf buf' off) ↔ m.DefaultsSettle buf off := by
  rw [← (localStep_setDefaultValues p m hm hs off buf.length hbuf).exact buf le_rfl]
  refine exists_congr fun buf' => and_congr_right fun hrun => ?_
  exact and_iff_left (othersKept_of_run hm hs hbuf hrun)

/-- A byte with a default, and a string with one. -/
def defaultedCalls : List BuilderCall :=
  [.put "b" 1 .uint8 { SimpleOptions.reset with hasDef := true, defval := 7 },
    .putString "s" 4 "ab"]

/-- In a buffer of five bytes. -/
theorem BinaryMetadata.sets_defaults_iff_flat :
    ∃ m, Transition.run (fun m call => BuilderCall.step (fun _ => none) m call) (empty false)
      defaultedCalls = some m ∧
      ((∃ buf', m.setDefaultValues ⟨fun _ _ => 0⟩ 0 [0, 1, 2, 3, 4] = some buf' ∧
        m.DefaultsHeld ⟨fun _ _ => 0⟩ buf' 0 ∧ m.OthersKept [0, 1, 2, 3, 4] buf' 0) ↔
          m.DefaultsSettle [0, 1, 2, 3, 4] 0) := by
  refine ⟨_, rfl, BinaryMetadata.sets_defaults_iff _
    (built_of_calls defaultedCalls (built_of_arguments_isEmpty (by decide)) rfl)
    (.of_flat ⟨by decide, by decide, by decide, ?_⟩ (by decide)) (by decide)⟩
  intro node hnode harray child hchild
  rcases hnode with _ | ⟨_, _ | ⟨_, hnil⟩⟩
  · cases harray
  · cases harray
  · cases hnil

/-- An array of two enumeration values with a default. -/
def enumsWithDefault : BinaryMetadata :=
  (empty false).arrayEnum "v" 2 1 { SimpleOptions.reset with hasDef := true, defval := 7 }
    ⟨"e", [⟨"seven", 7⟩]⟩

/-- The elements keep their zeroes. -/
theorem BinaryMetadata.not_sets_defaults :
    enumsWithDefault.setDefaultValues ⟨fun _ _ => 0⟩ 0 [0, 0] = some [0, 0] ∧
      ¬ ∃ buf', enumsWithDefault.setDefaultValues ⟨fun _ _ => 0⟩ 0 [0, 0] = some buf' ∧
        enumsWithDefault.DefaultsHeld ⟨fun _ _ => 0⟩ buf' 0 ∧
          enumsWithDefault.OthersKept [0, 0] buf' 0 := by
  refine ⟨rfl, ?_⟩
  rintro ⟨buf', hrun, hheld, -⟩
  obtain rfl := Option.some.inj hrun
  have harray := (hheld enumsWithDefault 0 (.refl _ 0) _ List.mem_cons_self).array rfl rfl _ rfl
    (Or.inr rfl) 0 (by decide)
  revert harray
  decide

end UtilityFramework
