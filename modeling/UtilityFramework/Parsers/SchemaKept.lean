import UtilityFramework.Parsers.Builder
import UtilityFramework.Parsers.Schema

/-!
# What is kept of a metadata written as JSON

A metadata is written by `schema_to_json` and read into a new one by `json_to_schema`. What is
compared is `BinaryMetadata.fields`: all that a metadata says about its fields, apart from the
byte order.

The round trip fails for many metadata. The reader keeps the options of one field for the
next, several types share a name, the blocks of bit fields have a name for four sizes only,
and arrays of strings and of buffers cannot be read. `BinaryMetadata.SchemaKept` is what is
left. `Schema.FieldStep` says of one field that it comes back as it was if and only if it is
kept.
-/

namespace UtilityFramework

/-! ### What is compared -/

/-- What a metadata says about a field; of bounds and defaults, the value if there is one. -/
inductive FieldInfo
  | mk (name : String) (offset size : ℕ) (type : TypeEnum) (bits : Option BitRange) (count : ℕ)
    (enum : Option EnumData) (defString : String) (min max default : Option ℕ)
    (nested : Option (List FieldInfo))

/-- The number of bytes of a bound that count for a node: those of its own type, or of the type
of its elements. -/
def Node.valueBytes (node : Node) : ℕ :=
  match node.type, node.child with
  | .array, some child => child.type.valueBytes child.size
  | type, _ => type.valueBytes node.size

mutual

/-- The fields of a metadata, with those of what they nest. -/
def BinaryMetadata.fields : BinaryMetadata → List FieldInfo
  | .mk _ _ nodes _ => Node.infos nodes
termination_by structural m => m

/-- The fields of a list of nodes. -/
def Node.infos : List Node → List FieldInfo
  | [] => []
  | node :: rest => Node.info node :: Node.infos rest
termination_by structural nodes => nodes

/-- The field of a node. -/
def Node.info : Node → FieldInfo
  | ⟨name, offset, size, type, bigEndian, options, defString, nested, enum, count, bits⟩ =>
    let n := Node.valueBytes
      ⟨name, offset, size, type, bigEndian, options, defString, nested, enum, count, bits⟩
    .mk name offset size type bits count enum defString (options.min.value n)
      (options.max.value n) (options.default.value n) (Node.nestedFields nested)
termination_by structural node => node

/-- The fields of a nested metadata. -/
def Node.nestedFields : Option BinaryMetadata → Option (List FieldInfo)
  | none => none
  | some m => some m.fields
termination_by structural nested => nested

end

theorem BinaryMetadata.fields_eq (m : BinaryMetadata) : m.fields = m.nodes.map Node.info := by
  obtain ⟨_, _, nodes, _⟩ := m
  have hinfos : ∀ l : List Node, Node.infos l = l.map Node.info := by
    intro l
    induction l with
    | nil => rfl
    | cons node l ih => exact congrArg (Node.info node :: ·) ih
  exact hinfos nodes

theorem Node.info_eq (node : Node) :
    node.info = .mk node.name node.offset node.size node.type node.bits node.count node.enum
      node.defString (node.options.min.value node.valueBytes)
      (node.options.max.value node.valueBytes) (node.options.default.value node.valueBytes)
      (node.nested.map BinaryMetadata.fields) := by
  have hnested : Node.nestedFields node.nested = node.nested.map BinaryMetadata.fields := by
    cases node.nested <;> rfl
  rw [← hnested]
  cases node
  rfl

theorem BinaryMetadata.fields_append (m : BinaryMetadata) (node : Node) (increase : ℕ) :
    (m.append node increase).fields = m.fields ++ [node.info] := by
  rw [fields_eq, fields_eq, append, nodes_mk, List.map_append]
  rfl

/-- **The round trip.** The metadata is written and can be read into a new one, which has the
same size and the same fields. -/
def BinaryMetadata.SchemaRoundTrip (enums : String → Option EnumData) (m : BinaryMetadata) :
    Prop :=
  ∃ json m', Schema.schemaToJson m.bigEndian m = some (json, true) ∧
    Schema.jsonToSchema enums json (.empty false) = some (m', true) ∧
    m'.size = m.size ∧ m'.fields = m.fields

/-! ### What is kept -/

namespace Node

/-- The options the reader has after the entry of a node. -/
def optionsAfter (o : SimpleOptions) (node : Node) : SimpleOptions :=
  if node.type.HasOptions then .after node.type o node.options
  else
    match node.type, node.child with
    | .array, some child =>
      if child.type.HasOptions then .after child.type o child.options else o
    | _, _ => o

/-- The options the reader has after the entries of some nodes. -/
def carriedOptions (nodes : List Node) : SimpleOptions := nodes.foldl optionsAfter .reset

/-- A field that is read back as it was written, when the reader has the options `o` from the
fields before it. What the field nests is left aside. -/
def FieldKept (o : SimpleOptions) (node : Node) : Prop :=
  match node.type with
  | .string => node.options.Agrees 8 .reset
  | .buffer | .emptyType => node.options.Agrees 8 o
  | .complex => node.nested.isSome
  | .bitmap =>
    (node.size = 1 ∨ node.size = 2 ∨ node.size = 4 ∨ node.size = 8) ∧
      ∃ bits, node.bits = some bits ∧ bits.numOfBits < 2 ^ 63
  | .array =>
    ∃ child, node.child = some child ∧
      child.name = BinaryMetadata.elementName node.name node.count ∧
      (child.type = .complex ∧ child.size = node.size ∧ node.options.Agrees 8 o ∨
        child.type.HasOptions ∧ child.type.readAs = child.type ∧
          SimpleOptions.Kept child.type child.size o child.options)
  | type =>
    type.HasOptions ∧ type.readAs = type ∧ SimpleOptions.Kept type node.size o node.options

end Node

/-- The metadata that the round trip keeps: every field is kept, and so is what it nests. -/
inductive BinaryMetadata.SchemaKept : BinaryMetadata → Prop
  | intro {m : BinaryMetadata}
    (field : ∀ before node after, m.nodes = before ++ node :: after →
      node.FieldKept (Node.carriedOptions before))
    (nested : ∀ node ∈ m.nodes, node.type = .complex → ∀ m', node.nested = some m' →
      SchemaKept m')
    (element : ∀ node ∈ m.nodes, node.type = .array → ∀ m', node.element = some m' →
      SchemaKept m') :
    SchemaKept m

/-- The enumerations of a metadata are in the store. -/
inductive BinaryMetadata.EnumsStored (enums : String → Option EnumData) : BinaryMetadata → Prop
  | intro {m : BinaryMetadata}
    (enum : ∀ node ∈ m.nodes, ∀ e, node.enum = some e → enums e.name = some e)
    (nested : ∀ node ∈ m.nodes, ∀ m', node.nested = some m' → EnumsStored enums m') :
    EnumsStored enums m

/-! ### Fields of new nodes -/

namespace Node

theorem valueBytes_of_not_nested {node : Node} (h : node.nested = none) :
    node.valueBytes = node.type.valueBytes node.size := by
  rw [valueBytes, child, h]
  split
  · rename_i hchild
    cases hchild
  · rfl

theorem valueBytes_of_child {node child : Node} (htype : node.type = .array)
    (hchild : node.child = some child) :
    node.valueBytes = child.type.valueBytes child.size := by
  rw [valueBytes, htype, hchild]

end Node

namespace BinaryMetadata

/-- The metadata of the elements of an array has one field. -/
theorem fields_single (b : Bool) (node : BinaryMetadata → Node) :
    (single b node).fields = [(node (.empty b)).info] :=
  fields_append (empty b) (node (.empty b)) _

section NewNodes

variable {m m' : BinaryMetadata} (hsize : m'.size = m.size)

include hsize

/-- Nodes that nest nothing, appended to two metadata of the same size. -/
theorem info_fieldNode_eq_iff {name name' : String} {size : ℕ} {type type' : TypeEnum}
    {options options' : SimpleOptions} {enum : Option EnumData} {defString : String} :
    (m'.fieldNode name' size type' options' enum defString).info =
        (m.fieldNode name size type options enum defString).info ↔
      name' = name ∧ type' = type ∧ options'.Agrees (type.valueBytes size) options := by
  rw [Node.info_eq, Node.info_eq, Node.valueBytes_of_not_nested rfl,
    Node.valueBytes_of_not_nested rfl]
  simp only [fieldNode, newNode, hsize, FieldInfo.mk.injEq, true_and, and_true]
  constructor
  · rintro ⟨rfl, rfl, hmin, hmax, hdefault⟩
    exact ⟨rfl, rfl, hmin, hmax, hdefault⟩
  · rintro ⟨rfl, rfl, hmin, hmax, hdefault⟩
    exact ⟨rfl, rfl, hmin, hmax, hdefault⟩

/-- Nodes that nest a metadata. -/
theorem info_nestNode_eq_iff {name name' : String} {nested nested' : BinaryMetadata} :
    (m'.nestNode name' nested').info = (m.nestNode name nested).info ↔
      name' = name ∧ nested'.size = nested.size ∧ nested'.fields = nested.fields := by
  rw [Node.info_eq, Node.info_eq]
  simp only [nestNode, newNode, hsize, FieldInfo.mk.injEq, true_and, Option.map_some,
    Option.some.injEq]
  constructor
  · rintro ⟨hname, hnested, -, -, -, hfields⟩
    exact ⟨hname, hnested, hfields⟩
  · rintro ⟨hname, hnested, hfields⟩
    exact ⟨hname, hnested, rfl, rfl, rfl, hfields⟩

/-- Nodes of arrays, given the nodes of their elements. -/
theorem info_arrayNode_eq_iff {name : String} {size size' count : ℕ}
    {options options' : SimpleOptions} {enum : Option EnumData} {b b' : Bool}
    {child child' : BinaryMetadata → Node}
    (hbytes : (child' (.empty b')).type.valueBytes (child' (.empty b')).size =
      (child (.empty b)).type.valueBytes (child (.empty b)).size) :
    (m'.arrayNode name size' count options' enum (single b' child')).info =
        (m.arrayNode name size count options enum (single b child)).info ↔
      size' = size ∧
        options'.Agrees ((child (.empty b)).type.valueBytes (child (.empty b)).size) options ∧
        (child' (.empty b')).info = (child (.empty b)).info := by
  rw [Node.info_eq, Node.info_eq, Node.valueBytes_of_child rfl rfl,
    Node.valueBytes_of_child rfl rfl, hbytes]
  simp only [arrayNode, newNode, hsize, FieldInfo.mk.injEq, true_and, Option.map_some,
    Option.some.injEq, fields_single, List.cons.injEq, and_true]
  constructor
  · rintro ⟨hsz, hmin, hmax, hdefault, hchild⟩
    exact ⟨hsz, ⟨hmin, hmax, hdefault⟩, hchild⟩
  · rintro ⟨hsz, ⟨hmin, hmax, hdefault⟩, hchild⟩
    exact ⟨hsz, hmin, hmax, hdefault, hchild⟩

end NewNodes

end BinaryMetadata

/-! ### One field -/

namespace Node

/-- A field that is kept, with what it nests. -/
structure Kept (o : SimpleOptions) (node : Node) : Prop where
  field : node.FieldKept o
  nested : node.type = .complex → ∀ m, node.nested = some m → m.SchemaKept
  element : node.type = .array → ∀ m, node.element = some m → m.SchemaKept

/-- A field that nests nothing. -/
theorem kept_iff_of_not_nested {node : Node} {o : SimpleOptions} (h : node.nested = none) :
    node.Kept o ↔ node.FieldKept o := by
  constructor
  · exact Kept.field
  · refine fun hfield => ⟨hfield, fun _ m hm => ?_, fun _ m hm => ?_⟩
    · simp [h] at hm
    · simp [element, child, h] at hm

/-- A field of a type with options. -/
theorem fieldKept_of_hasOptions {node : Node} {o : SimpleOptions} (h : node.type.HasOptions) :
    node.FieldKept o ↔
      node.type.readAs = node.type ∧
        SimpleOptions.Kept node.type node.size o node.options := by
  obtain ⟨_, _, _, type, _, _, _, _, _, _, _⟩ := node
  rcases h with h | h
  · cases type <;> first | (cases h; done) | simp [FieldKept, TypeEnum.HasOptions, h]
  · obtain rfl : type = .enum := h
    simp [FieldKept, TypeEnum.HasOptions]

/-- All fields of a list of nodes are kept, each with the options that are left over from those
before it. -/
def KeptAll (nodes : List Node) : Prop :=
  ∀ before node after, nodes = before ++ node :: after → node.Kept (carriedOptions before)

theorem carriedOptions_concat (nodes : List Node) (node : Node) :
    carriedOptions (nodes ++ [node]) = node.optionsAfter (carriedOptions nodes) := by
  rw [carriedOptions, List.foldl_append]
  rfl

theorem keptAll_nil : KeptAll [] := by
  intro before node after h
  simp at h

theorem keptAll_concat {nodes : List Node} {node : Node} :
    KeptAll (nodes ++ [node]) ↔ KeptAll nodes ∧ node.Kept (carriedOptions nodes) := by
  constructor
  · intro h
    refine ⟨fun before x after heq => ?_, h nodes node [] rfl⟩
    refine h before x (after ++ [node]) ?_
    rw [heq, List.append_assoc, List.cons_append]
  · rintro ⟨hnodes, hnode⟩ before x after heq
    rcases List.eq_nil_or_concat after with rfl | ⟨after, last, rfl⟩
    · obtain ⟨rfl, hlast⟩ := List.append_inj' heq rfl
      obtain rfl := (List.cons.inj hlast).1
      exact hnode
    · rw [List.concat_eq_append, ← List.cons_append, ← List.append_assoc] at heq
      exact hnodes before x after (List.append_inj' heq rfl).1

end Node

theorem BinaryMetadata.schemaKept_iff {m : BinaryMetadata} :
    m.SchemaKept ↔ Node.KeptAll m.nodes := by
  constructor
  · rintro ⟨hfield, hnested, helement⟩ before node after heq
    have hmem : node ∈ m.nodes := by simp [heq]
    exact ⟨hfield before node after heq, hnested node hmem, helement node hmem⟩
  · intro h
    have hmem : ∀ node ∈ m.nodes, ∃ o, node.Kept o := by
      intro node hnode
      obtain ⟨before, after, heq⟩ := List.append_of_mem hnode
      exact ⟨_, h before node after heq⟩
    refine ⟨fun before node after heq => (h before node after heq).field, ?_, ?_⟩
    · intro node hnode
      obtain ⟨o, ho⟩ := hmem node hnode
      exact ho.nested
    · intro node hnode
      obtain ⟨o, ho⟩ := hmem node hnode
      exact ho.element

namespace Schema

/-- **What becomes of one field**, when it is written and then read by a reader that has the
metadata `m` and the options `o`: if it is kept, it is appended as it was, and if it is appended
as it was, it is kept. -/
structure FieldStep (enums : String → Option EnumData) (b : Bool) (m : BinaryMetadata)
    (o : SimpleOptions) (node : Node) (increase : ℕ) : Prop where
  kept : node.Kept o → ∃ e node', nodeToJson b node = some (some e) ∧
    readEntry enums e (m, o) = some ((m.append node' increase, node.optionsAfter o), true) ∧
    node'.info = node.info
  keptOf : ∀ e r, nodeToJson b node = some (some e) → readEntry enums e (m, o) = some r →
    r.1.1.fields = m.fields ++ [node.info] → node.Kept o

section

variable {enums : String → Option EnumData} {b : Bool} {m : BinaryMetadata} {o : SimpleOptions}
  {node : Node} {increase : ℕ}

/-- A field that nothing is appended for. -/
theorem FieldStep.of_lost (hkept : ¬node.FieldKept o)
    (hlost : ∀ e r, nodeToJson b node = some (some e) → readEntry enums e (m, o) = some r →
      r.1.1 = m) :
    FieldStep enums b m o node increase where
  kept h := absurd h.field hkept
  keptOf e r he hr hfields := by
    rw [hlost e r he hr] at hfields
    have hlength := congrArg List.length hfields
    simp at hlength

/-- A field that cannot be written, or whose entry cannot be read. -/
theorem FieldStep.of_unreadable (hkept : ¬node.FieldKept o)
    (hread : ∀ e, nodeToJson b node = some (some e) → readEntry enums e (m, o) = none) :
    FieldStep enums b m o node increase := by
  refine .of_lost hkept fun e r he hr => ?_
  rw [hread e he] at hr
  cases hr

/-- A field that is always read. -/
theorem FieldStep.of_append (e : Json) (node' : Node)
    (hwrite : nodeToJson b node = some (some e))
    (hread : readEntry enums e (m, o) =
      some ((m.append node' increase, node.optionsAfter o), true))
    (hinfo : node'.info = node.info ↔ node.Kept o) :
    FieldStep enums b m o node increase where
  kept h := ⟨e, node', hwrite, hread, hinfo.mpr h⟩
  keptOf e' r he hr hfields := by
    rw [hwrite] at he
    obtain rfl := Option.some.inj (Option.some.inj he)
    rw [hread] at hr
    obtain rfl := Option.some.inj hr
    rw [BinaryMetadata.fields_append] at hfields
    exact hinfo.mp (List.cons.inj (List.append_cancel_left hfields)).1

end

end Schema

end UtilityFramework
