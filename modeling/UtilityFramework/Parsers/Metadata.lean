import Mathlib.Data.Int.Notation
import UtilityFramework.Core.Types

/-!
# Binary metadata

`parsers::binary_metadata_impl`: the description of a record as a list of nodes, each with
its name, offset, size and type, and the running size of the record. Builder calls append a
node and advance the size. Bit fields are packed into blocks: `addBitNode` decides from the
node before it whether to go on in its block, to extend the block, or to open a new one.

Strings are byte strings, one character for each byte. A metadata object is a value, so a
nested metadata is not modified after it has been nested. The store of the metadata is a
function from names to metadata; for a metadata without a store it has no names.
-/

namespace UtilityFramework

/-- `core::parsers::simple_options_data`, each raw value as the integer its eight bytes
hold. -/
structure SimpleOptions where
  hasMin : Bool
  minval : UInt64
  hasMax : Bool
  maxval : UInt64
  hasDef : Bool
  defval : UInt64
  deriving DecidableEq, Repr

/-- `simple_options::reset`. -/
def SimpleOptions.reset : SimpleOptions := ⟨false, 0, false, 0, false, 0⟩

/-- `core::parsers::enum_data_item`. -/
structure EnumItem where
  name : String
  value : ℤ
  deriving DecidableEq, Repr

/-- `parsers::enum_data_impl`. -/
structure EnumData where
  name : String
  items : List EnumItem
  deriving DecidableEq, Repr

/-- The bits of a `bit_binary_node` inside its block. -/
structure BitRange where
  bitOffset : ℕ
  numOfBits : ℕ
  deriving DecidableEq, Repr

/-- The block of a new bit field: its offset and size, the bits of the field in it, and the
number of bytes by which the record grows. -/
structure BitBlock where
  offset : ℕ
  size : ℕ
  bits : BitRange
  sizeToIncrease : ℕ

/-- `binary_metadata_impl::binary_node`, over the type of nested metadata. A
`bit_binary_node` has `bits`. -/
structure BinaryNode (μ : Type) where
  name : String
  offset : ℕ
  size : ℕ
  type : TypeEnum
  bigEndian : Bool
  options : SimpleOptions
  defString : String
  nested : Option μ
  enum : Option EnumData
  count : ℕ
  bits : Option BitRange

/-- `parsers::binary_metadata_impl`: `m_big_endian`, `m_name`, `m_parser_metadata` and
`m_offset`. -/
inductive BinaryMetadata
  | mk (bigEndian : Bool) (name : String) (nodes : List (BinaryNode BinaryMetadata))
    (offset : ℕ)

/-- A node of a metadata. -/
abbrev Node := BinaryNode BinaryMetadata

namespace BinaryMetadata

/-- `big_endian`. -/
def bigEndian : BinaryMetadata → Bool
  | mk b _ _ _ => b

/-- `namely`. -/
def name : BinaryMetadata → String
  | mk _ n _ _ => n

/-- The nodes, in the order of the builder calls. -/
def nodes : BinaryMetadata → List Node
  | mk _ _ l _ => l

/-- `size`, which is also the offset of the next node. -/
def size : BinaryMetadata → ℕ
  | mk _ _ _ o => o

@[simp] theorem nodes_mk (b : Bool) (n : String) (l : List Node) (o : ℕ) :
    (mk b n l o).nodes = l := rfl

@[simp] theorem size_mk (b : Bool) (n : String) (l : List Node) (o : ℕ) :
    (mk b n l o).size = o := rfl

/-- A metadata without nodes. -/
def empty (bigEndian : Bool) : BinaryMetadata := mk bigEndian "" [] 0

/-- `query_node`: the first node of that name. -/
def queryNode (m : BinaryMetadata) (name : String) : Option Node :=
  m.nodes.find? fun node => node.name = name

/-- `query_node_by_index`. -/
def queryNodeByIndex (m : BinaryMetadata) (index : ℕ) : Option Node := m.nodes[index]?

/-- `get_index_by_name`. -/
def getIndexByName (m : BinaryMetadata) (name : String) : Option ℕ :=
  m.nodes.findIdx? fun node => node.name = name

end BinaryMetadata

namespace Node

/-- The first node of the metadata of an array, which describes its elements. -/
def child (node : Node) : Option Node := node.nested.bind fun m => m.nodes.head?

/-- The metadata of the elements of an array of complex elements. -/
def element (node : Node) : Option BinaryMetadata := node.child.bind fun child => child.nested

end Node

namespace BinaryMetadata

/-! ### Induction -/

theorem sizeOf_nested_lt {m m' : BinaryMetadata} {node : Node} (hnode : node ∈ m.nodes)
    (h : node.nested = some m') : sizeOf m' < sizeOf m := by
  obtain ⟨_, _, nodes, _⟩ := m
  obtain ⟨_, _, _, _, _, _, _, nested, _, _, _⟩ := node
  obtain rfl : nested = some m' := h
  have hmem := List.sizeOf_lt_of_mem hnode
  simp only [nodes_mk, BinaryNode.mk.sizeOf_spec, Option.some.sizeOf_spec,
    BinaryMetadata.mk.sizeOf_spec] at hmem ⊢
  omega

theorem sizeOf_element_lt {m m' : BinaryMetadata} {node : Node} (hnode : node ∈ m.nodes)
    (h : node.element = some m') : sizeOf m' < sizeOf m := by
  obtain ⟨child, hchild, hnested⟩ := Option.bind_eq_some_iff.mp h
  obtain ⟨wrapper, hwrapper, hhead⟩ := Option.bind_eq_some_iff.mp hchild
  have hin : sizeOf m' < sizeOf wrapper := sizeOf_nested_lt (List.mem_of_head? hhead) hnested
  exact Nat.lt_trans hin (sizeOf_nested_lt hnode hwrapper)

/-- Induction over the metadata that the nodes of a metadata nest, directly or as the
elements of an array. -/
theorem induction {P : BinaryMetadata → Prop}
    (h : ∀ m, (∀ node ∈ m.nodes, ∀ m', node.nested = some m' → P m') →
      (∀ node ∈ m.nodes, ∀ m', node.element = some m' → P m') → P m)
    (m : BinaryMetadata) : P m :=
  h m (fun _ hnode m' hm' => have := sizeOf_nested_lt hnode hm'; induction h m')
    (fun _ hnode m' hm' => have := sizeOf_element_lt hnode hm'; induction h m')
termination_by sizeOf m

/-! ### Builder calls -/

/-- Appending a node: `emplace_back` and the advance of `m_offset`. -/
def append (m : BinaryMetadata) (node : Node) (increase : ℕ) : BinaryMetadata :=
  mk m.bigEndian m.name (m.nodes ++ [node]) (Size.add m.size increase)

/-- The name a node gets: a nameless one is named by its position. -/
def nodeName (m : BinaryMetadata) (name : String) : String :=
  if name = "" then toString m.nodes.length else name

/-- The node common to the builder calls: at the end of the record, in its endianness. -/
def newNode (m : BinaryMetadata) (name : String) (size : ℕ) (type : TypeEnum) : Node where
  name := name
  offset := m.size
  size := size
  type := type
  bigEndian := m.bigEndian
  options := SimpleOptions.reset
  defString := ""
  nested := none
  enum := none
  count := 1
  bits := none

/-- `put`. -/
def put (m : BinaryMetadata) (name : String) (size : ℕ) (type : TypeEnum)
    (options : SimpleOptions) : BinaryMetadata :=
  m.append { m.newNode (m.nodeName name) size type with options := options } size

/-- `put_enum`. -/
def putEnum (m : BinaryMetadata) (name : String) (size : ℕ) (enum : Option EnumData)
    (options : SimpleOptions) : BinaryMetadata :=
  m.append { m.newNode (m.nodeName name) size .enum with options := options, enum := enum } size

/-- `put_string`. -/
def putString (m : BinaryMetadata) (name : String) (maxSize : ℕ) (defString : String) :
    BinaryMetadata :=
  m.append { m.newNode (m.nodeName name) maxSize .string with defString := defString } maxSize

/-- `nest_metadata`. The node has the endianness of the nested metadata. -/
def nestMetadata (m : BinaryMetadata) (name : String) (nested : BinaryMetadata) :
    BinaryMetadata :=
  m.append { m.newNode (m.nodeName name) nested.size .complex with
    bigEndian := nested.bigEndian, nested := some nested } nested.size

/-- The name of the element of an array, made from the name given by the caller. -/
def elementName (name : String) (numOfElements : ℕ) : String :=
  name ++ "[" ++ toString numOfElements ++ "]"

/-- The node of an array and the advance it makes. -/
def appendArray (m : BinaryMetadata) (node : Node) (size numOfElements : ℕ)
    (element : BinaryMetadata) : BinaryMetadata :=
  m.append { node with count := numOfElements, nested := some element }
    (Size.mul size numOfElements)

/-- `array` of simple or complex elements; `none` when complex elements come without their
metadata, which the code dereferences. -/
def array (m : BinaryMetadata) (name : String) (size : ℕ) (type : TypeEnum)
    (numOfElements : ℕ) (options : SimpleOptions) (nested : Option BinaryMetadata) :
    Option BinaryMetadata :=
  let node := { m.newNode (m.nodeName name) size .array with options := options }
  if type = .complex then
    nested.map fun nested => m.appendArray node size numOfElements
      ((empty m.bigEndian).nestMetadata (elementName name numOfElements) nested)
  else
    some (m.appendArray node size numOfElements
      ((empty m.bigEndian).put (elementName name numOfElements) size type options))

/-- `array` of strings. -/
def arrayString (m : BinaryMetadata) (name : String) (size numOfElements : ℕ)
    (defString : String) : BinaryMetadata :=
  m.appendArray { m.newNode (m.nodeName name) size .array with defString := defString } size
    numOfElements
    ((empty m.bigEndian).putString (elementName name numOfElements) size defString)

/-- `array` of enumeration values. The node keeps the name as given, also when empty. -/
def arrayEnum (m : BinaryMetadata) (name : String) (numOfElements size : ℕ)
    (options : SimpleOptions) (enum : EnumData) : BinaryMetadata :=
  m.appendArray { m.newNode name size .array with options := options, enum := some enum } size
    numOfElements
    ((empty m.bigEndian).putEnum (elementName name numOfElements) size (some enum) options)

/-- `add_bit_node`: where the new node goes. -/
def bitBlock (m : BinaryMetadata) (numOfBits dataSize : ℕ) (prev : Option (Node × BitRange)) :
    BitBlock :=
  match prev with
  | none => ⟨m.size, dataSize, ⟨0, numOfBits⟩, dataSize⟩
  | some (node, bits) =>
    let bitCount := Size.add bits.bitOffset bits.numOfBits
    let bitRemaining := Size.sub (Size.mul node.size 8) bitCount
    if bitRemaining = 0 then ⟨m.size, dataSize, ⟨0, numOfBits⟩, dataSize⟩
    else if bitRemaining < numOfBits then
      -- The block is not large enough for the new field: it grows.
      let sizeToIncrease := (numOfBits - bitRemaining) / 8 + 1
      ⟨node.offset, Size.add node.size sizeToIncrease, ⟨bitCount, numOfBits⟩, sizeToIncrease⟩
    else ⟨node.offset, node.size, ⟨bitCount, numOfBits⟩, 0⟩

/-- The node `put_bits` goes on from: the last one, if it is of type `BITMAP` and there are
fewer than eight nodes. A node of that type that is not a bit field is taken for one, which
is undefined behaviour. -/
def prevBitNode (m : BinaryMetadata) : Option (Option (Node × BitRange)) :=
  match m.nodes.getLast? with
  | none => some none
  | some node =>
    if node.type = .bitmap ∧ m.nodes.length < 8 then
      node.bits.map fun bits => some (node, bits)
    else some none

/-- `put_bits`, with its result; `none` for undefined behaviour. -/
def putBits (m : BinaryMetadata) (name : String) (numOfBits dataSize : ℕ) :
    Option (BinaryMetadata × Bool) :=
  if numOfBits = 0 ∨ 8 < dataSize then some (m, false)
  else
    m.prevBitNode.map fun prev =>
      let block := m.bitBlock numOfBits dataSize prev
      (m.append { m.newNode (m.nodeName name) block.size .bitmap with
        offset := block.offset, bits := some block.bits } block.sizeToIncrease, true)

end BinaryMetadata

/-- The builder calls on a metadata. `nestNamed` and `arrayNamed` take the nested metadata
from the store. -/
inductive BuilderCall
  | setBigEndian (bigEndian : Bool)
  | put (name : String) (size : ℕ) (type : TypeEnum) (options : SimpleOptions)
  | putEnum (name : String) (size : ℕ) (enum : Option EnumData) (options : SimpleOptions)
  | putBits (name : String) (numOfBits dataSize : ℕ)
  | putString (name : String) (maxSize : ℕ) (defString : String)
  | nest (name : String) (nested : BinaryMetadata)
  | nestNamed (name metadataName : String)
  | array (name : String) (size : ℕ) (type : TypeEnum) (numOfElements : ℕ)
    (options : SimpleOptions) (nested : Option BinaryMetadata)
  | arrayString (name : String) (size numOfElements : ℕ) (defString : String)
  | arrayNamed (name : String) (numOfElements : ℕ) (options : SimpleOptions)
    (metadataName : String)
  | arrayEnum (name : String) (numOfElements size : ℕ) (options : SimpleOptions)
    (enum : Option EnumData)

namespace BuilderCall

/-- One builder call, with its result; `none` for undefined behaviour. -/
def apply (store : String → Option BinaryMetadata) (m : BinaryMetadata) :
    BuilderCall → Option (BinaryMetadata × Bool)
  | setBigEndian b => some (.mk b m.name m.nodes m.size, true)
  | put name size type options => some (m.put name size type options, true)
  | putEnum name size enum options => some (m.putEnum name size enum options, true)
  | putBits name numOfBits dataSize => m.putBits name numOfBits dataSize
  | putString name maxSize defString => some (m.putString name maxSize defString, true)
  | nest name nested => some (m.nestMetadata name nested, true)
  | nestNamed name metadataName =>
    match store metadataName with
    | none => some (m, false)
    | some nested => some (m.nestMetadata name nested, true)
  | array name size type numOfElements options nested =>
    (m.array name size type numOfElements options nested).map fun m' => (m', true)
  | arrayString name size numOfElements defString =>
    some (m.arrayString name size numOfElements defString, true)
  | arrayNamed name numOfElements options metadataName =>
    match store metadataName with
    | none => some (m, false)
    | some nested =>
      (m.array name nested.size .complex numOfElements options (some nested)).map
        fun m' => (m', true)
  | arrayEnum name numOfElements size options enum =>
    match enum with
    | none => some (m, false)
    | some enum => some (m.arrayEnum name numOfElements size options enum, true)

/-- One builder call as a step on the metadata. -/
def step (store : String → Option BinaryMetadata) (m : BinaryMetadata) (call : BuilderCall) :
    Option BinaryMetadata :=
  (call.apply store m).map Prod.fst

end BuilderCall

end UtilityFramework
