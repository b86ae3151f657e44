import UtilityFramework.Parsers.ArrayAccess
import UtilityFramework.Parsers.NestedParsers

/-!
# Access by name and by index

Most reads of a parser take a field by its name or by its index, and each pair is implemented
twice. `read_simple`, `read_string`, `read_complex` and `read_at` come together in one function.
Of the others, `read_enum` reads eight bytes by name and as many as the field has by index,
`read_complex_at` leaves the offset of the parser out by name, and `read_array_attributes` goes
through the metadata by name and through the nested parser by index.

`FieldRead.agrees_iff` says for each call when its two forms agree.
-/

namespace UtilityFramework

open Bytes BinaryMetadata

/-! ### The calls -/

/-- What a read gives: `failed` is the result false, `unset` the result true with nothing set. -/
inductive ReadResult
  | failed
  | unset
  | bytes (data : List UInt8)
  | item (item : EnumItem)
  | parser (t : ParserTree)
  | attributes (elementSize numOfElements : ℕ) (type : TypeEnum)

namespace ReadResult

/-- A read of bytes. -/
def ofBytes : Option (List UInt8) → ReadResult
  | none => failed
  | some data => bytes data

/-- A read of an item of an enumeration. -/
def ofItem : Option EnumItem → ReadResult
  | none => failed
  | some value => item value

theorem ofItem_inj {a b : Option EnumItem} : some (ofItem a) = some (ofItem b) ↔ a = b := by
  refine ⟨fun h => ?_, fun h => h ▸ rfl⟩
  cases a with
  | none =>
    cases b with
    | none => rfl
    | some b => cases h
  | some a =>
    cases b with
    | none => cases h
    | some b => rw [item.inj (Option.some.inj h)]

/-- The new parser of an element. -/
def ofElement (buffer : ℕ) : Option (BinaryMetadata × ℕ) → ReadResult
  | none => failed
  | some (m, off) => parser (.create buffer m off)

/-- The attributes of an array, given the metadata of its elements. -/
def ofElements (node : Node) (m : BinaryMetadata) : ReadResult :=
  match m.queryNodeByIndex 0 with
  | none => failed
  | some child => attributes child.size node.count child.type

end ReadResult

/-- `read_enum_by_node`, with the number of bytes to read. -/
def readEnumByNode (p : Platform) (buf : List UInt8) (off : ℕ) (node : Node) (size : ℕ) :
    Option ℤ :=
  if size = 1 ∨ size = 2 ∨ size = 4 ∨ size = 8 then
    (readByNode p buf off node size).map fun data => toSigned size (ofLE data)
  else none

/-- The item of a value: without an enumeration it has the value and no name. -/
def Node.enumItem (node : Node) (val : ℤ) : Option EnumItem :=
  match node.enum with
  | some enum => enum.itemByVal val
  | none => some ⟨"", val⟩

namespace ParserTree

variable (p : Platform) (heap : List (List UInt8)) (t : ParserTree)

/-- What `read_enum` and `read_enum_by_index` share, given the number of bytes to read. -/
def readEnumOf (node : Node) (size : ℕ) : Option EnumItem := do
  if node.type ≠ .enum then none
  else if 8 < node.size then none
  else
    let buf ← heap[t.buffer]?
    let val ← readEnumByNode p buf t.offset node size
    node.enumItem val

/-- `read_enum`. -/
def readEnum (name : String) : Option EnumItem := do
  let node ← t.metadata.queryNode name
  t.readEnumOf p heap node 8

/-- `read_enum_by_index`. -/
def readEnumByIndex (index : ℕ) : Option EnumItem := do
  let node ← t.metadata.queryNodeByIndex index
  t.readEnumOf p heap node node.size

/-- `read_complex` by name; `none` if a null pointer is used. -/
def readComplexNamed (name : String) : Option ReadResult :=
  match t.entry name with
  | none => some .failed
  | some none => none
  | some (some sub) => some (.parser sub)

/-- `read_complex` by index. -/
def readComplexIndexed (index : ℕ) : Option ReadResult :=
  if t.metadata.nodes.length ≤ index then some .failed
  else
    match t.metadata.queryNodeByIndex index with
    | none => some .failed
    | some node => t.readComplexNamed node.name

/-- `read_complex_at` by name, where `elementAt` is the one by index. -/
def elementAtNamed (name : String) (arrayIndex : ℕ) : Option (Option (BinaryMetadata × ℕ)) :=
  match t.metadata.queryNode name with
  | none => some none
  | some node =>
    if node.count ≤ arrayIndex then some none
    else
      node.child.bind fun child => child.nested.map fun m =>
        some (m, node.offset + child.size * arrayIndex)

/-- `read_array_attributes` by name. -/
def arrayAttributesNamed (name : String) : Option ReadResult :=
  match t.metadata.queryNode name with
  | none => some .unset
  | some node =>
    if node.type ≠ .array then some .failed
    else node.nested.map (.ofElements node)

/-- `read_array_attributes` by index. -/
def arrayAttributesIndexed (index : ℕ) : Option ReadResult :=
  match t.metadata.queryNodeByIndex index with
  | none => some .unset
  | some node =>
    if node.type ≠ .array then some .failed
    else
      match t.entry node.name with
      | none => some .unset
      | some none => none
      | some (some sub) => some (.ofElements node sub.metadata)

end ParserTree

/-- The reads that take a field by its name or by its index. -/
inductive FieldRead
  | simple (n : ℕ)
  | string (length : ℕ)
  | enum
  | complex
  | element (n arrayIndex : ℕ)
  | complexAt (arrayIndex : ℕ)
  | arrayAttributes

namespace FieldRead

variable (p : Platform) (heap : List (List UInt8)) (t : ParserTree)

/-- The call by name; `none` if it is undefined. -/
def named (name : String) : FieldRead → Option ReadResult
  | simple n => some (.ofBytes (t.readSimple p heap (.named name) n))
  | string length => some (.ofBytes (t.readString p heap (.named name) length))
  | enum => some (.ofItem (t.readEnum p heap name))
  | complex => t.readComplexNamed name
  | element n arrayIndex => (t.readAt heap (.named name) n arrayIndex).map .ofBytes
  | complexAt arrayIndex => (t.elementAtNamed name arrayIndex).map (.ofElement t.buffer)
  | arrayAttributes => t.arrayAttributesNamed name

/-- The call by index. -/
def indexed (index : ℕ) : FieldRead → Option ReadResult
  | simple n => some (.ofBytes (t.readSimple p heap (.indexed index) n))
  | string length => some (.ofBytes (t.readString p heap (.indexed index) length))
  | enum => some (.ofItem (t.readEnumByIndex p heap index))
  | complex => t.readComplexIndexed index
  | element n arrayIndex => (t.readAt heap (.indexed index) n arrayIndex).map .ofBytes
  | complexAt arrayIndex => (PoolState.elementAt t index arrayIndex).map (.ofElement t.buffer)
  | arrayAttributes => t.arrayAttributesIndexed index

end FieldRead

/-! ### The specification -/

/-- The value of an enumeration field can be read with as many bytes as the field has: it has one,
two or four of them, in the buffer, and an item of its value if there is an enumeration. -/
def EnumReadable (buf : List UInt8) (off : ℕ) (node : Node) : Prop :=
  (node.size = 1 ∨ node.size = 2 ∨ node.size = 4) ∧
    node.size + (off + node.offset) ≤ buf.length ∧
      ∀ enum, node.enum = some enum → ∃ item ∈ enum.items, item.value = toSigned node.size
        (ofLE (convertOrder node.bigEndian (slice buf (off + node.offset) node.size)))

/-- Where the two forms of a call agree. -/
def FieldRead.Agreeing (buf : List UInt8) (t : ParserTree) (node : Node) : FieldRead → Prop
  | enum => node.type = .enum → ¬ EnumReadable buf t.offset node
  | complexAt arrayIndex => arrayIndex < node.count → node.element.isSome = true → t.offset = 0
  | arrayAttributes => node.type = .array → ∃ sub, t.entry node.name = some (some sub)
  | _ => True

/-! ### The theorem -/

namespace FieldRead

variable {p : Platform} {m : BinaryMetadata} {off : ℕ} {top t : ParserTree} {path : List String}
  {heap : List (List UInt8)} {buf : List UInt8} {index : ℕ} {node : Node}

theorem enumItem_isSome_iff {val : ℤ} : (node.enumItem val).isSome = true ↔
    ∀ enum, node.enum = some enum → ∃ item ∈ enum.items, item.value = val := by
  rw [Node.enumItem]
  cases node.enum with
  | none => simp
  | some enum => simp [EnumData.itemByVal]

/-- What is read of a field with as many bytes as it has, of at most four. -/
theorem readEnumOf_isSome_iff (hbuf : heap[t.buffer]? = some buf) (htype : node.type = .enum)
    (hsize : node.size < 8) :
    (t.readEnumOf p heap node node.size).isSome = true ↔ EnumReadable buf t.offset node := by
  rw [ParserTree.readEnumOf, if_neg (not_not_intro htype), if_neg (by omega), hbuf, EnumReadable,
    Option.bind_eq_bind, Option.bind_some, readEnumByNode]
  by_cases hwidth : node.size = 1 ∨ node.size = 2 ∨ node.size = 4 ∨ node.size = 8
  · rw [if_pos hwidth, readByNode, if_neg (lt_irrefl _), if_neg (by simp [htype]), safeRead]
    by_cases hfit : node.size + (t.offset + node.offset) ≤ buf.length
    · rw [if_pos hfit]
      refine enumItem_isSome_iff.trans ?_
      exact ⟨fun h => ⟨by omega, hfit, h⟩, fun h => h.2.2⟩
    · rw [if_neg hfit]
      exact iff_of_false Bool.false_ne_true fun h => hfit h.2.1
  · rw [if_neg hwidth]
    exact iff_of_false Bool.false_ne_true fun h => hwidth (by omega)

/-- `read_enum` reads more bytes than a field of less than eight has. -/
theorem readEnumOf_eight (hsize : node.size < 8) : t.readEnumOf p heap node 8 = none := by
  rw [ParserTree.readEnumOf]
  split_ifs
  · rfl
  · rfl
  · simp [readEnumByNode, readByNode, hsize]

/-- **When the two forms of `read_enum` agree.** -/
theorem readEnum_eq_iff (hbuf : heap[t.buffer]? = some buf)
    (hnode : t.metadata.queryNodeByIndex index = some node)
    (hname : t.metadata.queryNode node.name = some node) :
    t.readEnum p heap node.name = t.readEnumByIndex p heap index ↔
      (node.type = .enum → ¬ EnumReadable buf t.offset node) := by
  rw [ParserTree.readEnum, ParserTree.readEnumByIndex, hnode, hname]
  change t.readEnumOf p heap node 8 = t.readEnumOf p heap node node.size ↔ _
  by_cases htype : node.type = .enum
  · rcases Nat.lt_trichotomy node.size 8 with hlt | heq | hgt
    · rw [readEnumOf_eight hlt, ← readEnumOf_isSome_iff (p := p) hbuf htype hlt,
        Bool.not_eq_true, Option.isSome_eq_false_iff, Option.isNone_iff_eq_none, eq_comm]
      exact ⟨fun h _ => h, fun h => h htype⟩
    · rw [heq]
      refine iff_of_true rfl fun _ h => ?_
      have hwidth := h.1
      omega
    · refine iff_of_true ?_ fun _ h => ?_
      · simp [ParserTree.readEnumOf, hgt]
      · have hwidth := h.1
        omega
  · refine iff_of_true ?_ fun h => absurd h htype
    simp [ParserTree.readEnumOf, htype]

/-- **When the two forms of `read_complex_at` agree.** -/
theorem elementAt_eq_iff {arrayIndex : ℕ}
    (hnode : t.metadata.queryNodeByIndex index = some node)
    (hname : t.metadata.queryNode node.name = some node) :
    (t.elementAtNamed node.name arrayIndex).map (ReadResult.ofElement t.buffer) =
        (PoolState.elementAt t index arrayIndex).map (ReadResult.ofElement t.buffer) ↔
      (arrayIndex < node.count → node.element.isSome = true → t.offset = 0) := by
  simp only [ParserTree.elementAtNamed, PoolState.elementAt, hnode, hname, Node.element]
  by_cases hcount : node.count ≤ arrayIndex
  · rw [if_pos hcount, if_pos hcount]
    exact iff_of_true rfl fun hlt => absurd hlt (not_lt.mpr hcount)
  · rw [if_neg hcount, if_neg hcount]
    cases node.child with
    | none => exact iff_of_true rfl fun _ h => absurd h Bool.false_ne_true
    | some child =>
      simp only [Option.bind_some]
      cases child.nested with
      | none => exact iff_of_true rfl fun _ h => absurd h Bool.false_ne_true
      | some n =>
        simp only [Option.map_some, ReadResult.ofElement, Option.isSome_some, true_implies]
        constructor
        · intro heq _
          -- parsers at different places are different
          have hparser := ReadResult.parser.inj (Option.some.inj heq)
          have hoff := congrArg ParserTree.offset hparser
          rw [ParserTree.offset_create, ParserTree.offset_create] at hoff
          omega
        · intro hzero
          rw [hzero (not_le.mp hcount), Nat.zero_add]

/-- **When the two forms of `read_array_attributes` agree.** -/
theorem arrayAttributes_eq_iff (htop : top.ParserOf m off) (ht : top.descend path = some t)
    (hnames : (t.metadata.nodes.map fun n => n.name).Nodup)
    (hnode : t.metadata.queryNodeByIndex index = some node)
    (hname : t.metadata.queryNode node.name = some node) :
    t.arrayAttributesNamed node.name = t.arrayAttributesIndexed index ↔
      (node.type = .array → ∃ sub, t.entry node.name = some (some sub)) := by
  simp only [ParserTree.arrayAttributesNamed, ParserTree.arrayAttributesIndexed, hnode, hname]
  by_cases htype : node.type = .array
  · rw [if_neg (not_not_intro htype), if_neg (not_not_intro htype)]
    cases hentry : t.entry node.name with
    | none =>
      refine iff_of_false (fun h => ?_) fun h => ?_
      · obtain ⟨n, -, hn⟩ := Option.map_eq_some_iff.mp h
        rw [ReadResult.ofElements] at hn
        split at hn <;> cases hn
      · obtain ⟨sub, hsub⟩ := h htype
        cases hsub
    | some e =>
      cases e with
      | none => exact absurd hentry (htop.entry_ne_null ht hnames)
      | some sub =>
        obtain ⟨g, hg, hgname, hnested, -⟩ := htop.of_entry ht hentry
        obtain rfl : g = node :=
          List.inj_on_of_nodup_map hnames hg (List.mem_of_getElem? hnode) hgname
        rw [hnested]
        exact iff_of_true rfl fun _ => ⟨sub, rfl⟩
  · rw [if_pos htype, if_pos htype]
    exact iff_of_true rfl fun h => absurd h htype

/-- **When a read by name and by index agree**, in a parser of a tree, at any depth. -/
theorem agrees_iff (p : Platform) (htop : top.ParserOf m off) (ht : top.descend path = some t)
    (hnames : (t.metadata.nodes.map fun n => n.name).Nodup)
    (hbuf : heap[t.buffer]? = some buf) (hnode : t.metadata.queryNodeByIndex index = some node)
    (call : FieldRead) :
    call.named p heap t node.name = call.indexed p heap t index ↔ call.Agreeing buf t node := by
  have hname := queryNode_of_mem hnames (List.mem_of_getElem? hnode)
  have href : (FieldRef.named node.name).node t.metadata =
      (FieldRef.indexed index).node t.metadata :=
    hname.trans hnode.symm
  cases call with
  | simple n =>
    refine iff_of_true ?_ trivial
    simp only [named, indexed, ParserTree.readSimple, href]
  | string length =>
    refine iff_of_true ?_ trivial
    simp only [named, indexed, ParserTree.readString, href]
  | enum =>
    rw [named, indexed, ReadResult.ofItem_inj]
    exact readEnum_eq_iff hbuf hnode hname
  | complex =>
    refine iff_of_true ?_ trivial
    have hlt := (List.getElem?_eq_some_iff.mp hnode).1
    simp only [named, indexed, ParserTree.readComplexIndexed, if_neg (not_le.mpr hlt), hnode]
  | element n arrayIndex =>
    refine iff_of_true ?_ trivial
    simp only [named, indexed, ParserTree.readAt, hnode]
  | complexAt arrayIndex => exact elementAt_eq_iff hnode hname
  | arrayAttributes => exact arrayAttributes_eq_iff htop ht hnames hnode hname

/-! ### An enumeration field and an array of records -/

/-- An array of one record of a byte. -/
def recordArray : BinaryMetadata :=
  (empty false).appendArray { (empty false).newNode "v" 1 .array with options := .reset } 1 1
    ((empty false).nestMetadata "v[1]" ((empty false).put "x" 1 .uint8 .reset))

/-- An enumeration field of a byte, and such an array in a record behind it. -/
def enumBeforeRecords : BinaryMetadata :=
  ((empty false).putEnum "e" 1 none .reset).nestMetadata "c" recordArray

/-- The attributes of the array, through the parser of its record. -/
theorem agrees_iff_attributes :
    ∃ t node, (ParserTree.create 0 enumBeforeRecords 0).descend ["c"] = some t ∧
      t.metadata.queryNodeByIndex 0 = some node ∧
      (arrayAttributes.named ⟨fun _ _ => 0⟩ [[5, 6]] t node.name =
          arrayAttributes.indexed ⟨fun _ _ => 0⟩ [[5, 6]] t 0 ↔
        arrayAttributes.Agreeing [5, 6] t node) :=
  ⟨_, _, rfl, rfl, agrees_iff ⟨fun _ _ => 0⟩ (.made 0)
    (rfl : (ParserTree.create 0 enumBeforeRecords 0).descend ["c"] = _) (by decide) rfl rfl _⟩

/-- The enumeration field is not read by name, and the record of the array is looked for at the
beginning of the buffer. -/
theorem not_agrees :
    enum.named ⟨fun _ _ => 0⟩ [[5, 6]] (.create 0 enumBeforeRecords 0) "e" ≠
        enum.indexed ⟨fun _ _ => 0⟩ [[5, 6]] (.create 0 enumBeforeRecords 0) 0 ∧
      ∃ t, (ParserTree.create 0 enumBeforeRecords 0).descend ["c"] = some t ∧
        (complexAt 0).named ⟨fun _ _ => 0⟩ [[5, 6]] t "v" ≠
          (complexAt 0).indexed ⟨fun _ _ => 0⟩ [[5, 6]] t 0 := by
  refine ⟨fun h => ?_, _, rfl, fun h => ?_⟩
  · have hfailed : some ReadResult.failed = some (ReadResult.item ⟨"", 5⟩) := h
    cases hfailed
  · have hoff : some 0 = some 1 := congrArg (fun r => r.map fun
      | .parser t => t.offset
      | _ => 2) h
    cases hoff

end FieldRead

end UtilityFramework
