import Mathlib.Data.List.Induction
import UtilityFramework.Core.TypeNames
import UtilityFramework.Parsers.Json
import UtilityFramework.Parsers.OptionText

/-!
# Metadata as JSON

`binary_metadata_impl::schema_to_json` and `json_to_schema`. The first writes one entry for
each node; the second makes the builder calls that the entries ask for. It keeps the options
it has read so far in one variable, which every entry overwrites in part.

A `none` stands for an exception or for undefined behaviour. Enumerations are taken from the
store, a function from names to enumerations.
-/

namespace UtilityFramework

namespace Json

/-- `get<size_t>()`; `none` if the library throws. -/
def getSize : Json → Option ℕ
  | num n => some (if 0 ≤ n then n.toNat else (n % 2 ^ 64).toNat)
  | bool b => some b.toNat
  | _ => none

end Json

namespace Schema

open Json

/-! ### The writer -/

/-- The members of `options`. -/
def optionFields (min max default : Option String) : Fields :=
  (min.map fun t => ("minval", str t)).toList ++
    ((max.map fun t => ("maxval", str t)).toList ++
      (default.map fun t => ("defval", str t)).toList)

/-- The member `options`, if it has members. -/
def optionMember (min max default : Option String) : Fields :=
  if (optionFields min max default).isEmpty then []
  else [("options", obj (optionFields min max default))]

/-- The options of a field of the given type, as a member. -/
def optionsToJson (type : TypeEnum) (o : SimpleOptions) : Option Fields := do
  let min ← o.min.text type
  let max ← o.max.text type
  let default ← o.default.text type
  return optionMember min max default

/-- The member `enum`. -/
def enumMember (enum : Option EnumData) : Fields :=
  (enum.map fun e => ("enum", str e.name)).toList

/-- The members of the entry of an array, given the JSON of the metadata of an element; the
inner `none` if `schema_to_json` returns false. -/
def arrayMembers (node : Node) (elementJson : Option (Json × Bool)) : Option (Option Fields) :=
  match node.nested, node.child with
  | none, _ => some (some [])
  | some _, none => some (some [("length", num node.count)])
  | some _, some child =>
    match child.type.getTypeName with
    | none => some none
    | some typeName =>
      let members : Fields :=
        [("length", num node.count), ("array_type", str typeName), ("type_size", num child.size)]
      if child.type = .complex then
        -- The result of the call is ignored.
        elementJson.map fun r => some (members ++ [("data", r.1)])
      else if child.type.HasOptions then
        (optionsToJson child.type child.options).map fun o =>
          some (members ++ (o ++ enumMember node.enum))
      else some (some members)

/-- The type of a bit field as text; `none` if the node is not a bit field, which is
undefined. -/
def bitTypeName (node : Node) : Option String :=
  match (TypeEnum.getTypeBySize node.size true).getTypeName with
  | none => some "bitmap"
  | some block => node.bits.map fun bits => TypeEnum.bitName block bits.numOfBits

/-- The entry of a node, given its type and the members after it. -/
def entry (node : Node) (typeName : String) (members : Fields) : Json :=
  obj (("name", str node.name) :: ("size", num node.size) :: ("type", str typeName) :: members)

/-- One node of `schema_to_json`, given the JSON of what it nests and of an element; the inner
`none` if `schema_to_json` returns false. -/
def fieldToJson (node : Node) (nestedJson elementJson : Option (Json × Bool)) :
    Option (Option Json) :=
  match node.type.getTypeName with
  | none => some none
  | some typeName =>
    if node.type.HasOptions then
      (optionsToJson node.type node.options).map fun o =>
        some (entry node typeName (o ++ enumMember (if node.type = .enum then node.enum else none)))
    else
      match node.type with
      | .string =>
        let default := if node.defString = "" then none else some node.defString
        some (some (entry node typeName (optionMember none none default)))
      | .array => (arrayMembers node elementJson).map fun r => r.map (entry node typeName)
      | .complex =>
        match node.nested with
        | none => some none
        | some _ =>
          nestedJson.map fun r => if r.2 then some (entry node typeName [("data", r.1)]) else none
      | .bitmap => (bitTypeName node).map fun name => some (entry node name [])
      | _ => some (some (entry node typeName []))

/-- The JSON of a metadata, given the entries of its nodes; without the entries if one of them
failed. A list to which nothing was added is null. -/
def schemaJson (bigEndian : Bool) (name : String) : Option (List Json) → Json × Bool
  | none => (obj [("schema_name", str name), ("big_endian", bool bigEndian)], false)
  | some entries =>
    (obj [("schema_name", str name), ("big_endian", bool bigEndian),
      ("data", if entries.isEmpty then null else arr entries)], true)

section Writer

variable (bigEndian : Bool)

mutual

/-- `schema_to_json`, for a metadata that writes the given byte order: also what it nests is
written with the byte order of the outermost metadata. -/
def schemaToJson : BinaryMetadata → Option (Json × Bool)
  | .mk _ name nodes _ => (nodesToJson nodes).map (schemaJson bigEndian name)
termination_by structural m => m

/-- The loop of `schema_to_json`. -/
def nodesToJson : List Node → Option (Option (List Json))
  | [] => some (some [])
  | node :: rest =>
    match nodeToJson node with
    | none => none
    | some none => some none
    | some (some e) => (nodesToJson rest).map fun r => r.map fun l => e :: l
termination_by structural nodes => nodes

/-- One node with what it nests. -/
def nodeToJson : Node → Option (Option Json)
  | ⟨name, offset, size, type, bigEndian, options, defString, nested, enum, count, bits⟩ =>
    fieldToJson
      ⟨name, offset, size, type, bigEndian, options, defString, nested, enum, count, bits⟩
      (nestedToJson nested) (elementToJson nested)
termination_by structural node => node

/-- The JSON of a nested metadata. -/
def nestedToJson : Option BinaryMetadata → Option (Json × Bool)
  | none => none
  | some m => schemaToJson m
termination_by structural nested => nested

/-- The JSON of the metadata of the elements of an array. -/
def elementToJson : Option BinaryMetadata → Option (Json × Bool)
  | some (.mk _ _ (⟨_, _, _, _, _, _, _, nested, _, _, _⟩ :: _) _) => nestedToJson nested
  | _ => none
termination_by structural nested => nested

end

end Writer

/-! ### The reader -/

/-- The text of an option of an entry; the inner `none` if it is not there. -/
def optionText (fields : Fields) (key : String) : Option (Option String) :=
  match fields.get? "options" with
  | none | some .null => some none
  | some (.obj options) =>
    match Fields.get? options key with
    | none | some .null => some none
    | some value => value.getString.map some
  | some _ => none

/-- The options after those of an entry have been read. -/
def readOptions (fields : Fields) (type : TypeEnum) (o : SimpleOptions) :
    Option SimpleOptions := do
  let default ← o.default.read type (← optionText fields "defval")
  let min ← o.min.read type (← optionText fields "minval")
  let max ← o.max.read type (← optionText fields "maxval")
  return .ofBounds min max default

/-- The enumeration of an entry, if it has one and the store knows it. -/
def readEnum (enums : String → Option EnumData) (fields : Fields) : Option (Option EnumData) :=
  match fields.get? "enum" with
  | none | some .null => some none
  | some value => value.getString.map enums

/-- The metadata so far and the variable `options`. -/
abbrev State := BinaryMetadata × SimpleOptions

section Field

variable (enums : String → Option EnumData) (fields : Fields)
  (data : BinaryMetadata → Option (BinaryMetadata × Bool))

/-- The cases of `json_to_schema` on the type of the elements of an array. The results of the
calls are ignored, and an array of other elements is dropped. -/
def readElements (name : String) (len : ℕ) (typeName : String) (typeSize : ℕ) (s : State) :
    Option State :=
  let arrayType := TypeEnum.getType typeName
  if arrayType = .complex then do
    let (element, _) ← data (.empty s.1.bigEndian)
    let m ← s.1.array name typeSize arrayType len s.2 (some element)
    return (m, s.2)
  else if arrayType.HasOptions then do
    let o ← readOptions fields arrayType s.2
    match ← readEnum enums fields with
    | some enum => return (s.1.arrayEnum name len typeSize o enum, o)
    | none =>
      let m ← s.1.array name typeSize arrayType len o none
      return (m, o)
  else if arrayType = .string then do
    match ← optionText fields "defval" with
    | none => none
    | some text => return (s.1.arrayString name typeSize len text, s.2)
  else some s

/-- The `ARRAY` case of `json_to_schema`, given the reader of the member `data`. -/
def readArray (name : String) (s : State) : Option State := do
  let len ← (fields.get? "length").bind getSize
  let typeName ← (fields.get? "array_type").bind getString
  let typeSize ← (fields.get? "type_size").bind getSize
  readElements enums fields data name len typeName typeSize s

/-- The cases of `json_to_schema` on the type of an entry: the state after it, and whether the
loop goes on. -/
def readTyped (name : String) (size : ℕ) (typeName : String) (s : State) :
    Option (State × Bool) :=
  match TypeEnum.getType typeName with
  | .string =>
    (optionText fields "defval").map fun default =>
      ((s.1.putString name size (default.getD ""), s.2), true)
  | .complex =>
    -- The result of the call is ignored.
    (data (.empty s.1.bigEndian)).map fun r => ((s.1.nestMetadata name r.1, s.2), true)
  | .array => (readArray enums fields data name s).map fun s' => (s', true)
  | .bitmap =>
    (TypeEnum.getBitmapSizes typeName).bind fun
      | none => some (s, true)
      | some (numOfBits, numOfBytes) =>
        (s.1.putBits name numOfBits numOfBytes).map fun r => ((r.1, s.2), r.2)
  | type => do
    let o ← readOptions fields type s.2
    if type = .enum then
      match ← readEnum enums fields with
      | some enum => return ((s.1.putEnum name size (some enum) o, o), true)
      | none => return ((s.1.put name size type o, o), true)
    else return ((s.1.put name size type o, o), true)

/-- One entry of `json_to_schema`, given the reader of the member `data`. -/
def readField (s : State) : Option (State × Bool) := do
  let size ← (fields.get? "size").bind getSize
  let typeName ← (fields.get? "type").bind getString
  let name ← (fields.get? "name").bind getString
  readTyped enums fields data name size typeName s

end Field

section Reader

variable (enums : String → Option EnumData)

mutual

/-- `json_to_schema` on a metadata: the metadata after it, and its result. -/
def jsonToSchema : Json → BinaryMetadata → Option (BinaryMetadata × Bool)
  | .obj fields, m =>
    match (Fields.get? fields "schema_name").bind getString,
      (Fields.get? fields "big_endian").bind getBool with
    | some _, some bigEndian => readData fields (.mk bigEndian m.name m.nodes m.size)
    | _, _ => none
  | _, _ => none
termination_by structural json => json

/-- The loop of `json_to_schema` over the member `data`. -/
def readData : List (String × Json) → BinaryMetadata → Option (BinaryMetadata × Bool)
  | [], m => some (m, true)
  | (key, value) :: rest, m =>
    if key = "data" then (readItems value (m, .reset)).map fun r => (r.1.1, r.2)
    else readData rest m
termination_by structural fields => fields

/-- The loop over the items of a value. A value that has none is an item itself, and then no
entry. -/
def readItems : Json → State → Option (State × Bool)
  | .null, s => some (s, true)
  | .arr entries, s => readEntries entries s
  | .obj members, s => readMembers members s
  | _, _ => none
termination_by structural json => json

/-- The loop over the items of an array. -/
def readEntries : List Json → State → Option (State × Bool)
  | [], s => some (s, true)
  | e :: rest, s =>
    match readEntry e s with
    | none => none
    | some (s', false) => some (s', false)
    | some (s', true) => readEntries rest s'
termination_by structural entries => entries

/-- The loop over the values of the members of an object. -/
def readMembers : List (String × Json) → State → Option (State × Bool)
  | [], s => some (s, true)
  | (_, e) :: rest, s =>
    match readEntry e s with
    | none => none
    | some (s', false) => some (s', false)
    | some (s', true) => readMembers rest s'
termination_by structural members => members

/-- One entry. -/
def readEntry : Json → State → Option (State × Bool)
  | .obj fields, s => readField enums fields (readNested fields) s
  | _, _ => none
termination_by structural json => json

/-- `json_to_schema` of the member `data` of an entry; without it, the null value has no
name. -/
def readNested : List (String × Json) → BinaryMetadata → Option (BinaryMetadata × Bool)
  | [], _ => none
  | (key, value) :: rest, m => if key = "data" then jsonToSchema value m else readNested rest m
termination_by structural fields => fields

end

end Reader

/-! ### Equations -/

theorem schemaToJson_eq (b : Bool) (m : BinaryMetadata) :
    schemaToJson b m = (nodesToJson b m.nodes).map (schemaJson b m.name) := by
  cases m
  rfl

theorem nodeToJson_eq (b : Bool) (node : Node) :
    nodeToJson b node = fieldToJson node (node.nested.bind (schemaToJson b))
      (node.element.bind (schemaToJson b)) := by
  have hnested : nestedToJson b node.nested = node.nested.bind (schemaToJson b) := by
    cases node.nested <;> rfl
  have helement : elementToJson b node.nested = node.element.bind (schemaToJson b) := by
    obtain ⟨_, _, _, _, _, _, _, nested, _, _, _⟩ := node
    rcases nested with _ | ⟨_, _, _ | ⟨⟨_, _, _, _, _, _, _, inner, _, _, _⟩, rest⟩, _⟩
    · rfl
    · rfl
    · cases inner <;> rfl
  rw [← hnested, ← helement]
  cases node
  rfl

theorem nodesToJson_cons (b : Bool) (node : Node) (rest : List Node) :
    nodesToJson b (node :: rest) =
      match nodeToJson b node with
      | none => none
      | some none => some none
      | some (some e) => (nodesToJson b rest).map fun r => r.map fun l => e :: l := rfl

/-- The entries of a longer list of nodes. -/
theorem nodesToJson_append {b : Bool} {nodes : List Node} {node : Node} {entries' : List Json} :
    nodesToJson b (nodes ++ [node]) = some (some entries') ↔
      ∃ entries e, nodesToJson b nodes = some (some entries) ∧
        nodeToJson b node = some (some e) ∧ entries' = entries ++ [e] := by
  induction nodes generalizing entries' with
  | nil =>
    rw [List.nil_append, nodesToJson_cons]
    rcases h : nodeToJson b node with _ | _ | e
    · simp
    · simp
    · constructor
      · intro hone
        obtain rfl : [e] = entries' := Option.some.inj (Option.some.inj hone)
        exact ⟨[], e, rfl, rfl, rfl⟩
      · rintro ⟨entries, e', hentries, he', rfl⟩
        obtain rfl : [] = entries := Option.some.inj (Option.some.inj hentries)
        obtain rfl : e = e' := Option.some.inj (Option.some.inj he')
        rfl
  | cons first nodes ih =>
    rw [List.cons_append, nodesToJson_cons, nodesToJson_cons]
    rcases h : nodeToJson b first with _ | _ | e₀
    · simp
    · simp
    · constructor
      · intro hmap
        obtain ⟨r, hr, hcons⟩ := Option.map_eq_some_iff.mp hmap
        obtain ⟨l, rfl, rfl⟩ := Option.map_eq_some_iff.mp hcons
        obtain ⟨entries, e, hentries, he, rfl⟩ := ih.mp hr
        exact ⟨e₀ :: entries, e, by rw [hentries]; rfl, he, rfl⟩
      · rintro ⟨entries, e, hentries, he, rfl⟩
        obtain ⟨r, hr, hcons⟩ := Option.map_eq_some_iff.mp hentries
        obtain ⟨l, rfl, rfl⟩ := Option.map_eq_some_iff.mp hcons
        have hall := ih.mpr ⟨l, e, hr, he, rfl⟩
        simp only [hall, Option.map_some, List.cons_append]

theorem length_of_nodesToJson {b : Bool} {nodes : List Node} {entries : List Json}
    (h : nodesToJson b nodes = some (some entries)) : entries.length = nodes.length := by
  induction nodes using List.reverseRecOn generalizing entries with
  | nil =>
    rw [← Option.some.inj (Option.some.inj h)]
    rfl
  | append_singleton nodes node ih =>
    obtain ⟨entries, e, hentries, -, rfl⟩ := nodesToJson_append.mp h
    simp [ih hentries]

/-! ### Options of an entry -/

/-- The texts of the options of an entry. -/
structure OptionTexts (fields : Fields) (min max default : Option String) : Prop where
  min : optionText fields "minval" = some min
  max : optionText fields "maxval" = some max
  default : optionText fields "defval" = some default

theorem OptionTexts.cons {fields : Fields} {min max default : Option String}
    (h : OptionTexts fields min max default) {key : String} (hkey : key ≠ "options")
    (value : Json) : OptionTexts ((key, value) :: fields) min max default := by
  have hget : Fields.get? ((key, value) :: fields) "options" = fields.get? "options" := by
    rw [Fields.get?_cons, if_neg hkey]
  obtain ⟨hmin, hmax, hdefault⟩ := h
  rw [optionText] at hmin hmax hdefault
  refine ⟨?_, ?_, ?_⟩ <;> rw [optionText, hget]
  · exact hmin
  · exact hmax
  · exact hdefault

theorem optionTexts_optionMember (min max default : Option String) (rest : Fields)
    (hrest : rest.get? "options" = none) :
    OptionTexts (optionMember min max default ++ rest) min max default := by
  have hget : (optionMember min max default ++ rest).get? "options" =
      if (optionFields min max default).isEmpty then none
      else some (obj (optionFields min max default)) := by
    rw [Fields.get?_append, hrest, optionMember]
    split <;> rfl
  cases min <;> cases max <;> cases default <;> constructor <;> rw [optionText, hget] <;> rfl

theorem optionTexts_of_not_mem {fields : Fields} (h : fields.get? "options" = none) :
    OptionTexts fields none none none := by
  refine ⟨?_, ?_, ?_⟩ <;> rw [optionText, h]

theorem get?_enumMember (enum : Option EnumData) :
    (enumMember enum).get? "options" = none := by
  cases enum <;> rfl

theorem readOptions_eq {fields : Fields} {min max default : Option String}
    (h : OptionTexts fields min max default) (type : TypeEnum) (o : SimpleOptions) :
    readOptions fields type o = do
      let default' ← o.default.read type default
      let min' ← o.min.read type min
      let max' ← o.max.read type max
      return .ofBounds min' max' default' := by
  simp only [readOptions, h.min, h.max, h.default]
  rfl

/-- Without texts the options stay as they are. -/
theorem readOptions_none {fields : Fields} (h : fields.get? "options" = none)
    (type : TypeEnum) (o : SimpleOptions) : readOptions fields type o = some o :=
  readOptions_eq (optionTexts_of_not_mem h) type o

theorem optionsToJson_eq_some {type : TypeEnum} {o : SimpleOptions} {members : Fields} :
    optionsToJson type o = some members ↔
      ∃ min max default, o.min.text type = some min ∧ o.max.text type = some max ∧
        o.default.text type = some default ∧ members = optionMember min max default := by
  simp only [optionsToJson, Option.bind_eq_bind, Option.bind_eq_some_iff, Option.pure_def,
    Option.some.injEq]
  constructor
  · rintro ⟨min, hmin, max, hmax, default, hdefault, rfl⟩
    exact ⟨min, max, default, hmin, hmax, hdefault, rfl⟩
  · rintro ⟨min, max, default, hmin, hmax, hdefault, rfl⟩
    exact ⟨min, hmin, max, hmax, default, hdefault, rfl⟩

/-- Options that are kept are written and read back. -/
theorem readOptions_of_kept {type : TypeEnum} {size : ℕ} {carried o : SimpleOptions}
    (hopt : type.HasOptions) (h : SimpleOptions.Kept type size carried o) :
    ∃ min max default, o.min.text type = some min ∧ o.max.text type = some max ∧
      o.default.text type = some default ∧
      ∀ fields, OptionTexts fields min max default →
        readOptions fields type carried = some (SimpleOptions.after type carried o) := by
  obtain ⟨min, hmin, hmin'⟩ := h.min.read hopt
  obtain ⟨max, hmax, hmax'⟩ := h.max.read hopt
  obtain ⟨default, hdefault, hdefault'⟩ := h.default.read hopt
  refine ⟨min, max, default, hmin, hmax, hdefault, fun fields hfields => ?_⟩
  rw [readOptions_eq hfields, hmin', hmax', hdefault']
  rfl

/-- **Options that are written and read back** say the same precisely if they are kept. -/
theorem agrees_iff_kept {type : TypeEnum} {size : ℕ} {carried o o' : SimpleOptions}
    {fields : Fields} {min max default : Option String} (hopt : type.HasOptions)
    (hmin : o.min.text type = some min) (hmax : o.max.text type = some max)
    (hdefault : o.default.text type = some default)
    (hfields : OptionTexts fields min max default)
    (hread : readOptions fields type carried = some o') :
    SimpleOptions.Agrees (type.valueBytes size) o' o ↔
      SimpleOptions.Kept type size carried o := by
  rw [readOptions_eq hfields] at hread
  obtain ⟨default', hdefault', hread⟩ := Option.bind_eq_some_iff.mp hread
  obtain ⟨min', hmin', hread⟩ := Option.bind_eq_some_iff.mp hread
  obtain ⟨max', hmax', hread⟩ := Option.bind_eq_some_iff.mp hread
  obtain rfl := Option.some.inj hread
  have hminIff := Bound.value_eq_iff size hopt hmin hmin'
  have hmaxIff := Bound.value_eq_iff size hopt hmax hmax'
  have hdefaultIff := Bound.value_eq_iff size hopt hdefault hdefault'
  constructor
  · rintro ⟨h₁, h₂, h₃⟩
    exact ⟨hminIff.mp h₁, hmaxIff.mp h₂, hdefaultIff.mp h₃⟩
  · rintro ⟨h₁, h₂, h₃⟩
    exact ⟨hminIff.mpr h₁, hmaxIff.mpr h₂, hdefaultIff.mpr h₃⟩

/-! ### Reading entries -/

section Reading

variable {enums : String → Option EnumData}

theorem readEntries_cons (e : Json) (rest : List Json) (s : State) :
    readEntries enums (e :: rest) s =
      match readEntry enums e s with
      | none => none
      | some (s', false) => some (s', false)
      | some (s', true) => readEntries enums rest s' := rfl

/-- Reading a longer list of entries. -/
theorem readEntries_append {entries : List Json} {e : Json} {s : State} :
    readEntries enums (entries ++ [e]) s =
      (readEntries enums entries s).bind fun r =>
        if r.2 then readEntry enums e r.1 else some r := by
  induction entries generalizing s with
  | nil =>
    have hnil : readEntries enums [] s = some (s, true) := rfl
    rw [List.nil_append, readEntries_cons, hnil, Option.bind_some, if_pos rfl]
    rcases readEntry enums e s with _ | ⟨s', _ | _⟩ <;> rfl
  | cons first entries ih =>
    rw [List.cons_append, readEntries_cons, readEntries_cons]
    rcases readEntry enums first s with _ | ⟨s', _ | _⟩
    · rfl
    · rfl
    · exact ih

/-- Reading the JSON of a metadata whose nodes were all written. -/
theorem jsonToSchema_schemaJson (b b₀ : Bool) (name : String) (entries : List Json) :
    jsonToSchema enums (schemaJson b name (some entries)).1 (.empty b₀) =
      (readEntries enums entries (.empty b, .reset)).map fun r => (r.1.1, r.2) := by
  cases entries <;> rfl

theorem readEntry_entry (node : Node) (typeName : String) (members : Fields) (s : State) :
    readEntry enums (entry node typeName members) s =
      readTyped enums
        (("name", str node.name) :: ("size", num node.size) :: ("type", str typeName) :: members)
        (readNested enums members) node.name node.size typeName s := by
  rfl

end Reading

end Schema

end UtilityFramework
