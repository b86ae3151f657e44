import UtilityFramework.Parsers.BinaryParser
import UtilityFramework.Parsers.Json

/-!
# Records as JSON

`binary_parser_impl::json` and `binary_parser_impl::from_json`: the encoder and the decoder of
the fields of a record, each a switch over the type of the field that recurs into nested
metadata and into the elements of arrays. The encoder goes on after a field it cannot
write, with an error text in its place and its result false; the decoder stops at the first
field it cannot read.

Both are partial: `none` stands for an exception, for undefined behaviour, and for what the
model leaves out (`FLOAT` and `DOUBLE` values; an `ENUM`, `ARRAY` or `COMPLEX` field that
shares its name with another field of the same metadata, for which a nested parser is a null
pointer or a member is written into; nested fields without a metadata).
-/

namespace UtilityFramework

open Bytes

/-- `core::parsers::json_details_level`. -/
inductive JsonDetailsLevel
  | enumValues
  | enumLables
  | enumFull
  deriving DecidableEq, Repr

/-- `BUFF_MAX_SIZE`. -/
def buffMaxSize : ℕ := 5000

namespace ErrorText

/-- `ERROR_EXPRESION`. -/
def inField : String := "<<<ERROR:: in field>>>"

/-- `OUTOFBOUND_EXPRESION`. -/
def outOfBound : String := "<<<ERROR:: value out of bounds>>>"

/-- `ENUM_VALUEOUTOFBOUNDS_EXPRESION`. -/
def enumValueOutOfBounds : String := "<<<ERROR::enum value out of bounds>>>"

/-- `TOO_BIG_EXPRESION`. -/
def tooBig : String := "<<<ERROR::Data too big>>>"

/-- `INTERNAL_OBJ_FAILED_EXPRESION`. -/
def internalObjFailed : String := "<<<ERROR:: in internal object field>>>"

/-- An error text with the number it is about. -/
def withNumber (text : String) (n : ℕ) : Json := .str (text ++ "(" ++ toString n ++ ")")

end ErrorText

/-! ### The encoder -/

section Encoder

variable (p : Platform) (level : JsonDetailsLevel) (src : List UInt8) (names : List String)

/-- `read_simple` and the conversion of the value to JSON. -/
def simpleToJson (node : Node) (off : ℕ) : Option Json :=
  match node.type with
  | .bool => (readByNode p src off node 1).map fun data => .bool (ofLE data ≠ 0)
  | type => do
    let (w, signed) ← type.integerFormat
    let data ← readByNode p src off node w
    return .num (toInteger w signed (ofLE data))

/-- `bitmap_to_json`: its result and the value of the member. -/
def bitmapToJson (node : Node) (off : ℕ) : Bool × Option Json :=
  match readByNode p src off node node.size with
  | none => (false, none)
  | some data => (true, some (.num (ofLE data)))

/-- `enum_val_to_json`. -/
def enumValToJson (enum : Option EnumData) (val : ℤ) : Bool × Json :=
  let failed (text : String) : Bool × Json :=
    if level = .enumFull then (false, .obj [("name", .str text)]) else (false, .str text)
  match enum with
  | none => failed ErrorText.inField
  | some enum =>
    match enum.itemByVal val, level with
    | none, .enumFull =>
      (false, .obj [("name", .str ErrorText.enumValueOutOfBounds), ("val", .num val)])
    | none, _ => (false, .str ErrorText.enumValueOutOfBounds)
    | some item, .enumFull => (true, .obj [("name", .str item.name), ("val", .num item.value)])
    | some item, .enumLables => (true, .str item.name)
    | some item, .enumValues => (true, .num item.value)

/-- `enum_node_to_json` with `read_enum_by_node`. -/
def enumNodeToJson (node : Node) (off : ℕ) : Bool × Json :=
  if 8 < node.size then (false, .null)
  else
    let data :=
      if node.size = 1 ∨ node.size = 2 ∨ node.size = 4 ∨ node.size = 8 then
        readByNode p src off node node.size
      else none
    match data with
    | none =>
      if level = .enumFull then (false, .obj [("name", .str ErrorText.inField)])
      else (false, .str ErrorText.inField)
    | some data => enumValToJson level node.enum (toSigned node.size (ofLE data))

/-- The `STRING` case; a text that does not end in the field is undefined. -/
def stringToJson (node : Node) (off : ℕ) : Option (Bool × Json) :=
  if buffMaxSize < node.size then some (false, .str ErrorText.inField)
  else
    match readByNode p src off node node.size with
    | none => some (false, .str ErrorText.inField)
    | some data =>
      if 0 ∈ data then some (true, .str (Text.ofBytes (Text.untilNul data))) else none

/-- The `BUFFER` case. -/
def bufferToJson (node : Node) (off : ℕ) : Bool × Json :=
  if buffMaxSize < node.size then (false, ErrorText.withNumber ErrorText.tooBig node.size)
  else
    match readByNode p src off node node.size with
    | none => (false, .str ErrorText.inField)
    | some data => (true, .str (Text.buf2hexString data))

/-- The loop over the elements of an array: the results together, and the values. -/
def collectJson (element : ℕ → Option (Bool × Json)) : ℕ → Option (Bool × List Json)
  | 0 => some (true, [])
  | n + 1 => do
    let (ok, values) ← collectJson element n
    let (ok', value) ← element n
    return (ok && ok', values ++ [value])

/-- An element of an array that is not complex, in `array_to_json`. An element that cannot be
read is zero. -/
def elementValueToJson (node child : Node) (off index : ℕ) : Option (Bool × Json) :=
  if 8 < child.size then none
  else
    let data := ofLE ((readAt src off node child index).getD [])
    if child.type = .enum then some (enumValToJson level node.enum (toSigned 8 data))
    else if child.options.isInBounds child.type data then
      if child.type = .double ∨ child.type = .float then none else some (true, .num data)
    else some (false, ErrorText.withNumber ErrorText.outOfBound data)

/-- An element of an array, given the encoder of complex elements at an offset. -/
def arrayElementToJson (node child : Node) (off : ℕ)
    (elementJson : ℕ → Option (Bool × Json.Fields)) (index : ℕ) : Option (Bool × Json) :=
  if child.type = .complex then
    (elementJson (off + node.offset + child.size * index)).map fun r => (r.1, .ofFields r.2)
  else elementValueToJson level src node child off index

/-- `array_to_json`, given the encoder of complex elements at an offset. -/
def arrayToJson (node : Node) (off : ℕ) (elementJson : ℕ → Option (Bool × Json.Fields)) :
    Option (Bool × Option Json) :=
  match node.child with
  | none => none
  | some child =>
    if child.type = .enum ∧ child.enum = none then
      some (false, some (.str ErrorText.inField))
    else do
      let (ok, values) ←
        collectJson (arrayElementToJson level src node child off elementJson) node.count
      return (ok, if values.isEmpty then none else some (.arr values))

/-- One field of `binary_parser_impl::json`, given the names of the fields, the JSON of the
nested metadata and the encoder of an element: the result, and the value of the member if
one is written. -/
def fieldToJson (node : Node) (off : ℕ) (nestedJson : Option (Bool × Json.Fields))
    (elementJson : ℕ → Option (Bool × Json.Fields)) : Option (Bool × Option Json) :=
  match node.type with
  | .bitmap => some (bitmapToJson p src node off)
  | .enum =>
    if names.count node.name = 1 then
      let r := enumNodeToJson p level src node off
      some (r.1, some r.2)
    else none
  | .string => (stringToJson p src node off).map fun r => (r.1, some r.2)
  | .buffer =>
    let r := bufferToJson p src node off
    some (r.1, some r.2)
  | .array =>
    if names.count node.name = 1 then arrayToJson level src node off elementJson else none
  | .complex =>
    if names.count node.name = 1 then
      nestedJson.map fun r =>
        if r.2.isEmpty then (false, some (.str ErrorText.internalObjFailed))
        else (r.1, some (.obj r.2))
    else none
  | type =>
    if type.isSimpleType then do
      let valid ← validate p src off node
      if valid then
        let value ← simpleToJson p src node off
        return (true, some value)
      else return (false, some (.str ErrorText.outOfBound))
    else some (true, none)

end Encoder

section EncoderRecursion

variable (p : Platform) (level : JsonDetailsLevel) (src : List UInt8)

mutual

/-- `binary_parser_impl::json` for the record at an offset: the result and the members. -/
def BinaryMetadata.json : BinaryMetadata → ℕ → Option (Bool × Json.Fields)
  | .mk _ _ nodes _, off =>
    (nodesToJson (nodes.map fun node => node.name) nodes off).map fun r =>
      (r.1, Json.Fields.assign r.2)
termination_by structural m => m

/-- The loop of `binary_parser_impl::json`: the assignments it makes. -/
def nodesToJson (names : List String) : List Node → ℕ → Option (Bool × List (String × Json))
  | [], _ => some (true, [])
  | node :: rest, off => do
    let (ok, value) ← nodeToJson names node off
    let (ok', assignments) ← nodesToJson names rest off
    return (ok && ok', (value.map fun v => (node.name, v)).toList ++ assignments)
termination_by structural nodes => nodes

/-- One field with what it nests. -/
def nodeToJson (names : List String) : Node → ℕ → Option (Bool × Option Json)
  | ⟨name, offset, size, type, bigEndian, options, defString, nested, enum, count, bits⟩, off =>
    fieldToJson p level src names
      ⟨name, offset, size, type, bigEndian, options, defString, nested, enum, count, bits⟩ off
      (nestedToJson nested (off + offset)) (elementToJson nested)
termination_by structural node => node

/-- The JSON of a nested metadata. -/
def nestedToJson : Option BinaryMetadata → ℕ → Option (Bool × Json.Fields)
  | none, _ => none
  | some m, off => m.json off
termination_by structural nested => nested

/-- The encoder of an element of an array of complex elements. -/
def elementToJson : Option BinaryMetadata → ℕ → Option (Bool × Json.Fields)
  | some (.mk _ _ (⟨_, _, _, _, _, _, _, nested, _, _, _⟩ :: _) _), off => nestedToJson nested off
  | _, _ => none
termination_by structural nested => nested

end

end EncoderRecursion

/-! ### The decoder -/

/-- How a field of the decoder's switch ends: `return false`, `continue`, or `break`, after
which the field is validated; each with the buffer then. -/
inductive Decoded
  | failed (buf : List UInt8)
  | done (buf : List UInt8)
  | written (buf : List UInt8)

namespace Decoded

/-- A call whose failure is the failure of the field. -/
def ofCall (onSuccess : List UInt8 → Decoded) : Bool × List UInt8 → Decoded
  | (true, buf) => onSuccess buf
  | (false, buf) => failed buf

/-- A write whose failure, which leaves the buffer as it was, is the failure of the field. -/
def ofWrite (buf : List UInt8) : Option (List UInt8) → Decoded
  | none => failed buf
  | some buf' => written buf'

end Decoded

section Decoder

variable (p : Platform) (names : List String)

/-- The value `get<T>()` of the type a field is read as, as an unsigned number. -/
def getValue (w : ℕ) (type : TypeEnum) (value : Json) : Option ℕ :=
  if type = .bool then value.getBool.map Bool.toNat else value.getInteger w

/-- `write<T>` by index; `none` if it returns false. -/
def writeTyped (node : Node) (off w : ℕ) (type : TypeEnum) (v : ℕ) (buf : List UInt8) :
    Option (List UInt8) :=
  if type ≠ node.type then none else writeByNode p buf off node (toLE w v)

/-- `val_from_json`. A member that is not a number is ignored, an element is not. -/
def valFromJson (node : Node) (json : Json) (index off : ℕ) (buf : List UInt8) :
    Option Decoded := do
  let (w, type) ← node.type.writtenAs
  let store (value : Json) : Option Decoded := do
    let v ← getValue w type value
    return .ofWrite buf (writeTyped p node off w type v buf)
  match json with
  | .arr values =>
    let value ← values[index]?
    if value.isNumberOrBoolean then store value else return .failed buf
  | json =>
    match json.find node.name with
    | none => return .written buf
    | some value => if value.isNumberOrBoolean then store value else return .written buf

/-- `bitmap_from_json`: the buffer after it. The value is always written with eight bytes. -/
def bitmapFromJson (node : Node) (json : Json) (off : ℕ) (buf : List UInt8) :
    Option (List UInt8) := do
  let value ← json.find node.name
  if value.isNumberOrBoolean then
    let v ← value.getInteger 8
    return (writeByNode p buf off node (toLE 8 v)).getD buf
  else return buf

/-- `get<int64_t>()`. -/
def getInt64 (value : Json) : Option ℤ := (value.getInteger 8).map (toSigned 8)

/-- `enum_val_from_json`: the value, and the inner `none` if it returns false. -/
def enumValFromJson (enum : Option EnumData) (json : Json) : Option (Option ℤ) :=
  match enum with
  | none => some none
  | some enum =>
    let checked (val : ℤ) : Option ℤ := (enum.itemByVal val).map fun _ => val
    let named (name : String) : Option ℤ := (enum.itemByName name).map fun item => item.value
    match json with
    | .num n => (getInt64 (.num n)).map checked
    | .obj fields =>
      match Json.Fields.get? fields "val", Json.Fields.get? fields "name" with
      | some value, _ => (getInt64 value).map checked
      | none, some value => value.getString.map named
      | none, none => some (some 0)
    | .str s => some (named s)
    | _ => some none

/-- The `ENUM` case. -/
def enumFromJson (node : Node) (json : Json) (index off : ℕ) (buf : List UInt8) :
    Option Decoded := do
  let store (value : Json) : Option Decoded :=
    if 8 < node.size then none
    else (enumValFromJson node.enum value).map fun
      | none => .failed buf
      | some val =>
        .written ((writeByNode p buf off node (toLE node.size (val % 2 ^ 64).toNat)).getD buf)
  match json with
  | .arr values =>
    match ← values[index]? with
    | .null => return .done buf
    | value => store value
  | json => store (← json.find node.name)

/-- The `STRING` case. -/
def stringFromJson (node : Node) (json : Json) (index off : ℕ) (buf : List UInt8) :
    Option Decoded :=
  let write (s : String) : Option (List UInt8) :=
    writeString p buf off node (Text.untilNul (Text.toBytes s))
  match json with
  | .arr values => do
    let value ← values[index]?
    let s ← value.getString
    return .written ((write s).getD buf)
  | json =>
    match json.find node.name with
    | none => some (.done buf)
    | some (.str s) => some (.ofWrite buf (write s))
    | some _ => some (.failed buf)

/-- The `BUFFER` case. A text that is not hexadecimal is ignored if its length is wrong, and
throws otherwise. -/
def bufferFromJson (node : Node) (json : Json) (off : ℕ) (buf : List UInt8) : Option Decoded :=
  match json with
  | .arr _ => some (.failed buf)
  | json =>
    match json.find node.name with
    | none => some (.done buf)
    | some (.str s) =>
      match Text.hexString2buf s node.size with
      | none => none
      | some none => some (.written buf)
      | some (some bytes) =>
        if buffMaxSize < bytes.length then none
        else some (.ofWrite buf (writeByNode p buf off node bytes))
    | some _ => some (.failed buf)

/-- The loop over the elements of an array: it stops at the first failure. -/
def storeElements (store : ℕ → Json → List UInt8 → Option (Bool × List UInt8)) :
    List Json → ℕ → List UInt8 → Option (Bool × List UInt8)
  | [], _, buf => some (true, buf)
  | value :: values, j, buf => do
    match ← store j value buf with
    | (true, buf') => storeElements store values (j + 1) buf'
    | (false, buf') => return (false, buf')

/-- An element of an array that is not complex, in `array_from_json`. The bounds are checked
for the type of the node, which is `ARRAY`. -/
def elementValueFromJson (node child : Node) (off index : ℕ) (value : Json) (buf : List UInt8) :
    Option (Bool × List UInt8) :=
  if 8 < child.size then none
  else if child.type = .enum then
    (enumValFromJson child.enum value).map fun
      | none => (false, buf)
      | some val =>
        (true, writeAt buf off node child index (toLE child.size (val % 2 ^ 64).toNat))
  else if child.type = .double ∨ child.type = .float then none
  else
    (value.getInteger 8).map fun v =>
      if node.options.isInBounds node.type v then
        (true, writeAt buf off node child index (toLE child.size v))
      else (false, buf)

/-- An element of an array, given the decoder of complex elements at an offset. -/
def arrayElementFromJson (node child : Node) (off : ℕ)
    (element : ℕ → Json → List UInt8 → Option (Bool × List UInt8)) (index : ℕ) (value : Json)
    (buf : List UInt8) : Option (Bool × List UInt8) :=
  if child.type = .complex then
    if value.isObject then element (off + node.offset + child.size * index) value buf
    else some (false, buf)
  else elementValueFromJson node child off index value buf

/-- `array_from_json`, given the decoder of complex elements at an offset. -/
def arrayFromJson (node : Node) (json : Json) (off : ℕ) (buf : List UInt8)
    (element : ℕ → Json → List UInt8 → Option (Bool × List UInt8)) : Option Decoded :=
  match json with
  | .arr _ => some (.failed buf)
  | json =>
    match json.find node.name with
    | none => some (.done buf)
    | some (.arr values) =>
      match node.child with
      | none => none
      | some child =>
        if node.count < values.length then some (.failed buf)
        else
          (storeElements (arrayElementFromJson node child off element) values 0 buf).map
            (.ofCall .done)
    | some _ => some (.failed buf)

/-- The `COMPLEX` case, given the decoder of the nested metadata. -/
def complexFromJson (node : Node) (json : Json) (buf : List UInt8)
    (nested : Json → List UInt8 → Option (Bool × List UInt8)) : Option Decoded :=
  match json with
  | .arr _ => some (.failed buf)
  | json =>
    match json.find node.name with
    | none => some (.done buf)
    | some value =>
      if value.isObject then (nested value buf).map (.ofCall .done) else some (.failed buf)

/-- The switch of `from_json`, given the decoders of the nested metadata and of an
element. -/
def fieldFromJson (node : Node) (json : Json) (index off : ℕ) (buf : List UInt8)
    (nested : Json → List UInt8 → Option (Bool × List UInt8))
    (element : ℕ → Json → List UInt8 → Option (Bool × List UInt8)) : Option Decoded :=
  match node.type with
  | .bitmap => (bitmapFromJson p node json off buf).map .written
  | .enum => if names.count node.name = 1 then enumFromJson p node json index off buf else none
  | .string => stringFromJson p node json index off buf
  | .buffer => bufferFromJson p node json off buf
  | .array =>
    if names.count node.name = 1 then arrayFromJson node json off buf element else none
  | .complex =>
    if names.count node.name = 1 then complexFromJson node json buf nested else none
  | .float | .double => none
  | type => if type.isSimpleType then valFromJson p node json index off buf else some (.failed buf)

/-- The field after the switch: what was written is validated. -/
def finishField (node : Node) (off : ℕ) : Decoded → Option (Bool × List UInt8)
  | .failed buf => some (false, buf)
  | .done buf => some (true, buf)
  | .written buf => (validate p buf off node).map fun ok => (ok, buf)

end Decoder

section DecoderRecursion

variable (p : Platform)

mutual

/-- `binary_parser_impl::from_json` for the record at an offset: the result and the buffer
after it. -/
def BinaryMetadata.fromJson : BinaryMetadata → Json → ℕ → List UInt8 → Option (Bool × List UInt8)
  | .mk _ _ nodes _, json, off, buf =>
    nodesFromJson (nodes.map fun node => node.name) nodes json 0 off buf
termination_by structural m => m

/-- The loop of `from_json`: it stops at the first failure. -/
def nodesFromJson (names : List String) :
    List Node → Json → ℕ → ℕ → List UInt8 → Option (Bool × List UInt8)
  | [], _, _, _, buf => some (true, buf)
  | node :: rest, json, index, off, buf => do
    match ← nodeFromJson names node json index off buf with
    | (true, buf') => nodesFromJson names rest json (index + 1) off buf'
    | (false, buf') => return (false, buf')
termination_by structural nodes => nodes

/-- One field with what it nests. -/
def nodeFromJson (names : List String) :
    Node → Json → ℕ → ℕ → List UInt8 → Option (Bool × List UInt8)
  | ⟨name, offset, size, type, bigEndian, options, defString, nested, enum, count, bits⟩,
    json, index, off, buf =>
    (fieldFromJson p names
      ⟨name, offset, size, type, bigEndian, options, defString, nested, enum, count, bits⟩
      json index off buf
      (fun value buf => nestedFromJson nested value (off + offset) buf)
      (fun off value buf => elementFromJson nested value off buf)).bind
    (finishField p
      ⟨name, offset, size, type, bigEndian, options, defString, nested, enum, count, bits⟩ off)
termination_by structural node => node

/-- The decoder of a nested metadata. -/
def nestedFromJson : Option BinaryMetadata → Json → ℕ → List UInt8 → Option (Bool × List UInt8)
  | none, _, _, _ => none
  | some m, json, off, buf => m.fromJson json off buf
termination_by structural nested => nested

/-- The decoder of an element of an array of complex elements. -/
def elementFromJson : Option BinaryMetadata → Json → ℕ → List UInt8 → Option (Bool × List UInt8)
  | some (.mk _ _ (⟨_, _, _, _, _, _, _, nested, _, _, _⟩ :: _) _), json, off, buf =>
    nestedFromJson nested json off buf
  | _, _, _, _ => none
termination_by structural nested => nested

end

end DecoderRecursion

/-! ### Equations of the recursion -/

namespace BinaryMetadata

theorem json_eq (p : Platform) (level : JsonDetailsLevel) (src : List UInt8) (m : BinaryMetadata)
    (off : ℕ) :
    m.json p level src off =
      (nodesToJson p level src (m.nodes.map fun node => node.name) m.nodes off).map fun r =>
        (r.1, Json.Fields.assign r.2) := by
  cases m
  rfl

theorem fromJson_eq (p : Platform) (m : BinaryMetadata) (json : Json) (off : ℕ)
    (buf : List UInt8) :
    m.fromJson p json off buf =
      nodesFromJson p (m.nodes.map fun node => node.name) m.nodes json 0 off buf := by
  cases m
  rfl

end BinaryMetadata

theorem elementToJson_eq (p : Platform) (level : JsonDetailsLevel) (src : List UInt8) (node : Node)
    (off : ℕ) :
    elementToJson p level src node.nested off =
      node.element.bind fun m => m.json p level src off := by
  obtain ⟨_, _, _, _, _, _, _, nested, _, _, _⟩ := node
  rcases nested with _ | ⟨_, _, _ | ⟨⟨_, _, _, _, _, _, _, inner, _, _, _⟩, rest⟩, _⟩
  · rfl
  · rfl
  · cases inner <;> rfl

theorem elementFromJson_eq (p : Platform) (node : Node) (json : Json) (off : ℕ)
    (buf : List UInt8) :
    elementFromJson p node.nested json off buf =
      node.element.bind fun m => m.fromJson p json off buf := by
  obtain ⟨_, _, _, _, _, _, _, nested, _, _, _⟩ := node
  rcases nested with _ | ⟨_, _, _ | ⟨⟨_, _, _, _, _, _, _, inner, _, _, _⟩, rest⟩, _⟩
  · rfl
  · rfl
  · cases inner <;> rfl

theorem nodeToJson_eq (p : Platform) (level : JsonDetailsLevel) (src : List UInt8)
    (names : List String) (node : Node) (off : ℕ) :
    nodeToJson p level src names node off =
      fieldToJson p level src names node off
        (node.nested.bind fun m => m.json p level src (off + node.offset))
        fun o => node.element.bind fun m => m.json p level src o := by
  have hnested : nestedToJson p level src node.nested (off + node.offset) =
      node.nested.bind fun m => m.json p level src (off + node.offset) := by
    cases node.nested <;> rfl
  have helement : elementToJson p level src node.nested =
      fun o => node.element.bind fun m => m.json p level src o :=
    funext (elementToJson_eq p level src node)
  rw [← hnested, ← helement]
  cases node
  rfl

theorem nodeFromJson_eq (p : Platform) (names : List String) (node : Node) (json : Json)
    (index off : ℕ) (buf : List UInt8) :
    nodeFromJson p names node json index off buf =
      (fieldFromJson p names node json index off buf
        (fun value buf => node.nested.bind fun m => m.fromJson p value (off + node.offset) buf)
        (fun o value buf => node.element.bind fun m =>
          m.fromJson p value o buf)).bind (finishField p node off) := by
  have hnested : (fun value buf => nestedFromJson p node.nested value (off + node.offset) buf) =
      fun value buf => node.nested.bind fun m => m.fromJson p value (off + node.offset) buf := by
    funext value buf
    cases node.nested <;> rfl
  have helement : (fun o value buf => elementFromJson p node.nested value o buf) =
      fun o value buf => node.element.bind fun m => m.fromJson p value o buf := by
    funext o value buf
    exact elementFromJson_eq p node value o buf
  rw [← hnested, ← helement]
  cases node
  rfl

/-! ### The parser -/

/-- `to_json` of a parser with the given metadata and buffer: the inner `none` is the null
pointer it returns when there are errors. -/
def BinaryMetadata.toJson (p : Platform) (m : BinaryMetadata) (level : JsonDetailsLevel)
    (src : List UInt8) : Option (Option Json) :=
  (m.json p level src 0).map fun r => if r.1 then some (Json.ofFields r.2) else none

end UtilityFramework
