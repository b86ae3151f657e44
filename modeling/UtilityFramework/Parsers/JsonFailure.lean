import UtilityFramework.Lib.LocalSteps
import UtilityFramework.Parsers.ParserJson
import UtilityFramework.Parsers.Validate

/-!
# Decoding that fails

`from_json` of a parser decodes the fields in their order, each into the buffer, and validates a
field after it was written; it returns false at the first field that fails, and the JSON library
throws at a value of another kind. Nothing is taken back: the buffer is then that of the fields
before, decoded, and of the field at which it stopped as far as it was written
(`BinaryMetadata.stops_in_order`). Bytes of other fields, and of those for which the JSON has no
value, are what they were.

The JSON library is a parameter, with floating-point numbers and the exceptions it throws. `none`
stands for undefined behaviour and for what the model leaves out: an `ARRAY` or `COMPLEX` field that
shares its name with another field of the same metadata, and nested fields without a metadata.
-/

namespace UtilityFramework

open Bytes BinaryMetadata LocalSteps

universe u

/-! ### The code -/

/-- What `from_json` uses of the JSON library, for values of type `J`. -/
structure JsonLib (J : Type u) where
  /-- `parse`; `none` if it throws. -/
  parse : String → Option J
  isArray : J → Bool
  isObject : J → Bool
  /-- `is_number() || is_boolean()`. -/
  isNumberOrBoolean : J → Bool
  isNumberInteger : J → Bool
  isString : J → Bool
  isNull : J → Bool
  /-- `find`; only objects have members. -/
  find : J → String → Option J
  /-- The elements of an array. -/
  element : J → ℕ → Option J
  size : J → ℕ
  /-- The bytes of `get<T>()`, for the C++ type a field type is read as; `none` if it throws. -/
  get : TypeEnum → J → Option (List UInt8)
  /-- `get<int64_t>()`; `none` if it throws. -/
  getInt64 : J → Option ℤ
  /-- `get<std::string>()`; `none` if it throws. -/
  getString : J → Option String

/-- How a call of `from_json` ends. -/
inductive Ending
  | finished
  | failed
  | threw
  deriving DecidableEq

/-- What a case of the switch does with the buffer: it ends the field without a write, or makes at
most one write, which may be required to succeed, before the field is validated. -/
inductive FieldPlan
  | stop (e : Ending)
  | keep
  | write (data : List UInt8) (required : Bool)

namespace JsonLib

variable {J : Type u} (lib : JsonLib J)

/-- `json[name]`, which throws unless the value is an object; undefined without that member. -/
def member (json : J) (name : String) : Option (Except Ending J) :=
  if lib.isObject json then (lib.find json name).map .ok else some (.error .threw)

/-- `val_from_json`. A member that is not a number is ignored, an element is not. -/
def valFromJson (node : Node) (json : J) (index : ℕ) : Option FieldPlan :=
  let store (value : J) : FieldPlan :=
    match lib.get node.type value with
    | none => .stop .threw
    | some data =>
      -- `write<T>` compares the type of the field with that of the C++ type
      if node.type = .float ∨ node.type = .double ∨
          node.type.writtenAs.map Prod.snd = some node.type then .write data true
      else .stop .failed
  if lib.isArray json then
    (lib.element json index).map fun value =>
      if lib.isNumberOrBoolean value then store value else .stop .failed
  else
    match lib.find json node.name with
    | none => some .keep
    | some value => some (if lib.isNumberOrBoolean value then store value else .keep)

/-- `bitmap_from_json`, whose result is not used. The value is always written with eight bytes. -/
def bitmapFromJson (node : Node) (json : J) : Option FieldPlan :=
  (lib.member json node.name).map fun
    | .error e => .stop e
    | .ok value =>
      if lib.isNumberOrBoolean value then
        match lib.get .uint64 value with
        | none => .stop .threw
        | some data => .write data false
      else .keep

/-- `enum_val_from_json`. -/
def enumValFromJson (enum : Option EnumData) (value : J) : Except Ending ℤ :=
  match enum with
  | none => .error .failed
  | some enum =>
    let checked : Option ℤ → Except Ending ℤ
      | none => .error .threw
      | some val => if (enum.itemByVal val).isSome then .ok val else .error .failed
    let named : Option String → Except Ending ℤ
      | none => .error .threw
      | some name =>
        match enum.itemByName name with
        | none => .error .failed
        | some item => .ok item.value
    if lib.isNumberInteger value then checked (lib.getInt64 value)
    else if lib.isObject value then
      match lib.find value "val", lib.find value "name" with
      | some v, _ => checked (lib.getInt64 v)
      | none, some v => named (lib.getString v)
      | none, none => .ok 0
    else if lib.isString value then named (lib.getString value)
    else .error .failed

/-- The `ENUM` case. -/
def enumFromJson (node : Node) (json : J) (index : ℕ) : Option FieldPlan :=
  let store (value : J) : Option FieldPlan :=
    match lib.enumValFromJson node.enum value with
    | .error e => some (.stop e)
    | .ok val =>
      if 8 < node.size then none
      else some (.write (toLE node.size (val % 2 ^ 64).toNat) false)
  if lib.isArray json then
    (lib.element json index).bind fun value =>
      if lib.isNull value then some (.stop .finished) else store value
  else
    (lib.member json node.name).bind fun
      | .error e => some (.stop e)
      | .ok value => store value

/-- The `STRING` case: the characters up to the first zero, and a zero. -/
def stringFromJson (node : Node) (json : J) (index : ℕ) : Option FieldPlan :=
  let store (value : J) (required : Bool) : FieldPlan :=
    match lib.getString value with
    | none => .stop .threw
    | some s => .write (Text.untilNul (Text.toBytes s) ++ [0]) required
  if lib.isArray json then (lib.element json index).map fun value => store value false
  else
    match lib.find json node.name with
    | none => some (.stop .finished)
    | some value => some (if lib.isString value then store value true else .stop .failed)

/-- The `BUFFER` case. A text that is not hexadecimal is ignored if its length is wrong, and throws
otherwise. -/
def bufferFromJson (node : Node) (json : J) : Option FieldPlan :=
  if lib.isArray json then some (.stop .failed)
  else
    match lib.find json node.name with
    | none => some (.stop .finished)
    | some value =>
      if lib.isString value then
        match lib.getString value with
        | none => some (.stop .threw)
        | some s =>
          -- more than `BUFF_MAX_SIZE` bytes do not fit in the local buffer
          if buffMaxSize < node.size then none
          else
            match Text.hexString2buf s node.size with
            | none => some (.stop .threw)
            | some none => some .keep
            | some (some bytes) => some (.write bytes true)
      else some (.stop .failed)

/-- The cases of the switch that are not `ARRAY` and not `COMPLEX`. -/
def valueFromJson (node : Node) (json : J) (index : ℕ) : Option FieldPlan :=
  match node.type with
  | .bitmap => lib.bitmapFromJson node json
  | .enum => lib.enumFromJson node json index
  | .string => lib.stringFromJson node json index
  | .buffer => lib.bufferFromJson node json
  | type => if type.isSimpleType then lib.valFromJson node json index else some (.stop .failed)

end JsonLib

section Fields

variable {J : Type u} (lib : JsonLib J) (p : Platform) (off : ℕ) (node : Node)

/-- After the switch the value of the field is validated. -/
def finishValue (buf : List UInt8) : Option (Ending × List UInt8) :=
  (validateValue p buf off node).map fun ok => (if ok then .finished else .failed, buf)

/-- A field that is not complex and not an array. -/
def runPlan (buf : List UInt8) : FieldPlan → Option (Ending × List UInt8)
  | .stop e => some (e, buf)
  | .keep => finishValue p off node buf
  | .write data required =>
    match writeByNode p buf off node data with
    | some buf' => finishValue p off node buf'
    | none => if required then some (.failed, buf) else finishValue p off node buf

/-- A loop that goes on as long as its steps finish. -/
def decodeAll {ι : Type*} (step : ι → List UInt8 → Option (Ending × List UInt8)) :
    List ι → List UInt8 → Option (Ending × List UInt8)
  | [], buf => some (.finished, buf)
  | i :: is, buf => (step i buf).bind fun r =>
    if r.1 = .finished then decodeAll step is r.2 else some r

/-- An element of an array that is not a record. The bounds of integers are checked for the type of
the array node, which has none. -/
def storeElement (child : Node) (j : ℕ) (value : J) (buf : List UInt8) :
    Option (Ending × List UInt8) :=
  if child.type = .enum then
    match lib.enumValFromJson child.enum value with
    | .error e => some (e, buf)
    | .ok val =>
      if 8 < child.size then none
      else some (.finished, writeAt buf off node child j (toLE child.size (val % 2 ^ 64).toNat))
  else
    let isFloat := child.type = .double ∨ child.type = .float
    match lib.get (if isFloat then child.type else .uint64) value with
    | none => some (.threw, buf)
    | some data =>
      if node.options.isInBounds (if isFloat then child.type else node.type) (ofLE data) then
        if data.length < child.size then none
        else some (.finished, writeAt buf off node child j (data.take child.size))
      else some (.failed, buf)

/-- `array_from_json`, given the decoder of a record of the array at an offset. -/
def decodeArray (json : J) (record : ℕ → J → List UInt8 → Option (Ending × List UInt8))
    (buf : List UInt8) : Option (Ending × List UInt8) :=
  if lib.isArray json then some (.failed, buf)
  else
    match lib.find json node.name with
    | none => some (.finished, buf)
    | some values =>
      if ¬ lib.isArray values then some (.failed, buf)
      else
        node.child.bind fun child =>
          if node.count < lib.size values then some (.failed, buf)
          else
            decodeAll (fun j buf => (lib.element values j).bind fun value =>
              if child.type = .complex then
                if lib.isObject value then
                  record (off + node.offset + j * child.size) value buf
                else some (.failed, buf)
              else storeElement lib off node child j value buf) (List.range (lib.size values)) buf

/-- The `COMPLEX` case, given the decoder of the nested record. -/
def decodeNested (json : J) (nested : J → List UInt8 → Option (Ending × List UInt8))
    (buf : List UInt8) : Option (Ending × List UInt8) :=
  if lib.isArray json then some (.failed, buf)
  else
    match lib.find json node.name with
    | none => some (.finished, buf)
    | some value => if lib.isObject value then nested value buf else some (.failed, buf)

/-- One field in `from_json`, given the decoders of a nested record and of a record of an array. -/
def decodeField (names : List String) (json : J) (index : ℕ)
    (nested record : ℕ → J → List UInt8 → Option (Ending × List UInt8)) (buf : List UInt8) :
    Option (Ending × List UInt8) :=
  match node.type with
  | .array =>
    if names.count node.name = 1 then decodeArray lib off node json record buf else none
  | .complex =>
    if names.count node.name = 1 then decodeNested lib node json (nested (off + node.offset)) buf
    else none
  | _ => (lib.valueFromJson node json index).bind (runPlan p off node buf)

end Fields

section Recursion

variable {J : Type u} (lib : JsonLib J) (p : Platform)

mutual

/-- `from_json` of the parser of a record at an offset: how it ends, and the buffer then. -/
def BinaryMetadata.decode : BinaryMetadata → ℕ → J → List UInt8 → Option (Ending × List UInt8)
  | .mk _ _ nodes _, off, json, buf =>
    nodesDecode (nodes.map fun node => node.name) nodes off json 0 buf
termination_by structural m => m

/-- The loop over the fields, from an index on. -/
def nodesDecode (names : List String) :
    List Node → ℕ → J → ℕ → List UInt8 → Option (Ending × List UInt8)
  | [], _, _, _, buf => some (.finished, buf)
  | node :: rest, off, json, index, buf =>
    (nodeDecode names node off json index buf).bind fun r =>
      if r.1 = .finished then nodesDecode names rest off json (index + 1) r.2 else some r
termination_by structural nodes => nodes

/-- One field with what it nests. -/
def nodeDecode (names : List String) :
    Node → ℕ → J → ℕ → List UInt8 → Option (Ending × List UInt8)
  | ⟨name, offset, size, type, bigEndian, options, defString, nested, enum, count, bits⟩, off,
    json, index, buf =>
    decodeField lib p off
      ⟨name, offset, size, type, bigEndian, options, defString, nested, enum, count, bits⟩ names
      json index (nestedDecode nested) (recordDecode nested) buf
termination_by structural node => node

/-- A nested record. -/
def nestedDecode : Option BinaryMetadata → ℕ → J → List UInt8 → Option (Ending × List UInt8)
  | none, _, _, _ => none
  | some m, off, json, buf => m.decode off json buf
termination_by structural nested => nested

/-- A record of an array. -/
def recordDecode : Option BinaryMetadata → ℕ → J → List UInt8 → Option (Ending × List UInt8)
  | some (.mk _ _ (⟨_, _, _, _, _, _, _, nested, _, _, _⟩ :: _) _), off, json, buf =>
    nestedDecode nested off json buf
  | _, _, _, _ => none
termination_by structural nested => nested

end

/-- `from_json` of a text. -/
def BinaryMetadata.decodeText (m : BinaryMetadata) (off : ℕ) (text : String) (buf : List UInt8) :
    Option (Ending × List UInt8) :=
  match lib.parse text with
  | none => some (.threw, buf)
  | some json => m.decode lib p off json buf

end Recursion

/-! ### The bytes that the JSON has values for -/

section Touches

variable {J : Type u} (lib : JsonLib J)

/-- The JSON has a value for a field: a member of its name or, in an array, an element with its
index. -/
def HasValue (json : J) (index : ℕ) (name : String) : Prop :=
  (∃ value, lib.element json index = some value) ∨ ∃ value, lib.find json name = some value

/-- The byte at `x` belongs to the field with index `i` of the record of `m` at offset `off`, and
the JSON has a value for it: for the field itself, for the field of a nested record, or for the
element of an array. -/
inductive Touches : BinaryMetadata → ℕ → ℕ → J → ℕ → Prop
  | field {m : BinaryMetadata} {off i x : ℕ} {json : J} {node : Node}
    (hnode : m.nodes[i]? = some node) (hcomplex : node.type ≠ .complex)
    (harray : node.type ≠ .array) (hvalue : HasValue lib json i node.name)
    (hx : x ∈ window (off + node.offset) node.size) : Touches m off i json x
  | nested {m m' : BinaryMetadata} {off i k x : ℕ} {json value : J} {node : Node}
    (hnode : m.nodes[i]? = some node) (htype : node.type = .complex)
    (hnested : node.nested = some m') (hvalue : lib.find json node.name = some value)
    (h : Touches m' (off + node.offset) k value x) : Touches m off i json x
  | element {m : BinaryMetadata} {off i j x : ℕ} {json values value : J} {node child : Node}
    (hnode : m.nodes[i]? = some node) (htype : node.type = .array)
    (hchild : node.child = some child) (hcomplex : child.type ≠ .complex)
    (hvalues : lib.find json node.name = some values) (hvalue : lib.element values j = some value)
    (hj : j < node.count) (hx : x ∈ window (off + node.offset + j * child.size) child.size) :
    Touches m off i json x
  | record {m m' : BinaryMetadata} {off i j k x : ℕ} {json values value : J} {node child : Node}
    (hnode : m.nodes[i]? = some node) (htype : node.type = .array)
    (hchild : node.child = some child) (hcomplex : child.type = .complex)
    (hnested : child.nested = some m') (hvalues : lib.find json node.name = some values)
    (hvalue : lib.element values j = some value) (hj : j < node.count)
    (h : Touches m' (off + node.offset + j * child.size) k value x) : Touches m off i json x

end Touches

/-! ### Loops -/

section Loops

variable {ι : Type*} {step : ι → List UInt8 → Option (Ending × List UInt8)} {is : List ι}
  {b b' : List UInt8} {e : Ending}

/-- What a loop leaves as it is. -/
theorem sameOn_decodeAll {W : ι → Set ℕ}
    (h : ∀ i ∈ is, ∀ b b' e, step i b = some (e, b') → SameOn (W i)ᶜ b b')
    (hrun : decodeAll step is b = some (e, b')) :
    SameOn {x | ∃ i ∈ is, x ∈ W i}ᶜ b b' := by
  induction is generalizing b with
  | nil =>
    obtain ⟨-, rfl⟩ := Prod.mk.inj (Option.some.inj hrun)
    exact .refl _ b
  | cons i is ih =>
    obtain ⟨⟨e₁, b₁⟩, hstep, hrest⟩ := Option.bind_eq_some_iff.mp hrun
    have hfirst : SameOn {x | ∃ j ∈ i :: is, x ∈ W j}ᶜ b b₁ :=
      (h i List.mem_cons_self b b₁ e₁ hstep).mono
        (Set.compl_subset_compl.mpr fun x hx => ⟨i, List.mem_cons_self, hx⟩)
    by_cases hgo : e₁ = .finished
    · rw [if_pos hgo] at hrest
      have hlater := ih (fun j hj => h j (List.mem_cons_of_mem i hj)) hrest
      refine hfirst.trans (hlater.mono (Set.compl_subset_compl.mpr ?_))
      exact fun x ⟨j, hj, hx⟩ => ⟨j, List.mem_cons_of_mem i hj, hx⟩
    · rw [if_neg hgo] at hrest
      obtain ⟨-, rfl⟩ := Prod.mk.inj (Option.some.inj hrest)
      exact hfirst

/-- **A loop that does not finish** stops at one step, after those before it have finished. -/
theorem exists_stop_of_decodeAll (hrun : decodeAll step is b = some (e, b'))
    (he : e ≠ .finished) :
    ∃ k i b₁, is[k]? = some i ∧ decodeAll step (is.take k) b = some (.finished, b₁) ∧
      step i b₁ = some (e, b') := by
  induction is generalizing b with
  | nil => exact absurd (Prod.mk.inj (Option.some.inj hrun)).1.symm he
  | cons i is ih =>
    obtain ⟨⟨e₁, b₁⟩, hstep, hrest⟩ := Option.bind_eq_some_iff.mp hrun
    by_cases hgo : e₁ = .finished
    · rw [if_pos hgo] at hrest
      obtain ⟨k, j, b₂, hj, hbefore, hstop⟩ := ih hrest
      refine ⟨k + 1, j, b₂, hj, ?_, hstop⟩
      rw [List.take_succ_cons, decodeAll, hstep, Option.bind_some, if_pos hgo]
      exact hbefore
    · rw [if_neg hgo] at hrest
      obtain ⟨rfl, rfl⟩ := Prod.mk.inj (Option.some.inj hrest)
      exact ⟨0, i, b, rfl, rfl, hstep⟩

end Loops

/-! ### One field -/

section OneField

variable {J : Type u} {lib : JsonLib J} {p : Platform} {off index : ℕ} {node child : Node}
  {b b' data : List UInt8} {e : Ending} {json value : J} {required : Bool}

theorem sameOn_safeWrite (h : safeWrite b data off = some b') :
    SameOn (window off data.length)ᶜ b b' := by
  rw [safeWrite] at h
  split at h
  · rw [← Option.some.inj h]
    exact sameOn_compl_blit (by omega)
  · cases h

theorem length_write {block block' : List UInt8} (h : node.write p data block = some block') :
    block'.length = block.length := by
  rw [BinaryNode.write] at h
  split at h
  · cases h
  · split at h
    · split at h
      · cases h
      · rw [← Option.some.inj h]
        exact length_blit (by rw [length_convertOrder]; omega)
    · simp only at h
      split at h
      · cases h
      · split at h
        · cases h
        · split at h
          · rw [← Option.some.inj h, length_toLE]
          · cases h

theorem sameOn_writeByNode (h : writeByNode p b off node data = some b') :
    SameOn (window (off + node.offset) node.size)ᶜ b b' := by
  rw [writeByNode] at h
  split at h
  · cases h
  · split at h
    · obtain ⟨block, hread, h⟩ := Option.bind_eq_some_iff.mp h
      obtain ⟨block', hwrite, h⟩ := Option.bind_eq_some_iff.mp h
      have hsame := sameOn_safeWrite h
      rwa [length_write hwrite, length_of_safeRead hread] at hsame
    · refine (sameOn_safeWrite h).mono (Set.compl_subset_compl.mpr ?_)
      exact window_subset le_rfl (by omega)

theorem sameOn_writeAt {j : ℕ} (hdata : data.length = child.size) :
    SameOn (window (off + node.offset + j * child.size) child.size)ᶜ b
      (writeAt b off node child j data) := by
  rw [writeAt]
  cases hwrite : safeWrite b data (off + node.offset + j * child.size) with
  | none => exact .refl _ b
  | some b' =>
    have hsame := sameOn_safeWrite hwrite
    rwa [hdata] at hsame

theorem eq_of_finishValue (h : finishValue p off node b = some (e, b')) : b' = b := by
  obtain ⟨ok, -, heq⟩ := Option.map_eq_some_iff.mp h
  exact (Prod.mk.inj heq).2.symm

theorem sameOn_runPlan {plan : FieldPlan} (h : runPlan p off node b plan = some (e, b')) :
    SameOn {x | x ∈ window (off + node.offset) node.size ∧
      ∃ data required, plan = .write data required}ᶜ b b' := by
  cases plan with
  | stop e₀ =>
    obtain ⟨-, rfl⟩ := Prod.mk.inj (Option.some.inj h)
    exact .refl _ b
  | keep =>
    rw [eq_of_finishValue h]
    exact .refl _ b
  | write data required =>
    rw [runPlan] at h
    cases hwrite : writeByNode p b off node data with
    | none =>
      rw [hwrite] at h
      simp only at h
      split at h
      · obtain ⟨-, rfl⟩ := Prod.mk.inj (Option.some.inj h)
        exact .refl _ b
      · rw [eq_of_finishValue h]
        exact .refl _ b
    | some b₁ =>
      rw [hwrite] at h
      rw [eq_of_finishValue h]
      refine (sameOn_writeByNode hwrite).mono (Set.compl_subset_compl.mpr ?_)
      exact fun x hx => ⟨hx, data, required, rfl⟩

theorem find_of_member {name : String} (h : lib.member json name = some (.ok value)) :
    lib.find json name = some value := by
  rw [JsonLib.member] at h
  split at h
  · obtain ⟨found, hfound, heq⟩ := Option.map_eq_some_iff.mp h
    rwa [← Except.ok.inj heq]
  · cases Option.some.inj h

/-- The JSON has a value for a field that is written. -/
theorem hasValue_of_write (h : lib.valueFromJson node json index = some (.write data required)) :
    HasValue lib json index node.name := by
  rw [JsonLib.valueFromJson] at h
  split at h
  · obtain ⟨member, hmember, heq⟩ := Option.map_eq_some_iff.mp h
    cases member with
    | error e => cases heq
    | ok value => exact Or.inr ⟨value, find_of_member hmember⟩
  · rw [JsonLib.enumFromJson] at h
    split at h
    · obtain ⟨value, hvalue, -⟩ := Option.bind_eq_some_iff.mp h
      exact Or.inl ⟨value, hvalue⟩
    · obtain ⟨member, hmember, heq⟩ := Option.bind_eq_some_iff.mp h
      cases member with
      | error e => cases Option.some.inj heq
      | ok value => exact Or.inr ⟨value, find_of_member hmember⟩
  · rw [JsonLib.stringFromJson] at h
    split at h
    · obtain ⟨value, hvalue, -⟩ := Option.map_eq_some_iff.mp h
      exact Or.inl ⟨value, hvalue⟩
    · split at h
      · cases Option.some.inj h
      · exact Or.inr ⟨_, ‹_›⟩
  · rw [JsonLib.bufferFromJson] at h
    split at h
    · cases Option.some.inj h
    · split at h
      · cases Option.some.inj h
      · exact Or.inr ⟨_, ‹_›⟩
  · split at h
    · rw [JsonLib.valFromJson] at h
      split at h
      · obtain ⟨value, hvalue, -⟩ := Option.map_eq_some_iff.mp h
        exact Or.inl ⟨value, hvalue⟩
      · split at h
        · cases Option.some.inj h
        · exact Or.inr ⟨_, ‹_›⟩
    · cases Option.some.inj h

theorem sameOn_storeElement {j : ℕ}
    (h : storeElement lib off node child j value b = some (e, b')) :
    SameOn (window (off + node.offset + j * child.size) child.size)ᶜ b b' := by
  rw [storeElement] at h
  split at h
  · split at h
    · obtain ⟨-, rfl⟩ := Prod.mk.inj (Option.some.inj h)
      exact .refl _ b
    · split at h
      · cases h
      · obtain ⟨-, rfl⟩ := Prod.mk.inj (Option.some.inj h)
        exact sameOn_writeAt (length_toLE _ _)
  · simp only at h
    split at h
    · obtain ⟨-, rfl⟩ := Prod.mk.inj (Option.some.inj h)
      exact .refl _ b
    · rename_i data _
      by_cases hbounds : node.options.isInBounds
          (if child.type = .double ∨ child.type = .float then child.type else node.type)
          (ofLE data) = true
      · rw [if_pos hbounds] at h
        split at h
        · cases h
        · obtain ⟨-, rfl⟩ := Prod.mk.inj (Option.some.inj h)
          exact sameOn_writeAt (by rw [List.length_take]; omega)
      · rw [if_neg hbounds] at h
        obtain ⟨-, rfl⟩ := Prod.mk.inj (Option.some.inj h)
        exact .refl _ b

end OneField

/-! ### The recursion -/

section Recursion

variable {J : Type u} (lib : JsonLib J) (p : Platform)

theorem BinaryMetadata.decode_eq (m : BinaryMetadata) (off : ℕ) (json : J) (b : List UInt8) :
    m.decode lib p off json b =
      nodesDecode lib p (m.nodes.map fun node => node.name) m.nodes off json 0 b := by
  cases m
  rfl

theorem nodesDecode_eq (names : List String) (nodes : List Node) (off : ℕ) (json : J) (index : ℕ)
    (b : List UInt8) :
    nodesDecode lib p names nodes off json index b =
      decodeAll (fun q b => nodeDecode lib p names q.1 off json q.2 b) (nodes.zipIdx index) b := by
  induction nodes generalizing index b with
  | nil => rfl
  | cons node rest ih =>
    rw [nodesDecode, List.zipIdx_cons, decodeAll]
    simp only [ih]

theorem recordDecode_eq (node : Node) :
    recordDecode lib p node.nested =
      fun off json b => node.element.bind fun m => m.decode lib p off json b := by
  funext off json b
  obtain ⟨_, _, _, _, _, _, _, nested, _, _, _⟩ := node
  rcases nested with _ | ⟨_, _, _ | ⟨⟨_, _, _, _, _, _, _, inner, _, _, _⟩, rest⟩, _⟩
  · rfl
  · rfl
  · cases inner <;> rfl

theorem nodeDecode_eq (names : List String) (node : Node) (off : ℕ) (json : J) (index : ℕ)
    (b : List UInt8) :
    nodeDecode lib p names node off json index b =
      decodeField lib p off node names json index
        (fun off json b => node.nested.bind fun m => m.decode lib p off json b)
        (fun off json b => node.element.bind fun m => m.decode lib p off json b) b := by
  have hnested : nestedDecode lib p node.nested =
      fun off json b => node.nested.bind fun m => m.decode lib p off json b := by
    funext off json b
    cases node.nested <;> rfl
  rw [← hnested, ← recordDecode_eq lib p node]
  cases node
  rfl

variable {lib p} {m : BinaryMetadata} {names : List String} {node : Node} {off i : ℕ} {json : J}
  {b b' : List UInt8} {e : Ending}

/-- An array, if the records of it change only what the JSON has values for. -/
theorem sameOn_decodeArray (hnode : m.nodes[i]? = some node) (htype : node.type = .array)
    (helement : ∀ m', node.element = some m' → ∀ off json b b' e,
      m'.decode lib p off json b = some (e, b') →
        SameOn {x | ∃ k, Touches lib m' off k json x}ᶜ b b')
    (hrun : decodeArray lib off node json
      (fun off json b => node.element.bind fun m => m.decode lib p off json b) b = some (e, b')) :
    SameOn {x | Touches lib m off i json x}ᶜ b b' := by
  rw [decodeArray] at hrun
  split at hrun
  · obtain ⟨-, rfl⟩ := Prod.mk.inj (Option.some.inj hrun)
    exact .refl _ b
  cases hvalues : lib.find json node.name with
  | none =>
    rw [hvalues] at hrun
    obtain ⟨-, rfl⟩ := Prod.mk.inj (Option.some.inj hrun)
    exact .refl _ b
  | some values =>
    rw [hvalues] at hrun
    simp only at hrun
    split at hrun
    · obtain ⟨-, rfl⟩ := Prod.mk.inj (Option.some.inj hrun)
      exact .refl _ b
    obtain ⟨child, hchild, hrun⟩ := Option.bind_eq_some_iff.mp hrun
    split at hrun
    · obtain ⟨-, rfl⟩ := Prod.mk.inj (Option.some.inj hrun)
      exact .refl _ b
    have hcount : lib.size values ≤ node.count := not_lt.mp ‹_›
    refine (sameOn_decodeAll (W := fun _ => {x | Touches lib m off i json x})
      (fun j hj b b' e hstep => ?_) hrun).mono
        (Set.compl_subset_compl.mpr fun x ⟨_, _, hx⟩ => hx)
    have hj' : j < node.count := (List.mem_range.mp hj).trans_le hcount
    obtain ⟨value, hvalue, hstep⟩ := Option.bind_eq_some_iff.mp hstep
    by_cases hcomplex : child.type = .complex
    · rw [if_pos hcomplex] at hstep
      split at hstep
      · obtain ⟨m', hm', hrec⟩ := Option.bind_eq_some_iff.mp hstep
        have hnested : child.nested = some m' := by
          rwa [Node.element, hchild, Option.bind_some] at hm'
        refine (helement m' hm' _ _ _ _ _ hrec).mono (Set.compl_subset_compl.mpr ?_)
        rintro x ⟨k, hx⟩
        exact .record hnode htype hchild hcomplex hnested hvalues hvalue hj' hx
      · obtain ⟨-, rfl⟩ := Prod.mk.inj (Option.some.inj hstep)
        exact .refl _ b
    · rw [if_neg hcomplex] at hstep
      refine (sameOn_storeElement hstep).mono (Set.compl_subset_compl.mpr fun x hx => ?_)
      exact .element hnode htype hchild hcomplex hvalues hvalue hj' hx

/-- One field, if the records inside of it change only what the JSON has values for. -/
theorem sameOn_nodeDecode (hnode : m.nodes[i]? = some node)
    (hnested : ∀ m', node.nested = some m' → ∀ off json b b' e,
      m'.decode lib p off json b = some (e, b') →
        SameOn {x | ∃ k, Touches lib m' off k json x}ᶜ b b')
    (helement : ∀ m', node.element = some m' → ∀ off json b b' e,
      m'.decode lib p off json b = some (e, b') →
        SameOn {x | ∃ k, Touches lib m' off k json x}ᶜ b b')
    (hrun : nodeDecode lib p names node off json i b = some (e, b')) :
    SameOn {x | Touches lib m off i json x}ᶜ b b' := by
  rw [nodeDecode_eq, decodeField] at hrun
  split at hrun
  · have harray : node.type = .array := ‹_›
    split at hrun
    · exact sameOn_decodeArray hnode harray helement hrun
    · cases hrun
  · have hcomplex : node.type = .complex := ‹_›
    split at hrun
    · rw [decodeNested] at hrun
      split at hrun
      · obtain ⟨-, rfl⟩ := Prod.mk.inj (Option.some.inj hrun)
        exact .refl _ b
      cases hvalue : lib.find json node.name with
      | none =>
        rw [hvalue] at hrun
        obtain ⟨-, rfl⟩ := Prod.mk.inj (Option.some.inj hrun)
        exact .refl _ b
      | some value =>
        rw [hvalue] at hrun
        simp only at hrun
        split at hrun
        · obtain ⟨m', hm', hrec⟩ := Option.bind_eq_some_iff.mp hrun
          refine (hnested m' hm' _ _ _ _ _ hrec).mono (Set.compl_subset_compl.mpr ?_)
          rintro x ⟨k, hx⟩
          exact .nested hnode hcomplex hm' hvalue hx
        · obtain ⟨-, rfl⟩ := Prod.mk.inj (Option.some.inj hrun)
          exact .refl _ b
    · cases hrun
  · obtain ⟨plan, hplan, hrun⟩ := Option.bind_eq_some_iff.mp hrun
    refine (sameOn_runPlan hrun).mono (Set.compl_subset_compl.mpr ?_)
    rintro x ⟨hx, data, required, rfl⟩
    exact .field hnode ‹_› ‹_› (hasValue_of_write hplan) hx

/-- **A record** with all that is inside of it: only bytes change for which the JSON has values. -/
theorem sameOn_decode (lib : JsonLib J) (p : Platform) (m : BinaryMetadata) :
    ∀ off json b b' e, m.decode lib p off json b = some (e, b') →
      SameOn {x | ∃ k, Touches lib m off k json x}ᶜ b b' := by
  induction m using BinaryMetadata.induction with
  | h m ihnested ihelement =>
    intro off json b b' e hrun
    rw [decode_eq, nodesDecode_eq] at hrun
    refine (sameOn_decodeAll (W := fun q => {x | Touches lib m off q.2 json x})
      (fun q hq b b' e hstep => ?_) hrun).mono (Set.compl_subset_compl.mpr ?_)
    swap
    · rintro x ⟨q, -, hx⟩
      exact ⟨q.2, hx⟩
    have hnode : m.nodes[q.2]? = some q.1 := List.mem_zipIdx_iff_getElem?.mp hq
    have hmem := List.mem_of_getElem? hnode
    exact sameOn_nodeDecode hnode (ihnested q.1 hmem) (ihelement q.1 hmem) hstep

theorem sameOn_decodedField (hnode : m.nodes[i]? = some node)
    (hrun : nodeDecode lib p names node off json i b = some (e, b')) :
    SameOn {x | Touches lib m off i json x}ᶜ b b' :=
  sameOn_nodeDecode hnode (fun m' _ => sameOn_decode lib p m') (fun m' _ => sameOn_decode lib p m')
    hrun

end Recursion

/-! ### Failing decoders -/

section Failing

variable {J : Type u} {lib : JsonLib J} {p : Platform} {m : BinaryMetadata} {off : ℕ} {json : J}
  {b b' : List UInt8} {e : Ending}

/-- Decoding stops at one field: those before it have been decoded, as they are without that field
and the ones behind it, and this one has been decoded up to where it ended; and only bytes of these
fields have changed, for which the JSON has values. -/
def StopsInOrder (lib : JsonLib J) (p : Platform) (m : BinaryMetadata) (off : ℕ) (json : J)
    (b : List UInt8) (e : Ending) (b' : List UInt8) : Prop :=
  ∃ i node b₁, m.nodes[i]? = some node ∧
    nodesDecode lib p (m.nodes.map fun node => node.name) (m.nodes.take i) off json 0 b =
      some (.finished, b₁) ∧
    nodeDecode lib p (m.nodes.map fun node => node.name) node off json i b₁ = some (e, b') ∧
    SameOn {x | Touches lib m off i json x}ᶜ b₁ b' ∧
    SameOn {x | ∃ k ≤ i, Touches lib m off k json x}ᶜ b b'

theorem take_zipIdx {α : Type*} (l : List α) (k n : ℕ) :
    (l.zipIdx n).take k = (l.take k).zipIdx n := by
  induction l generalizing k n with
  | nil => simp
  | cons a l ih =>
    cases k with
    | zero => rfl
    | succ k =>
      rw [List.zipIdx_cons, List.take_succ_cons, ih, List.take_succ_cons, List.zipIdx_cons]

theorem stopsInOrder_of_decode (hrun : m.decode lib p off json b = some (e, b'))
    (he : e ≠ .finished) : StopsInOrder lib p m off json b e b' := by
  rw [decode_eq, nodesDecode_eq] at hrun
  obtain ⟨k, ⟨node, i⟩, b₁, hk, hbefore, hstop⟩ := exists_stop_of_decodeAll hrun he
  obtain ⟨rfl, hnode⟩ : i = k ∧ m.nodes[k]? = some node := by
    rw [List.getElem?_zipIdx] at hk
    obtain ⟨node', hnode', heq⟩ := Option.map_eq_some_iff.mp hk
    obtain ⟨rfl, rfl⟩ := Prod.mk.inj heq
    exact ⟨Nat.zero_add k, hnode'⟩
  have hfield := sameOn_decodedField hnode hstop
  have hmem {q : Node × ℕ} (hq : q ∈ m.nodes.zipIdx.take i) :
      q.2 ≤ i ∧ m.nodes[q.2]? = some q.1 := by
    refine ⟨?_, List.mem_zipIdx_iff_getElem?.mp (List.mem_of_mem_take hq)⟩
    rw [take_zipIdx] at hq
    have hlt := List.snd_lt_of_mem_zipIdx hq
    rw [List.length_take] at hlt
    omega
  have hearlier : SameOn {x | ∃ k ≤ i, Touches lib m off k json x}ᶜ b b₁ := by
    refine (sameOn_decodeAll (W := fun q => {x | Touches lib m off q.2 json x})
      (fun q hq b b' e hstep => sameOn_decodedField (hmem hq).2 hstep) hbefore).mono
        (Set.compl_subset_compl.mpr ?_)
    rintro x ⟨q, hq, hx⟩
    exact ⟨q.2, (hmem hq).1, hx⟩
  refine ⟨i, node, b₁, hnode, ?_, hstop, hfield, hearlier.trans (hfield.mono ?_)⟩
  · rw [nodesDecode_eq, ← take_zipIdx]
    exact hbefore
  · exact Set.compl_subset_compl.mpr fun x hx => ⟨i, le_rfl, hx⟩

/-- **A failed `from_json`**: a text that is no JSON leaves the buffer as it is; otherwise the
decoding has stopped at one field. -/
theorem BinaryMetadata.stops_in_order {text : String}
    (hrun : m.decodeText lib p off text b = some (e, b')) (he : e ≠ .finished) :
    (lib.parse text = none ∧ b' = b) ∨
      ∃ json, lib.parse text = some json ∧ StopsInOrder lib p m off json b e b' := by
  rw [decodeText] at hrun
  cases hparse : lib.parse text with
  | none =>
    rw [hparse] at hrun
    exact Or.inl ⟨rfl, (Prod.mk.inj (Option.some.inj hrun)).2.symm⟩
  | some json =>
    rw [hparse] at hrun
    exact Or.inr ⟨json, rfl, stopsInOrder_of_decode hrun he⟩

end Failing

/-- The library on integers, booleans, texts, arrays and objects, with a given parser. -/
def Json.lib (parse : String → Option Json) : JsonLib Json where
  parse := parse
  isArray
    | .arr _ => true
    | _ => false
  isObject := Json.isObject
  isNumberOrBoolean := Json.isNumberOrBoolean
  isNumberInteger
    | .num _ => true
    | _ => false
  isString
    | .str _ => true
    | _ => false
  isNull
    | .null => true
    | _ => false
  find := Json.find
  element
    | .arr values, i => values[i]?
    | _, _ => none
  size
    | .arr values => values.length
    | _ => 0
  get type value :=
    if type = .bool then value.getBool.map fun b => [if b then 1 else 0]
    else type.integerFormat.bind fun f => (value.getInteger f.1).map (toLE f.1)
  getInt64 := getInt64
  getString := Json.getString

/-- Two bytes, the second of at most three. -/
def boundedBytes : BinaryMetadata :=
  ((empty false).put "a" 1 .byte .reset).put "b" 1 .byte
    { SimpleOptions.reset with hasMax := true, maxval := 3 }

/-- A library that reads one text. -/
def oneText : JsonLib Json :=
  Json.lib fun text => if text = "[1,9]" then some (.arr [.num 1, .num 9]) else none

/-- The second value is out of bounds. -/
theorem BinaryMetadata.stops_in_order_second :
    (oneText.parse "[1,9]" = none ∧ ([1, 9] : List UInt8) = [0, 0]) ∨
      ∃ json, oneText.parse "[1,9]" = some json ∧
        StopsInOrder oneText ⟨fun _ _ => 0⟩ boundedBytes 0 json [0, 0] .failed [1, 9] :=
  BinaryMetadata.stops_in_order (m := boundedBytes) (p := ⟨fun _ _ => 0⟩) rfl (by decide)

/-- Both bytes have changed when it returns false. -/
theorem BinaryMetadata.not_atomic :
    ¬ ∀ e b', boundedBytes.decodeText oneText ⟨fun _ _ => 0⟩ 0 "[1,9]" [0, 0] = some (e, b') →
      e ≠ .finished → b' = [0, 0] := by
  intro h
  have hsame := h .failed [1, 9] rfl (by decide)
  revert hsame
  decide

end UtilityFramework
