import Mathlib.Data.List.Nodup
import UtilityFramework.Parsers.ParserJson

/-!
# One field through JSON

For each kind of field, what the decoder does with the member the encoder has written: it
succeeds, and takes over bytes of the encoded record at their own positions (`Copies`), among
them those that make up the value of the field (`Agrees`).
-/

namespace UtilityFramework

open Bytes

/-! ### Windows of a field -/

/-- The windows of the buffer that make up the value of a field, as position and length: of a
string the text and its zero, of an array of simple values each element. The fields of nested
metadata have windows of their own. -/
def windows (src : List UInt8) (off : ℕ) (node : Node) : Set (ℕ × ℕ) :=
  match node.type with
  | .string =>
    {(off + node.offset,
      (Text.untilNul (slice src (off + node.offset) node.size)).length + 1)}
  | .array =>
    {w | ∃ child, node.child = some child ∧ child.type ≠ .complex ∧
      ∃ j < node.count, w = (off + node.offset + j * child.size, child.size)}
  | .complex => ∅
  | _ => {(off + node.offset, node.size)}

/-- The buffer has the bytes of the source in the windows of the field, as far as they are
inside the buffer. -/
def Agrees (src buf : List UInt8) (off : ℕ) (node : Node) : Prop :=
  ∀ w ∈ windows src off node, w.1 + w.2 ≤ src.length → slice buf w.1 w.2 = slice src w.1 w.2

theorem Agrees.mono {src buf buf' : List UInt8} {off : ℕ} {node : Node}
    (h : Agrees src buf off node) (hc : Copies src buf buf') : Agrees src buf' off node :=
  fun w hw hin => hc.slice_eq (h w hw hin)

/-! ### Access to ordinary fields -/

section Access

variable {p : Platform} {src dst buf data : List UInt8} {off : ℕ} {node : Node}

theorem readByNode_eq_safeRead (htype : node.type ≠ .bitmap) (horder : node.bigEndian = false)
    {n : ℕ} (hn : n ≤ node.size) :
    readByNode p buf off node n = safeRead buf n (off + node.offset) := by
  rw [readByNode, if_neg (by omega), if_neg htype, horder]
  exact Option.map_id'

theorem writeByNode_eq_safeWrite (htype : node.type ≠ .bitmap) (hn : data.length ≤ node.size) :
    writeByNode p buf off node data = safeWrite buf data (off + node.offset) := by
  rw [writeByNode, if_neg (by omega), if_neg htype]

/-- Writing back what was read from the source. -/
theorem safeWrite_of_safeRead (hlen : dst.length = src.length) {n : ℕ}
    (h : safeRead src n off = some data) :
    ∃ dst', safeWrite dst data off = some dst' ∧ Copies src dst dst' ∧
      slice dst' off n = slice src off n ∧ safeRead dst' n off = some data := by
  obtain ⟨hle, rfl⟩ := safeRead_eq_some h
  have hn : (slice src off n).length = n := length_slice (by omega)
  have hin : off + n ≤ src.length := by omega
  obtain ⟨hcopies, hslice⟩ := copies_blit_slice hlen hin
  refine ⟨_, ?_, hcopies, hslice, ?_⟩
  · rw [safeWrite, if_pos (by omega)]
  · rw [safeRead, hcopies.1, hlen, if_pos hle, hslice]

end Access

/-! ### Restoring a field -/

/-- The decoder restores a field from the member `value`: whatever the other members are, it
succeeds, copies bytes of the source, and leaves the field agreeing with the source. -/
def Restores (p : Platform) (src : List UInt8) (names : List String) (node : Node) (off : ℕ)
    (nested : Json → List UInt8 → Option (Bool × List UInt8))
    (element : ℕ → Json → List UInt8 → Option (Bool × List UInt8)) (value : Json) : Prop :=
  ∀ (fields : Json.Fields) (index : ℕ) (dst : List UInt8),
    fields.get? node.name = some value → dst.length = src.length →
      ∃ dst', (fieldFromJson p names node (.obj fields) index off dst nested element).bind
          (finishField p node off) = some (true, dst') ∧
        Copies src dst dst' ∧ Agrees src dst' off node

namespace TypeEnum

/-- The simple types that JSON keeps: integers and `BOOL`, without the synonyms that
`get_type` does not know. -/
def isPlain : TypeEnum → Bool
  | char | byte | bool | int16 | uint16 | int32 | uint32 | int64 | uint64 => true
  | _ => false

theorem isPlain_spec {type : TypeEnum} (h : type.isPlain = true) :
    type.isSimpleType = true ∧ type ≠ .bitmap ∧ type.sizeofType ≤ 8 := by
  cases type with
  | char | byte | bool | int16 | uint16 | int32 | uint32 | int64 | uint64 => decide
  | _ => cases h

/-- How a plain type other than `BOOL` is read and written. -/
theorem integerFormat_of_isPlain {type : TypeEnum} (h : type.isPlain = true) (hb : type ≠ .bool) :
    ∃ signed, type.integerFormat = some (type.sizeofType, signed) ∧
      type.writtenAs = some (type.sizeofType, type) := by
  cases type with
  | char | int16 | int32 | int64 => exact ⟨true, rfl, rfl⟩
  | byte | uint16 | uint32 | uint64 => exact ⟨false, rfl, rfl⟩
  | bool => exact absurd rfl hb
  | _ => cases h

end TypeEnum

section Plain

variable {p : Platform} {level : JsonDetailsLevel} {src : List UInt8} {names : List String}
  {off : ℕ} {node : Node} {nestedJson : Option (Bool × Json.Fields)}
  {elementJson : ℕ → Option (Bool × Json.Fields)}
  {nested : Json → List UInt8 → Option (Bool × List UInt8)}
  {element : ℕ → Json → List UInt8 → Option (Bool × List UInt8)}

theorem fieldToJson_of_isPlain (h : node.type.isPlain = true) :
    fieldToJson p level src names node off nestedJson elementJson = (do
      let valid ← validate p src off node
      if valid then
        let value ← simpleToJson p src node off
        return (true, some value)
      else return (false, some (.str ErrorText.outOfBound))) := by
  rw [fieldToJson]
  cases htype : node.type with
  | char | byte | bool | int16 | uint16 | int32 | uint32 | int64 | uint64 => rfl
  | _ => simp [htype, TypeEnum.isPlain] at h

theorem fieldFromJson_of_isPlain (h : node.type.isPlain = true) (json : Json) (index : ℕ)
    (dst : List UInt8) :
    fieldFromJson p names node json index off dst nested element =
      valFromJson p node json index off dst := by
  rw [fieldFromJson]
  cases htype : node.type with
  | char | byte | bool | int16 | uint16 | int32 | uint32 | int64 | uint64 => rfl
  | _ => simp [htype, TypeEnum.isPlain] at h

theorem windows_of_isPlain (h : node.type.isPlain = true) :
    windows src off node = {(off + node.offset, node.size)} := by
  rw [windows]
  cases htype : node.type with
  | char | byte | bool | int16 | uint16 | int32 | uint32 | int64 | uint64 => rfl
  | _ => simp [htype, TypeEnum.isPlain] at h

/-- The bytes of a plain field of the encoded record, and that they pass its bounds. -/
theorem data_of_fieldToJson_of_isPlain (h : node.type.isPlain = true)
    (hsize : node.size = node.type.sizeofType) (horder : node.bigEndian = false)
    {v : Option Json}
    (hto : fieldToJson p level src names node off nestedJson elementJson = some (true, v)) :
    ∃ data value, safeRead src node.size (off + node.offset) = some data ∧
      node.options.isInBounds node.type (ofLE data) = true ∧
      simpleToJson p src node off = some value ∧ v = some value := by
  obtain ⟨hsimple, hne, hle⟩ := TypeEnum.isPlain_spec h
  rw [fieldToJson_of_isPlain h, validate, if_pos hsimple, if_neg (by omega),
    readByNode_eq_safeRead hne horder le_rfl] at hto
  cases hread : safeRead src node.size (off + node.offset) with
  | none => simp [hread] at hto
  | some data =>
    rw [hread] at hto
    simp only [Option.map_some, Option.bind_eq_bind, Option.bind_some] at hto
    split at hto
    · rename_i hbounds
      obtain ⟨value, hvalue, heq⟩ := Option.bind_eq_some_iff.mp hto
      exact ⟨data, value, rfl, hbounds, hvalue, (Prod.mk.inj (Option.some.inj heq)).2.symm⟩
    · cases hto

/-- What a plain field is encoded as, and what the decoder makes of it. -/
theorem getValue_of_simpleToJson (h : node.type.isPlain = true)
    (hsize : node.size = node.type.sizeofType) (horder : node.bigEndian = false)
    {data : List UInt8} {value : Json}
    (hread : safeRead src node.size (off + node.offset) = some data)
    (hbounds : node.options.isInBounds node.type (ofLE data) = true)
    (hvalue : simpleToJson p src node off = some value) :
    value.isNumberOrBoolean = true ∧
      node.type.writtenAs = some (node.size, node.type) ∧
      getValue node.size node.type value = some (ofLE data) := by
  obtain ⟨-, hne, -⟩ := TypeEnum.isPlain_spec h
  have hlt : ofLE data < 2 ^ (8 * node.size) := by
    have hlt := ofLE_lt data
    rw [length_of_safeRead hread] at hlt
    rwa [pow_mul]
  by_cases hbool : node.type = .bool
  · have hone : node.size = 1 := by rw [hsize, hbool]; rfl
    rw [simpleToJson, hbool] at hvalue
    simp only at hvalue
    rw [readByNode_eq_safeRead hne horder (by omega), ← hone, hread, Option.map_some] at hvalue
    rw [← Option.some.inj hvalue, hbool, hone]
    -- The bounds of a `BOOL` leave only zero and one.
    rw [hbool, SimpleOptions.isInBounds, decide_eq_true_eq] at hbounds
    rw [hone] at hlt
    refine ⟨rfl, rfl, ?_⟩
    have hcases : ofLE data = 0 ∨ ofLE data = 1 := by omega
    rcases hcases with hzero | hzero <;> rw [hzero] <;> rfl
  · obtain ⟨signed, hformat, hwritten⟩ := TypeEnum.integerFormat_of_isPlain h hbool
    have hnum : value = .num (toInteger node.size signed (ofLE data)) := by
      rw [simpleToJson] at hvalue
      split at hvalue
      · contradiction
      · rw [hformat, ← hsize] at hvalue
        simp only [Option.bind_eq_bind, Option.bind_some] at hvalue
        rw [readByNode_eq_safeRead hne horder le_rfl, hread] at hvalue
        exact (Option.some.inj hvalue).symm
    refine ⟨by rw [hnum]; rfl, by rw [hwritten, hsize], ?_⟩
    have hmod := toInteger_emod node.size signed (ofLE data)
    rw [Nat.mod_eq_of_lt hlt] at hmod
    rw [getValue, if_neg hbool, hnum, Json.getInteger_num hmod]

/-- The decoder restores plain fields. -/
theorem restores_of_isPlain (h : node.type.isPlain = true)
    (hsize : node.size = node.type.sizeofType) (horder : node.bigEndian = false)
    {v : Option Json}
    (hto : fieldToJson p level src names node off nestedJson elementJson = some (true, v)) :
    ∃ value, v = some value ∧ Restores p src names node off nested element value := by
  obtain ⟨data, value, hread, hbounds, hvalue, rfl⟩ :=
    data_of_fieldToJson_of_isPlain h hsize horder hto
  obtain ⟨hsimple, hne, hle⟩ := TypeEnum.isPlain_spec h
  obtain ⟨hnum, hwritten, hget⟩ := getValue_of_simpleToJson h hsize horder hread hbounds hvalue
  refine ⟨value, rfl, fun fields index dst hfind hlen => ?_⟩
  obtain ⟨dst', hwrite, hcopies, hslice, hreread⟩ := safeWrite_of_safeRead hlen hread
  have hdata : data.length = node.size := length_of_safeRead hread
  have hstore : writeTyped p node off node.size node.type (ofLE data) dst = some dst' := by
    rw [writeTyped, if_neg (by simp), ← hdata, toLE_ofLE,
      writeByNode_eq_safeWrite hne (by omega), hwrite]
  have hval : valFromJson p node (.obj fields) index off dst = some (.written dst') := by
    rw [valFromJson, hwritten]
    simp only [Option.bind_eq_bind, Option.bind_some, Json.find, hfind, hnum, if_true, hget, hstore]
    rfl
  have hvalid : validate p dst' off node = some true := by
    rw [validate, if_pos hsimple, if_neg (by omega), readByNode_eq_safeRead hne horder le_rfl,
      hreread, Option.map_some, hbounds]
  refine ⟨dst', ?_, hcopies, ?_⟩
  · rw [fieldFromJson_of_isPlain h, hval, Option.bind_some, finishField, hvalid]
    rfl
  · intro w hw _
    rw [windows_of_isPlain h] at hw
    rw [Set.mem_singleton_iff.mp hw]
    exact hslice

end Plain

/-! ### Enumerations -/

namespace EnumData

theorem value_of_itemByVal {enum : EnumData} {val : ℤ} {item : EnumItem}
    (h : enum.itemByVal val = some item) : item.value = val := by
  simpa using List.find?_some h

/-- With distinct names, an item is found by its name. -/
theorem itemByName_of_itemByVal {enum : EnumData} {val : ℤ} {item : EnumItem}
    (hnames : (enum.items.map fun item => item.name).Nodup)
    (h : enum.itemByVal val = some item) : enum.itemByName item.name = some item := by
  have hmem : item ∈ enum.items := List.mem_of_find?_eq_some h
  cases hfind : enum.itemByName item.name with
  | none =>
    have hnone := List.find?_eq_none.mp hfind item hmem
    simp at hnone
  | some other =>
    have hname : other.name = item.name := by simpa using List.find?_some hfind
    rw [List.inj_on_of_nodup_map hnames (List.mem_of_find?_eq_some hfind) hmem hname]

end EnumData

theorem getInt64_num {n : ℤ} (hlo : -2 ^ 63 ≤ n) (hhi : n < 2 ^ 63) :
    getInt64 (.num n) = some n := by
  rw [getInt64, Json.getInteger, Option.map_some]
  exact congrArg some (toSigned_emod hlo hhi)

/-- At every level of detail, the decoder finds the value an enumeration value was encoded
from. -/
theorem enumValFromJson_enumValToJson {level : JsonDetailsLevel} {enum : Option EnumData}
    (hnames : ∀ e, enum = some e → (e.items.map fun item => item.name).Nodup) {val : ℤ}
    (hlo : -2 ^ 63 ≤ val) (hhi : val < 2 ^ 63) {json : Json}
    (h : enumValToJson level enum val = (true, json)) :
    enumValFromJson enum json = some (some val) ∧
      ∃ e, enum = some e ∧ (e.itemByVal val).isSome = true := by
  cases enum with
  | none =>
    unfold enumValToJson at h
    cases level <;> cases h
  | some e =>
    unfold enumValToJson at h
    simp only at h
    cases hitem : e.itemByVal val with
    | none =>
      rw [hitem] at h
      cases level <;> cases h
    | some item =>
      have hvalue : item.value = val := EnumData.value_of_itemByVal hitem
      have hnum := getInt64_num hlo hhi
      refine ⟨?_, e, rfl, by rw [hitem]; rfl⟩
      rw [hitem] at h
      cases level with
      | enumValues =>
        obtain rfl := (Prod.mk.inj h).2
        simp [enumValFromJson, hvalue, hnum, hitem]
      | enumLables =>
        obtain rfl := (Prod.mk.inj h).2
        simp [enumValFromJson, EnumData.itemByName_of_itemByVal (hnames e rfl) hitem, hvalue]
      | enumFull =>
        obtain rfl := (Prod.mk.inj h).2
        simp [enumValFromJson, hvalue, hnum, hitem]

section Enum

variable {p : Platform} {level : JsonDetailsLevel} {src : List UInt8} {names : List String}
  {off : ℕ} {node : Node} {nestedJson : Option (Bool × Json.Fields)}
  {elementJson : ℕ → Option (Bool × Json.Fields)}
  {nested : Json → List UInt8 → Option (Bool × List UInt8)}
  {element : ℕ → Json → List UInt8 → Option (Bool × List UInt8)}

/-- The bytes of an enumeration field of the encoded record. -/
theorem data_of_enumNodeToJson (htype : node.type = .enum) (horder : node.bigEndian = false)
    {value : Json} (h : enumNodeToJson p level src node off = (true, value)) :
    (node.size = 1 ∨ node.size = 2 ∨ node.size = 4 ∨ node.size = 8) ∧
      ∃ data, safeRead src node.size (off + node.offset) = some data ∧
        enumValToJson level node.enum (toSigned node.size (ofLE data)) = (true, value) := by
  have hne : node.type ≠ .bitmap := by rw [htype]; decide
  have herror : ∀ text, (if level = .enumFull then (false, Json.obj [("name", .str text)])
      else (false, .str text)) ≠ (true, value) := by
    intro text
    split <;> exact fun heq => nomatch heq
  rw [enumNodeToJson] at h
  split at h
  · cases h
  · simp only at h
    by_cases hsize : node.size = 1 ∨ node.size = 2 ∨ node.size = 4 ∨ node.size = 8
    · rw [if_pos hsize, readByNode_eq_safeRead hne horder le_rfl] at h
      cases hread : safeRead src node.size (off + node.offset) with
      | none =>
        rw [hread] at h
        exact absurd h (herror _)
      | some data =>
        rw [hread] at h
        exact ⟨hsize, data, rfl, h⟩
    · rw [if_neg hsize] at h
      exact absurd h (herror _)

/-- The decoder restores enumeration fields. -/
theorem restores_of_enum (htype : node.type = .enum) (horder : node.bigEndian = false)
    (henum : ∀ e, node.enum = some e → (e.items.map fun item => item.name).Nodup)
    {v : Option Json}
    (hto : fieldToJson p level src names node off nestedJson elementJson = some (true, v)) :
    ∃ value, v = some value ∧ Restores p src names node off nested element value := by
  have hne : node.type ≠ .bitmap := by rw [htype]; decide
  rw [fieldToJson, htype] at hto
  simp only at hto
  split at hto
  · rename_i hcount
    obtain ⟨hok, rfl⟩ := Prod.mk.inj (Option.some.inj hto)
    refine ⟨_, rfl, fun fields index dst hfind hlen => ?_⟩
    obtain ⟨hsize, data, hread, hval⟩ := data_of_enumNodeToJson htype horder
      (Prod.ext hok rfl : enumNodeToJson p level src node off = (true, _))
    have hlt : ofLE data < 256 ^ node.size := by
      rw [← length_of_safeRead hread]
      exact ofLE_lt data
    obtain ⟨hlo, hhi⟩ := toSigned_bounds hsize (ofLE data)
    obtain ⟨hfrom, e, he, hitem⟩ := enumValFromJson_enumValToJson henum hlo hhi hval
    have hbytes : toLE node.size (toSigned node.size (ofLE data) % 2 ^ 64).toNat = data := by
      rw [← length_of_safeRead hread]
      apply toLE_of_modEq
      rw [length_of_safeRead hread]
      exact toSigned_emod_mod hsize hlt
    obtain ⟨dst', hwrite, hcopies, hslice, hreread⟩ := safeWrite_of_safeRead hlen hread
    have hle : ¬8 < node.size := by omega
    have hdec : enumFromJson p node (.obj fields) index off dst = some (.written dst') := by
      unfold enumFromJson
      simp only [Json.find, hfind, Option.bind_eq_bind, Option.bind_some, if_neg hle, hfrom,
        Option.map_some, hbytes]
      rw [writeByNode_eq_safeWrite hne (length_of_safeRead hread).le, hwrite]
      rfl
    have hvalid : validate p dst' off node = some true := by
      have hre : reinterpretEnum node.size (ofLE data) = toSigned node.size (ofLE data) := by
        rw [reinterpretEnum]
        rcases hsize with h | h | h | h <;> simp [h]
      rw [validate, if_neg (by rw [htype]; decide), if_pos htype, if_neg hle,
        readByNode_eq_safeRead hne horder le_rfl, hreread]
      simp only [he, Option.getD_some, hre, hitem]
    refine ⟨dst', ?_, hcopies, ?_⟩
    · rw [fieldFromJson, htype]
      simp only [if_pos hcount, hdec, Option.bind_some, finishField, hvalid, Option.map_some]
    · intro w hw _
      rw [windows, htype] at hw
      rw [Set.mem_singleton_iff.mp hw]
      exact hslice
  · cases hto

end Enum

/-! ### Strings and buffers -/

section Text

variable {p : Platform} {level : JsonDetailsLevel} {src : List UInt8} {names : List String}
  {off : ℕ} {node : Node} {nestedJson : Option (Bool × Json.Fields)}
  {elementJson : ℕ → Option (Bool × Json.Fields)}
  {nested : Json → List UInt8 → Option (Bool × List UInt8)}
  {element : ℕ → Json → List UInt8 → Option (Bool × List UInt8)}

/-- The text of a string field with its zero, as a window of the record. -/
theorem safeRead_text {buf data : List UInt8} {n o : ℕ} (h : safeRead buf n o = some data)
    (hnul : 0 ∈ data) :
    safeRead buf ((Text.untilNul data).length + 1) o = some (Text.untilNul data ++ [0]) := by
  obtain ⟨hle, rfl⟩ := safeRead_eq_some h
  have hlt := Text.length_untilNul_lt hnul
  rw [length_slice (by omega)] at hlt
  have htake := Text.take_untilNul hnul
  rw [take_slice buf o (by omega)] at htake
  rw [safeRead, if_pos (by omega), htake]

/-- The decoder restores string fields. -/
theorem restores_of_string (htype : node.type = .string) (horder : node.bigEndian = false)
    {v : Option Json}
    (hto : fieldToJson p level src names node off nestedJson elementJson = some (true, v)) :
    ∃ value, v = some value ∧ Restores p src names node off nested element value := by
  have hne : node.type ≠ .bitmap := by rw [htype]; decide
  rw [fieldToJson, htype] at hto
  obtain ⟨⟨ok, value⟩, hstring, heq⟩ := Option.map_eq_some_iff.mp hto
  obtain ⟨rfl, rfl⟩ := Prod.mk.inj heq
  rw [stringToJson] at hstring
  split at hstring
  · cases hstring
  · rw [readByNode_eq_safeRead hne horder le_rfl] at hstring
    cases hread : safeRead src node.size (off + node.offset) with
    | none =>
      rw [hread] at hstring
      cases hstring
    | some data =>
      rw [hread] at hstring
      simp only at hstring
      split at hstring
      · rename_i hnul
        obtain ⟨-, rfl⟩ := Prod.mk.inj (Option.some.inj hstring)
        refine ⟨_, rfl, fun fields index dst hfind hlen => ?_⟩
        obtain ⟨dst', hwrite, hcopies, hslice, -⟩ :=
          safeWrite_of_safeRead hlen (safeRead_text hread hnul)
        have hsize : (Text.untilNul data).length + 1 ≤ node.size := by
          rw [← length_of_safeRead hread]
          exact Text.length_untilNul_lt hnul
        have hdec : stringFromJson p node (.obj fields) index off dst =
            some (.written dst') := by
          unfold stringFromJson
          simp only [Json.find, hfind, Text.toBytes_ofBytes, Text.untilNul_untilNul]
          rw [writeString, if_neg (by simp [htype]), if_neg (by omega),
            writeByNode_eq_safeWrite hne (by simpa using hsize), hwrite]
          rfl
        have hvalid : validate p dst' off node = some true := by
          rw [validate, htype]
          rfl
        refine ⟨dst', ?_, hcopies, ?_⟩
        · rw [fieldFromJson, htype]
          simp only [hdec, Option.bind_some, finishField, hvalid, Option.map_some]
        · intro w hw _
          rw [windows, htype] at hw
          rw [Set.mem_singleton_iff.mp hw, ← (safeRead_eq_some hread).2]
          exact hslice
      · cases hstring

/-- The decoder restores buffers. -/
theorem restores_of_buffer (htype : node.type = .buffer) (horder : node.bigEndian = false)
    {v : Option Json}
    (hto : fieldToJson p level src names node off nestedJson elementJson = some (true, v)) :
    ∃ value, v = some value ∧ Restores p src names node off nested element value := by
  have hne : node.type ≠ .bitmap := by rw [htype]; decide
  rw [fieldToJson, htype] at hto
  obtain ⟨hok, rfl⟩ := Prod.mk.inj (Option.some.inj hto)
  rw [bufferToJson] at hok ⊢
  split at hok
  · cases hok
  · rename_i hsize
    rw [if_neg hsize]
    rw [readByNode_eq_safeRead hne horder le_rfl] at hok ⊢
    cases hread : safeRead src node.size (off + node.offset) with
    | none =>
      rw [hread] at hok
      cases hok
    | some data =>
      refine ⟨_, rfl, fun fields index dst hfind hlen => ?_⟩
      have hdata : data.length = node.size := length_of_safeRead hread
      obtain ⟨dst', hwrite, hcopies, hslice, -⟩ := safeWrite_of_safeRead hlen hread
      have hdec : bufferFromJson p node (.obj fields) off dst = some (.written dst') := by
        unfold bufferFromJson
        simp only [Json.find, hfind, Text.hexString2buf_buf2hexString hdata.le]
        rw [if_neg (by omega), writeByNode_eq_safeWrite hne hdata.le, hwrite]
        rfl
      have hvalid : validate p dst' off node = some true := by
        rw [validate, htype]
        rfl
      refine ⟨dst', ?_, hcopies, ?_⟩
      · rw [fieldFromJson, htype]
        simp only [hdec, Option.bind_some, finishField, hvalid, Option.map_some]
      · intro w hw _
        rw [windows, htype] at hw
        rw [Set.mem_singleton_iff.mp hw]
        exact hslice

end Text

/-! ### Arrays -/

theorem collectJson_eq_some {encode : ℕ → Option (Bool × Json)} {n : ℕ} {values : List Json}
    (h : collectJson encode n = some (true, values)) :
    values.length = n ∧ ∀ j < n, ∃ value, encode j = some (true, value) ∧
      values[j]? = some value := by
  induction n generalizing values with
  | zero =>
    obtain ⟨-, rfl⟩ := Prod.mk.inj (Option.some.inj h)
    exact ⟨rfl, fun j hj => absurd hj (Nat.not_lt_zero j)⟩
  | succ n ih =>
    rw [collectJson] at h
    obtain ⟨⟨ok, front⟩, hfront, h⟩ := Option.bind_eq_some_iff.mp h
    obtain ⟨⟨ok', last⟩, hlast, h⟩ := Option.bind_eq_some_iff.mp h
    obtain ⟨hok, rfl⟩ := Prod.mk.inj (Option.some.inj h)
    obtain ⟨rfl, rfl⟩ := (Bool.and_eq_true _ _).mp hok
    obtain ⟨hlen, hall⟩ := ih hfront
    refine ⟨by rw [List.length_append, hlen]; rfl, fun j hj => ?_⟩
    rcases Nat.lt_succ_iff_lt_or_eq.mp hj with hj | rfl
    · obtain ⟨value, hvalue, hget⟩ := hall j hj
      exact ⟨value, hvalue, by rw [List.getElem?_append_left (by omega), hget]⟩
    · exact ⟨last, hlast, by rw [List.getElem?_append_right (by omega), hlen]; simp⟩

/-- The loop over the elements: if every element can be stored, all are, and what an element
establishes is kept by the later ones. -/
theorem storeElements_of {store : ℕ → Json → List UInt8 → Option (Bool × List UInt8)}
    {src : List UInt8} {P : ℕ → List UInt8 → Prop} {values : List Json} (start : ℕ)
    {buf : List UInt8} (hlen : buf.length = src.length)
    (hmono : ∀ j b b', P j b → Copies src b b' → P j b')
    (hstore : ∀ j value b, values[j]? = some value → b.length = src.length →
      ∃ b', store (start + j) value b = some (true, b') ∧ Copies src b b' ∧ P (start + j) b') :
    ∃ buf', storeElements store values start buf = some (true, buf') ∧ Copies src buf buf' ∧
      ∀ j < values.length, P (start + j) buf' := by
  induction values generalizing start buf with
  | nil => exact ⟨buf, rfl, Copies.refl src buf, fun j hj => absurd hj (Nat.not_lt_zero j)⟩
  | cons value values ih =>
    obtain ⟨b, hb, hcopies, hP⟩ := hstore 0 value buf rfl hlen
    obtain ⟨buf', hrest, hcopies', hall⟩ := ih (start + 1) (hcopies.1.trans hlen)
      fun j value' b' hget hb' => by
        have h := hstore (j + 1) value' b' hget hb'
        rwa [show start + 1 + j = start + (j + 1) by omega]
    refine ⟨buf', ?_, hcopies.trans hcopies', fun j hj => ?_⟩
    · rw [storeElements, ← Nat.add_zero start, hb]
      exact hrest
    · cases j with
      | zero => exact hmono _ b buf' hP hcopies'
      | succ j =>
        have h := hall j (Nat.lt_of_succ_lt_succ hj)
        rwa [show start + (j + 1) = start + 1 + j by omega]

/-- Where the loop succeeds, every element has been stored. -/
theorem storeElements_true {store : ℕ → Json → List UInt8 → Option (Bool × List UInt8)}
    {values : List Json} {start : ℕ} {buf buf' : List UInt8}
    (h : storeElements store values start buf = some (true, buf')) {j : ℕ} {value : Json}
    (hget : values[j]? = some value) :
    ∃ b b', store (start + j) value b = some (true, b') := by
  induction values generalizing start buf j with
  | nil => cases hget
  | cons head values ih =>
    rw [storeElements] at h
    obtain ⟨⟨ok, b⟩, hhead, h⟩ := Option.bind_eq_some_iff.mp h
    cases ok with
    | false => cases h
    | true =>
      cases j with
      | zero =>
        obtain rfl := Option.some.inj hget
        exact ⟨buf, b, hhead⟩
      | succ j =>
        obtain ⟨b₁, b₂, hj⟩ := ih h hget
        exact ⟨b₁, b₂, by rwa [show start + (j + 1) = start + 1 + j by omega]⟩

section ArrayElement

variable {level : JsonDetailsLevel} {src dst data : List UInt8} {off j : ℕ} {node child : Node}

/-- Writing an element back, as far as it could be read. -/
theorem writeAt_of_readAt (hlen : dst.length = src.length) (horder : child.bigEndian = false)
    (hdata : data.length = child.size)
    (h : ∀ bytes, readAt src off node child j = some bytes → data = bytes) :
    Copies src dst (writeAt dst off node child j data) ∧
      (off + node.offset + j * child.size + child.size ≤ src.length →
        slice (writeAt dst off node child j data) (off + node.offset + j * child.size)
          child.size = slice src (off + node.offset + j * child.size) child.size) := by
  have hreadAt : readAt src off node child j =
      safeRead src child.size (off + node.offset + j * child.size) := by
    rw [readAt, horder]
    exact Option.map_id'
  cases hread : safeRead src child.size (off + node.offset + j * child.size) with
  | none =>
    -- The element is outside the buffer, and the write is dropped.
    have hout : ¬child.size + (off + node.offset + j * child.size) ≤ src.length := by
      intro hin
      rw [safeRead, if_pos hin] at hread
      cases hread
    have hsame : writeAt dst off node child j data = dst := by
      rw [writeAt, safeWrite, if_neg (by omega)]
      rfl
    rw [hsame]
    exact ⟨Copies.refl src dst, fun hin => absurd hin (by omega)⟩
  | some bytes =>
    rw [hreadAt, hread] at h
    obtain rfl := h bytes rfl
    obtain ⟨dst', hwrite, hcopies, hslice, -⟩ := safeWrite_of_safeRead hlen hread
    have hsame : writeAt dst off node child j data = dst' := by
      rw [writeAt, hwrite]
      rfl
    rw [hsame]
    exact ⟨hcopies, fun _ => hslice⟩

theorem length_of_readAt (horder : child.bigEndian = false) {bytes : List UInt8}
    (hread : readAt src off node child j = some bytes) : bytes.length = child.size := by
  obtain ⟨raw, hraw, rfl⟩ := Option.map_eq_some_iff.mp hread
  rw [horder, convertOrder_false]
  exact length_of_safeRead hraw

/-- The bytes of an element hold a number of 64 bits. -/
theorem ofLE_readAt_lt (horder : child.bigEndian = false) (hsize : child.size ≤ 8) :
    ofLE ((readAt src off node child j).getD []) < 2 ^ 64 := by
  cases hread : readAt src off node child j with
  | none => exact Nat.two_pow_pos 64
  | some bytes =>
    have hle : (256 : ℕ) ^ child.size ≤ 256 ^ 8 := Nat.pow_le_pow_right (by omega) hsize
    have h := ofLE_lt bytes
    rw [length_of_readAt horder hread] at h
    rw [Option.getD_some]
    omega

/-- A number of 64 bits gives the bytes of an element back. -/
theorem toLE_of_readAt (horder : child.bigEndian = false) (hsize : child.size ≤ 8)
    {bytes : List UInt8} (hread : readAt src off node child j = some bytes) {k : ℕ}
    (hk : k % 2 ^ 64 = ofLE bytes) : toLE child.size k = bytes := by
  have hlength := length_of_readAt horder hread
  rw [← hlength]
  apply toLE_of_modEq
  have hdvd : (256 : ℕ) ^ bytes.length ∣ 2 ^ 64 := by
    rw [show (256 : ℕ) = 2 ^ 8 by rfl, ← pow_mul]
    exact Nat.pow_dvd_pow 2 (by omega)
  rw [← Nat.mod_mod_of_dvd k hdvd, hk]
  exact Nat.mod_eq_of_lt (ofLE_lt bytes)

/-- The decoder restores an element that is not complex. -/
theorem elementValueFromJson_of (hlen : dst.length = src.length) (htype : node.type = .array)
    (horder : child.bigEndian = false) (hsame : child.enum = node.enum)
    (henum : child.type = .enum →
      ∀ e, child.enum = some e → (e.items.map fun item => item.name).Nodup) {value : Json}
    (hto : elementValueToJson level src node child off j = some (true, value)) :
    ∃ dst', elementValueFromJson node child off j value dst = some (true, dst') ∧
      Copies src dst dst' ∧
      (off + node.offset + j * child.size + child.size ≤ src.length →
        slice dst' (off + node.offset + j * child.size) child.size =
          slice src (off + node.offset + j * child.size) child.size) := by
  rw [elementValueToJson] at hto
  split at hto
  · cases hto
  · rename_i hsize
    have hle : child.size ≤ 8 := by omega
    -- the number the bytes of the element hold
    obtain ⟨v, hv⟩ : ∃ v, v = ofLE ((readAt src off node child j).getD []) := ⟨_, rfl⟩
    have hlt : v < 2 ^ 64 := by
      rw [hv]
      exact ofLE_readAt_lt horder hle
    have hback : ∀ k, k % 2 ^ 64 = v → ∀ bytes, readAt src off node child j = some bytes →
        toLE child.size k = bytes := by
      intro k hk bytes hread
      refine toLE_of_readAt horder hle hread ?_
      rw [hk, hv, hread]
      rfl
    rw [elementValueFromJson, if_neg hsize]
    simp only [← hv] at hto
    split at hto
    · rename_i henumType
      obtain ⟨hlo, hhi⟩ := toSigned_bounds (Or.inr (Or.inr (Or.inr rfl))) v
      rw [← hsame] at hto
      obtain ⟨hfrom, -⟩ := enumValFromJson_enumValToJson (henum henumType) hlo hhi
        (Option.some.inj hto)
      have hk := toSigned_emod_mod (Or.inr (Or.inr (Or.inr rfl))) hlt
      obtain ⟨hcopies, hslice⟩ := writeAt_of_readAt hlen horder (length_toLE _ _)
        (hback (toSigned 8 v % 2 ^ 64).toNat hk)
      refine ⟨_, ?_, hcopies, hslice⟩
      rw [if_pos henumType, hfrom]
      rfl
    · rename_i henumType
      split at hto
      · split at hto
        · cases hto
        · rename_i hfloat
          obtain ⟨-, rfl⟩ := Prod.mk.inj (Option.some.inj hto)
          have hget : (Json.num v).getInteger 8 = some v := Json.getInteger_natCast hlt
          have hbounds : node.options.isInBounds node.type v = true := by
            simp [htype, SimpleOptions.isInBounds, TypeEnum.valueLt, TypeEnum.integerFormat]
          obtain ⟨hcopies, hslice⟩ := writeAt_of_readAt hlen horder (length_toLE _ _)
            (hback v (Nat.mod_eq_of_lt hlt))
          refine ⟨_, ?_, hcopies, hslice⟩
          rw [if_neg henumType, if_neg hfloat, hget, Option.map_some, if_pos hbounds]
      · cases hto

end ArrayElement

end UtilityFramework
