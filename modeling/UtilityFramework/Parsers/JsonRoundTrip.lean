import UtilityFramework.Parsers.Builder
import UtilityFramework.Parsers.FieldCodec

/-!
# Records through JSON

`from_json` on a new record of the same metadata gives back every field of the record that
`to_json` has encoded, except in one situation: an element of an array of complex elements
that has no members at all is encoded as null, which the decoder does not accept. For a
nested field the encoder reports the same situation as an error.

The decoder takes over bytes of the encoded record at their own positions only, so what a
field establishes is kept by the fields after it, whatever the layout of the record.
-/

namespace UtilityFramework

open Bytes

namespace BinaryMetadata

/-- The record of `n` at offset `o` is part of the record of `m` at offset `off`: as a nested
field, or as an element of an array. -/
inductive Reaches : BinaryMetadata → ℕ → BinaryMetadata → ℕ → Prop
  | refl (m : BinaryMetadata) (off : ℕ) : Reaches m off m off
  | nested {m n m' : BinaryMetadata} {off o : ℕ} {node : Node} (hnode : node ∈ m.nodes)
    (htype : node.type = .complex) (hnested : node.nested = some m')
    (h : Reaches m' (off + node.offset) n o) : Reaches m off n o
  | element {m n m' : BinaryMetadata} {off o j : ℕ} {node child : Node} (hnode : node ∈ m.nodes)
    (htype : node.type = .array) (hchild : node.child = some child)
    (hcomplex : child.type = .complex) (hnested : child.nested = some m') (hj : j < node.count)
    (h : Reaches m' (off + node.offset + child.size * j) n o) : Reaches m off n o

/-- A statement about all records inside a record, level by level. -/
theorem forall_reaches {m : BinaryMetadata} {off : ℕ} {Q : BinaryMetadata → ℕ → Prop}
    (hself : Q m off)
    (hnested : ∀ node ∈ m.nodes, node.type = .complex → ∀ m', node.nested = some m' →
      ∀ n o, m'.Reaches (off + node.offset) n o → Q n o)
    (helement : ∀ node ∈ m.nodes, node.type = .array → ∀ child, node.child = some child →
      child.type = .complex → ∀ m', child.nested = some m' → ∀ j < node.count,
      ∀ n o, m'.Reaches (off + node.offset + child.size * j) n o → Q n o)
    (n : BinaryMetadata) (o : ℕ) (h : m.Reaches off n o) : Q n o := by
  cases h with
  | refl => exact hself
  | nested hnode htype hm' hreach => exact hnested _ hnode htype _ hm' n o hreach
  | element hnode htype hchild hcomplex hm' hj hreach =>
    exact helement _ hnode htype _ hchild hcomplex _ hm' _ hj n o hreach

end BinaryMetadata

/-! ### The records in question -/

/-- An enumeration value of 1, 2, 4 or 8 bytes, of an enumeration with distinct names and
values. -/
def Node.IsEnumValue (node : Node) : Prop :=
  (node.size = 1 ∨ node.size = 2 ∨ node.size = 4 ∨ node.size = 8) ∧
    ∀ e, node.enum = some e → (e.items.map fun item => item.name).Nodup ∧
      (e.items.map fun item => item.value).Nodup

/-- An integer of its natural size, an enumeration value or a nested metadata. -/
def Node.IsJsonElement (child : Node) : Prop :=
  child.bigEndian = false ∧
    match child.type with
    | .enum => child.IsEnumValue
    | .complex => child.nested.isSome
    | type => type.isPlain = true ∧ child.size = type.sizeofType

/-- A field in the byte order of the platform: an integer or a `BOOL` of its natural size, an
enumeration value, a string that ends inside the field, a buffer that is not too long, a
nested metadata, or an array of integers, enumeration values or nested metadata. -/
def Node.IsJsonField (src : List UInt8) (off : ℕ) (node : Node) : Prop :=
  node.bigEndian = false ∧
    match node.type with
    | .enum => node.IsEnumValue
    | .string => 0 ∈ slice src (off + node.offset) node.size
    | .buffer => node.size ≤ buffMaxSize
    | .complex => node.nested.isSome
    | .array => ∃ child, node.child = some child ∧ child.IsJsonElement
    | type => type.isPlain = true ∧ node.size = type.sizeofType

namespace BinaryMetadata

/-- At every level the names are distinct and the fields are of the kinds above. -/
def IsJsonRecord (src : List UInt8) (m : BinaryMetadata) (off : ℕ) : Prop :=
  ∀ n o, m.Reaches off n o → (n.nodes.map fun node => node.name).Nodup ∧
    ∀ node ∈ n.nodes, node.IsJsonField src o

/-- Some field always gets a member: not all of them are arrays without elements. -/
def HasMembers (m : BinaryMetadata) : Prop :=
  ∃ node ∈ m.nodes, ¬(node.type = .array ∧ node.count = 0)

/-- At every level, the elements of the arrays that have elements have members. -/
def ElementsHaveMembers (m : BinaryMetadata) (off : ℕ) : Prop :=
  ∀ n o, m.Reaches off n o → ∀ node ∈ n.nodes, ∀ child m', node.type = .array →
    node.child = some child → child.type = .complex → child.nested = some m' →
    0 < node.count → m'.HasMembers

end BinaryMetadata

/-- The field reads the same in both records: strings up to the zero, arrays element by
element. Nested fields are compared at their own level. -/
def ReadsSame (p : Platform) (src dst : List UInt8) (off : ℕ) (node : Node) : Prop :=
  match node.type with
  | .string => (readByNode p dst off node node.size).map Text.untilNul =
      (readByNode p src off node node.size).map Text.untilNul
  | .array => ∀ child, node.child = some child → child.type ≠ .complex →
      ∀ j < node.count, readAt dst off node child j = readAt src off node child j
  | .complex => True
  | _ => readByNode p dst off node node.size = readByNode p src off node node.size

/-! ### From agreement to values -/

section Values

variable {p : Platform} {src dst : List UInt8} {off : ℕ} {node : Node}

theorem safeRead_congr (hlen : dst.length = src.length) {n o : ℕ}
    (h : o + n ≤ src.length → slice dst o n = slice src o n) :
    safeRead dst n o = safeRead src n o := by
  rw [safeRead, safeRead, hlen]
  split
  · rw [h (by omega)]
  · rfl

/-- A C string is determined by the bytes up to its zero. -/
theorem untilNul_slice_eq {o n : ℕ} (hin : o + n ≤ src.length) (hnul : 0 ∈ slice src o n)
    (h : slice dst o ((Text.untilNul (slice src o n)).length + 1) =
      slice src o ((Text.untilNul (slice src o n)).length + 1)) :
    Text.untilNul (slice dst o n) = Text.untilNul (slice src o n) := by
  have hle := Text.length_untilNul_lt hnul
  rw [length_slice hin] at hle
  have htext := Text.take_untilNul hnul
  have hmem : 0 ∈ (slice src o n).take ((Text.untilNul (slice src o n)).length + 1) := by
    rw [htext]
    simp
  rw [← take_slice dst o hle, ← take_slice src o hle] at h
  calc Text.untilNul (slice dst o n)
      = Text.untilNul ((slice dst o n).take ((Text.untilNul (slice src o n)).length + 1)) :=
        (Text.untilNul_take (h ▸ hmem)).symm
    _ = Text.untilNul ((slice src o n).take ((Text.untilNul (slice src o n)).length + 1)) := by
        rw [h]
    _ = Text.untilNul (slice src o n) := Text.untilNul_take hmem

theorem Agrees.readsSame (hlen : dst.length = src.length) (hfield : node.IsJsonField src off)
    (h : Agrees src dst off node) : ReadsSame p src dst off node := by
  obtain ⟨horder, hkind⟩ := hfield
  have hread : ∀ buf, node.type ≠ .bitmap →
      readByNode p buf off node node.size = safeRead buf node.size (off + node.offset) :=
    fun buf hne => readByNode_eq_safeRead hne horder le_rfl
  rw [ReadsSame]
  split
  · rename_i htype
    rw [htype] at hkind
    rw [hread dst (by rw [htype]; decide), hread src (by rw [htype]; decide)]
    rw [safeRead, safeRead, hlen]
    split
    · rename_i hin
      have hlt := Text.length_untilNul_lt hkind
      rw [length_slice (by omega)] at hlt
      have hslice := h (off + node.offset, _) (by rw [windows, htype]; exact rfl)
        (by simp only; omega)
      exact congrArg some (untilNul_slice_eq (by omega) hkind hslice)
    · rfl
  · rename_i htype
    rw [htype] at hkind
    intro child hchild hne j hj
    obtain ⟨c, hc, helement⟩ := hkind
    obtain rfl : child = c := Option.some.inj (hchild.symm.trans hc)
    rw [readAt, readAt, safeRead_congr hlen]
    intro hin
    refine h (off + node.offset + j * child.size, child.size) ?_ hin
    rw [windows, htype]
    exact ⟨child, hchild, hne, j, hj, rfl⟩
  · trivial
  · rename_i hstring harray hcomplex
    have hne : node.type ≠ .bitmap := by
      intro hbitmap
      rw [hbitmap] at hkind
      cases hkind.1
    rw [hread dst hne, hread src hne, safeRead_congr hlen]
    intro hin
    refine h (off + node.offset, node.size) ?_ hin
    rw [windows]
    split
    · contradiction
    · contradiction
    · contradiction
    · rfl

end Values

/-! ### Members -/

section Members

variable {p : Platform} {level : JsonDetailsLevel} {src : List UInt8} {off : ℕ}
  {names : List String}

/-- The assignments of the encoder's loop: one for each field that has a value. -/
theorem nodesToJson_eq_some {nodes : List Node} {assignments : List (String × Json)}
    (h : nodesToJson p level src names nodes off = some (true, assignments)) :
    (∀ node ∈ nodes, ∃ v, nodeToJson p level src names node off = some (true, v) ∧
        ∀ value, v = some value → (node.name, value) ∈ assignments) ∧
      ∀ a ∈ assignments, ∃ node ∈ nodes, node.name = a.1 ∧
        nodeToJson p level src names node off = some (true, some a.2) := by
  induction nodes generalizing assignments with
  | nil =>
    obtain ⟨-, rfl⟩ := Prod.mk.inj (Option.some.inj h)
    exact ⟨fun node hnode => absurd hnode List.not_mem_nil, fun a ha => absurd ha List.not_mem_nil⟩
  | cons node nodes ih =>
    rw [nodesToJson] at h
    obtain ⟨⟨ok, v⟩, hnode, h⟩ := Option.bind_eq_some_iff.mp h
    obtain ⟨⟨ok', rest⟩, hrest, h⟩ := Option.bind_eq_some_iff.mp h
    obtain ⟨hok, rfl⟩ := Prod.mk.inj (Option.some.inj h)
    obtain ⟨rfl, rfl⟩ := (Bool.and_eq_true _ _).mp hok
    obtain ⟨hall, hback⟩ := ih hrest
    constructor
    · intro n hn
      rcases List.mem_cons.mp hn with rfl | hn
      · exact ⟨v, hnode, fun value hv => List.mem_append_left _ (by simp [hv])⟩
      · obtain ⟨w, hw, hmem⟩ := hall n hn
        exact ⟨w, hw, fun value hv => List.mem_append_right _ (hmem value hv)⟩
    · intro a ha
      rcases List.mem_append.mp ha with ha | ha
      · obtain ⟨value, rfl, rfl⟩ : ∃ value, v = some value ∧ (node.name, value) = a := by
          simpa using ha
        exact ⟨node, List.mem_cons_self, rfl, hnode⟩
      · obtain ⟨n, hn, hname, hvalue⟩ := hback a ha
        exact ⟨n, List.mem_cons_of_mem node hn, hname, hvalue⟩

/-- With distinct names, the member of a field is its value. -/
theorem get?_of_json {m : BinaryMetadata} {fields : Json.Fields}
    (hnames : (m.nodes.map fun node => node.name).Nodup)
    (h : m.json p level src off = some (true, fields)) {node : Node} (hnode : node ∈ m.nodes) :
    nodeToJson p level src (m.nodes.map fun node => node.name) node off =
      some (true, fields.get? node.name) := by
  rw [BinaryMetadata.json_eq] at h
  obtain ⟨⟨ok, assignments⟩, hloop, heq⟩ := Option.map_eq_some_iff.mp h
  obtain ⟨rfl, rfl⟩ := Prod.mk.inj heq
  obtain ⟨hall, hback⟩ := nodesToJson_eq_some hloop
  obtain ⟨v, hv, hmem⟩ := hall node hnode
  -- Whoever assigned to the name is this field.
  have hunique : ∀ a ∈ assignments, a.1 = node.name → v = some a.2 := by
    intro a ha hname
    obtain ⟨n, hn, hna, hvalue⟩ := hback a ha
    obtain rfl := List.inj_on_of_nodup_map hnames hn hnode (hna.trans hname)
    exact (Prod.mk.inj (Option.some.inj (hv.symm.trans hvalue))).2
  rw [hv]
  cases v with
  | none =>
    rw [Json.Fields.get?_assign_of_not_mem]
    exact fun a ha hname => nomatch hunique a ha hname
  | some value =>
    rw [Json.Fields.get?_assign_of_mem (hmem value rfl)]
    exact fun a ha hname => (Option.some.inj (hunique a ha hname)).symm

theorem fields_eq_nil_iff {m : BinaryMetadata} {fields : Json.Fields}
    (hnames : (m.nodes.map fun node => node.name).Nodup)
    (h : m.json p level src off = some (true, fields)) :
    fields = [] ↔ ∀ node ∈ m.nodes, fields.get? node.name = none := by
  constructor
  · rintro rfl node -
    rfl
  · intro hnone
    have hjson := h
    rw [BinaryMetadata.json_eq] at h
    obtain ⟨⟨ok, assignments⟩, hloop, heq⟩ := Option.map_eq_some_iff.mp h
    obtain ⟨rfl, rfl⟩ := Prod.mk.inj heq
    rw [Json.Fields.assign_eq_nil_iff, List.eq_nil_iff_forall_not_mem]
    intro a ha
    obtain ⟨node, hnode, -, hvalue⟩ := (nodesToJson_eq_some hloop).2 a ha
    have hmember := get?_of_json hnames hjson hnode
    rw [hnone node hnode, hvalue] at hmember
    cases hmember

end Members

/-! ### Values of fields -/

section FieldValues

variable {p : Platform} {level : JsonDetailsLevel} {src : List UInt8} {off : ℕ}
  {names : List String} {node : Node} {v : Option Json}

/-- The value of an array field: the values of its elements, unless it has none. -/
theorem array_of_nodeToJson (htype : node.type = .array)
    (h : nodeToJson p level src names node off = some (true, v)) :
    names.count node.name = 1 ∧ ∃ child values, node.child = some child ∧
      collectJson (arrayElementToJson level src node child off fun o =>
        node.element.bind fun m => m.json p level src o) node.count = some (true, values) ∧
      v = if values.isEmpty then none else some (.arr values) := by
  rw [nodeToJson_eq, fieldToJson, htype] at h
  simp only at h
  split at h
  · rename_i hcount
    refine ⟨hcount, ?_⟩
    rw [arrayToJson] at h
    cases hchild : node.child with
    | none =>
      rw [hchild] at h
      cases h
    | some child =>
      rw [hchild] at h
      simp only at h
      split at h
      · cases h
      · obtain ⟨⟨ok, values⟩, hcollect, h⟩ := Option.bind_eq_some_iff.mp h
        obtain ⟨rfl, rfl⟩ := Prod.mk.inj (Option.some.inj h)
        exact ⟨child, values, rfl, hcollect, rfl⟩
  · cases h

/-- The value of a nested field: the members of the nested record, of which there are
some. -/
theorem complex_of_nodeToJson (htype : node.type = .complex)
    (h : nodeToJson p level src names node off = some (true, v)) :
    names.count node.name = 1 ∧ ∃ m fields, node.nested = some m ∧
      m.json p level src (off + node.offset) = some (true, fields) ∧ fields ≠ [] ∧
      v = some (.obj fields) := by
  rw [nodeToJson_eq, fieldToJson, htype] at h
  simp only at h
  split at h
  · rename_i hcount
    refine ⟨hcount, ?_⟩
    obtain ⟨⟨ok, fields⟩, hjson, h⟩ := Option.map_eq_some_iff.mp h
    obtain ⟨m, hm, hjson⟩ := Option.bind_eq_some_iff.mp hjson
    simp only at h
    split at h
    · cases h
    · rename_i hnil
      obtain ⟨rfl, rfl⟩ := Prod.mk.inj h
      exact ⟨m, fields, hm, hjson, by simpa using hnil, rfl⟩
  · cases h

/-- The kinds of fields that are neither nested nor arrays: they have a value, and the decoder
restores it. -/
theorem restores_of_leaf (hfield : node.IsJsonField src off) (hcomplex : node.type ≠ .complex)
    (harray : node.type ≠ .array)
    (h : nodeToJson p level src names node off = some (true, v))
    (nested : Json → List UInt8 → Option (Bool × List UInt8))
    (element : ℕ → Json → List UInt8 → Option (Bool × List UInt8)) :
    ∃ value, v = some value ∧ Restores p src names node off nested element value := by
  obtain ⟨horder, hkind⟩ := hfield
  rw [nodeToJson_eq] at h
  split at hkind
  · rename_i htype
    exact restores_of_enum htype horder (fun e he => (hkind.2 e he).1) h
  · rename_i htype
    exact restores_of_string htype horder h
  · rename_i htype
    exact restores_of_buffer htype horder h
  · contradiction
  · contradiction
  · exact restores_of_isPlain hkind.1 hkind.2 horder h

/-- Only an array without elements has no value. -/
theorem value_eq_none_iff (hfield : node.IsJsonField src off)
    (h : nodeToJson p level src names node off = some (true, v)) :
    v = none ↔ node.type = .array ∧ node.count = 0 := by
  by_cases harray : node.type = .array
  · obtain ⟨-, child, values, -, hcollect, rfl⟩ := array_of_nodeToJson harray h
    have hlen := (collectJson_eq_some hcollect).1
    rw [← hlen]
    cases values with
    | nil => simp [harray]
    | cons value values => simp
  · by_cases hcomplex : node.type = .complex
    · obtain ⟨-, m, fields, -, -, -, rfl⟩ := complex_of_nodeToJson hcomplex h
      simp [harray]
    · obtain ⟨value, rfl, -⟩ := restores_of_leaf hfield hcomplex harray h
        (fun _ _ => none) (fun _ _ _ => none)
      simp [harray]

end FieldValues

/-! ### The decoder's loop -/

section Loop

variable {p : Platform} {src : List UInt8} {off : ℕ} {names : List String} {json : Json}

/-- If every field can be decoded, all are, and what a field establishes is kept by the later
ones. -/
theorem nodesFromJson_of {P : Node → List UInt8 → Prop} {nodes : List Node} (index : ℕ)
    {dst : List UInt8} (hlen : dst.length = src.length)
    (hmono : ∀ node b b', P node b → Copies src b b' → P node b')
    (hnode : ∀ node ∈ nodes, ∀ index b, b.length = src.length →
      ∃ b', nodeFromJson p names node json index off b = some (true, b') ∧ Copies src b b' ∧
        P node b') :
    ∃ dst', nodesFromJson p names nodes json index off dst = some (true, dst') ∧
      Copies src dst dst' ∧ ∀ node ∈ nodes, P node dst' := by
  induction nodes generalizing index dst with
  | nil => exact ⟨dst, rfl, Copies.refl src dst, fun node h => absurd h List.not_mem_nil⟩
  | cons node nodes ih =>
    obtain ⟨b, hb, hcopies, hP⟩ := hnode node List.mem_cons_self index dst hlen
    obtain ⟨dst', hrest, hcopies', hall⟩ := ih (index + 1) (hcopies.1.trans hlen)
      fun n hn => hnode n (List.mem_cons_of_mem node hn)
    refine ⟨dst', ?_, hcopies.trans hcopies', fun n hn => ?_⟩
    · rw [nodesFromJson, hb]
      exact hrest
    · rcases List.mem_cons.mp hn with rfl | hn
      · exact hmono n b dst' hP hcopies'
      · exact hall n hn

/-- Where the loop succeeds, every field has been decoded. -/
theorem nodesFromJson_true {nodes : List Node} {index : ℕ} {dst dst' : List UInt8}
    (h : nodesFromJson p names nodes json index off dst = some (true, dst')) {node : Node}
    (hnode : node ∈ nodes) :
    ∃ index b b', nodeFromJson p names node json index off b = some (true, b') := by
  induction nodes generalizing index dst with
  | nil => exact absurd hnode List.not_mem_nil
  | cons head nodes ih =>
    rw [nodesFromJson] at h
    obtain ⟨⟨ok, b⟩, hhead, h⟩ := Option.bind_eq_some_iff.mp h
    cases ok with
    | false => cases h
    | true =>
      rcases List.mem_cons.mp hnode with rfl | hnode
      · exact ⟨index, dst, b, hhead⟩
      · exact ih h hnode

/-- A field whose switch ends without anything to validate. -/
theorem nodeFromJson_of_done {node : Node} {index : ℕ} {b b' : List UInt8}
    (h : fieldFromJson p names node json index off b
      (fun value buf => node.nested.bind fun m => m.fromJson p value (off + node.offset) buf)
      (fun o value buf => node.element.bind fun m => m.fromJson p value o buf) =
        some (.done b')) :
    nodeFromJson p names node json index off b = some (true, b') := by
  rw [nodeFromJson_eq, h]
  rfl

end Loop

namespace BinaryMetadata

variable {p : Platform} {level : JsonDetailsLevel} {src : List UInt8}

/-- Every field of the record and of the records inside it agrees with the source. -/
def AgreesBelow (src buf : List UInt8) (m : BinaryMetadata) (off : ℕ) : Prop :=
  ∀ n o, m.Reaches off n o → ∀ node ∈ n.nodes, Agrees src buf o node

theorem AgreesBelow.mono {buf buf' : List UInt8} {m : BinaryMetadata} {off : ℕ}
    (h : m.AgreesBelow src buf off) (hc : Copies src buf buf') : m.AgreesBelow src buf' off :=
  fun n o hreach node hnode => (h n o hreach node hnode).mono hc

/-- What a field contributes to `AgreesBelow`: itself and the records inside it. -/
structure FieldAgrees (src : List UInt8) (off : ℕ) (node : Node) (buf : List UInt8) : Prop where
  field : Agrees src buf off node
  nested : node.type = .complex → ∀ m, node.nested = some m →
    m.AgreesBelow src buf (off + node.offset)
  elements : node.type = .array → ∀ child, node.child = some child → child.type = .complex →
    ∀ m, child.nested = some m → ∀ j < node.count,
      m.AgreesBelow src buf (off + node.offset + child.size * j)

theorem FieldAgrees.mono {off : ℕ} {node : Node} {buf buf' : List UInt8}
    (h : FieldAgrees src off node buf) (hc : Copies src buf buf') :
    FieldAgrees src off node buf' where
  field := h.field.mono hc
  nested htype m hm := (h.nested htype m hm).mono hc
  elements htype child hchild hcomplex m hm j hj :=
    (h.elements htype child hchild hcomplex m hm j hj).mono hc

theorem agreesBelow_of_fields {buf : List UInt8} {m : BinaryMetadata} {off : ℕ}
    (h : ∀ node ∈ m.nodes, FieldAgrees src off node buf) : m.AgreesBelow src buf off := by
  refine forall_reaches (fun node hnode => (h node hnode).field) ?_ ?_
  · exact fun node hnode htype m' hm' => (h node hnode).nested htype m' hm'
  · exact fun node hnode htype child hchild hcomplex m' hm' j hj =>
      (h node hnode).elements htype child hchild hcomplex m' hm' j hj

/-! ### Decoding what was encoded -/

/-- The decoder restores the records of a metadata, wherever they lie in the buffer. -/
def Decodes (p : Platform) (level : JsonDetailsLevel) (src : List UInt8) (m : BinaryMetadata) :
    Prop :=
  ∀ off fields dst, m.Built → m.IsJsonRecord src off → m.ElementsHaveMembers off →
    m.json p level src off = some (true, fields) → dst.length = src.length →
    ∃ dst', m.fromJson p (.ofFields fields) off dst = some (true, dst') ∧
      Copies src dst dst' ∧ m.AgreesBelow src dst' off

variable {m : BinaryMetadata} {off : ℕ} {fields : Json.Fields} {node : Node}
  {names : List String} {index : ℕ} {dst : List UInt8}

theorem IsJsonRecord.nested (h : m.IsJsonRecord src off) (hnode : node ∈ m.nodes)
    (htype : node.type = .complex) {m' : BinaryMetadata} (hm' : node.nested = some m') :
    m'.IsJsonRecord src (off + node.offset) :=
  fun n o hreach => h n o (.nested hnode htype hm' hreach)

theorem ElementsHaveMembers.nested (h : m.ElementsHaveMembers off) (hnode : node ∈ m.nodes)
    (htype : node.type = .complex) {m' : BinaryMetadata} (hm' : node.nested = some m') :
    m'.ElementsHaveMembers (off + node.offset) :=
  fun n o hreach => h n o (.nested hnode htype hm' hreach)

theorem IsJsonRecord.element (h : m.IsJsonRecord src off) (hnode : node ∈ m.nodes)
    (htype : node.type = .array) {child : Node} (hchild : node.child = some child)
    (hcomplex : child.type = .complex) {m' : BinaryMetadata} (hm' : child.nested = some m')
    {j : ℕ} (hj : j < node.count) :
    m'.IsJsonRecord src (off + node.offset + child.size * j) :=
  fun n o hreach => h n o (.element hnode htype hchild hcomplex hm' hj hreach)

theorem ElementsHaveMembers.element (h : m.ElementsHaveMembers off) (hnode : node ∈ m.nodes)
    (htype : node.type = .array) {child : Node} (hchild : node.child = some child)
    (hcomplex : child.type = .complex) {m' : BinaryMetadata} (hm' : child.nested = some m')
    {j : ℕ} (hj : j < node.count) :
    m'.ElementsHaveMembers (off + node.offset + child.size * j) :=
  fun n o hreach => h n o (.element hnode htype hchild hcomplex hm' hj hreach)

/-- A record is encoded as an object precisely when its metadata has members. -/
theorem fields_ne_nil_iff (hrec : m.IsJsonRecord src off)
    (h : m.json p level src off = some (true, fields)) : fields ≠ [] ↔ m.HasMembers := by
  obtain ⟨hnames, hfields⟩ := hrec m off (.refl m off)
  rw [HasMembers, Ne, fields_eq_nil_iff hnames h]
  push Not
  refine exists_congr fun node => and_congr_right fun hnode => ?_
  rw [Ne, value_eq_none_iff (hfields node hnode) (get?_of_json hnames h hnode)]
  push Not
  rfl

/-- A nested field. -/
theorem nodeFromJson_complex (hbuilt : m.Built) (hrec : m.IsJsonRecord src off)
    (hmembers : m.ElementsHaveMembers off) (hnode : node ∈ m.nodes)
    (htype : node.type = .complex)
    (ih : ∀ m', node.nested = some m' → m'.Decodes p level src)
    (h : nodeToJson p level src names node off = some (true, fields.get? node.name))
    (hlen : dst.length = src.length) :
    ∃ dst', nodeFromJson p names node (.ofFields fields) index off dst = some (true, dst') ∧
      Copies src dst dst' ∧ FieldAgrees src off node dst' := by
  obtain ⟨hcount, m', inner, hm', hjson, hinner, hget⟩ := complex_of_nodeToJson htype h
  have hfields : fields ≠ [] := by
    rintro rfl
    cases hget
  obtain ⟨dst', hfrom, hcopies, hbelow⟩ := ih m' hm' (off + node.offset) inner dst
    ((hbuilt.wellBuilt node hnode).nested htype m' hm') (hrec.nested hnode htype hm')
    (hmembers.nested hnode htype hm') hjson hlen
  refine ⟨dst', nodeFromJson_of_done ?_, hcopies, ?_, ?_, ?_⟩
  · rw [fieldFromJson, htype]
    simp only [if_pos hcount, hm', Option.bind_some]
    rw [Json.ofFields_of_ne_nil hinner] at hfrom
    rw [Json.ofFields_of_ne_nil hfields, complexFromJson]
    simp only [Json.find, hget, Json.isObject, if_true, hfrom]
    · rfl
    · intro _ heq
      cases heq
  · intro w hw
    rw [windows, htype] at hw
    cases hw
  · intro _ m'' hm''
    obtain rfl : m' = m'' := Option.some.inj (hm'.symm.trans hm'')
    exact hbelow
  · intro harray
    rw [htype] at harray
    cases harray

/-- What element `j` of an array contributes to `FieldAgrees`. -/
def ElementAgrees (src : List UInt8) (off : ℕ) (node child : Node) (j : ℕ) (buf : List UInt8) :
    Prop :=
  (child.type ≠ .complex → off + node.offset + j * child.size + child.size ≤ src.length →
      slice buf (off + node.offset + j * child.size) child.size =
        slice src (off + node.offset + j * child.size) child.size) ∧
    (child.type = .complex → ∀ m, child.nested = some m →
      m.AgreesBelow src buf (off + node.offset + child.size * j))

theorem ElementAgrees.mono {child : Node} {j : ℕ} {buf buf' : List UInt8}
    (h : ElementAgrees src off node child j buf) (hc : Copies src buf buf') :
    ElementAgrees src off node child j buf' :=
  ⟨fun hne hin => hc.slice_eq (h.1 hne hin), fun hcomplex m hm => (h.2 hcomplex m hm).mono hc⟩

theorem fieldAgrees_of_elements {child : Node} {buf : List UInt8} (htype : node.type = .array)
    (hchild : node.child = some child)
    (h : ∀ j < node.count, ElementAgrees src off node child j buf) :
    FieldAgrees src off node buf := by
  refine ⟨?_, ?_, ?_⟩
  · intro w hw hin
    rw [windows, htype] at hw
    obtain ⟨c, hc, hne, j, hj, rfl⟩ := hw
    obtain rfl : child = c := Option.some.inj (hchild.symm.trans hc)
    exact (h j hj).1 hne hin
  · intro hcomplex
    rw [htype] at hcomplex
    cases hcomplex
  · intro _ c hc hcomplex m hm j hj
    obtain rfl : child = c := Option.some.inj (hchild.symm.trans hc)
    exact (h j hj).2 hcomplex m hm

/-- One element of an array: the decoder's step of the loop on the value the encoder's step
has given. -/
theorem element_restores (hbuilt : m.Built) (hrec : m.IsJsonRecord src off)
    (hmembers : m.ElementsHaveMembers off) (hnode : node ∈ m.nodes) (htype : node.type = .array)
    (ih : ∀ m', node.element = some m' → m'.Decodes p level src) {child : Node}
    (hchild : node.child = some child) {j : ℕ} (hj : j < node.count) {value : Json}
    (h : arrayElementToJson level src node child off
      (fun o => node.element.bind fun m => m.json p level src o) j = some (true, value))
    (hlen : dst.length = src.length) :
    ∃ dst', arrayElementFromJson node child off
        (fun o value buf => node.element.bind fun m => m.fromJson p value o buf) j value dst =
        some (true, dst') ∧
      Copies src dst dst' ∧ ElementAgrees src off node child j dst' := by
  have hwell := hbuilt.wellBuilt node hnode
  rw [arrayElementToJson] at h
  rw [arrayElementFromJson]
  by_cases hcomplex : child.type = .complex
  · rw [if_pos hcomplex] at h ⊢
    obtain ⟨⟨ok, inner⟩, hbind, heq⟩ := Option.map_eq_some_iff.mp h
    obtain ⟨rfl, rfl⟩ := Prod.mk.inj heq
    obtain ⟨m', hm', hjson⟩ := Option.bind_eq_some_iff.mp hbind
    have hnested : child.nested = some m' := by
      rwa [Node.element, hchild, Option.bind_some] at hm'
    have hrec' := hrec.element hnode htype hchild hcomplex hnested hj
    have hinner : inner ≠ [] := (fields_ne_nil_iff hrec' hjson).mpr
      (hmembers m off (.refl m off) node hnode child m' htype hchild hcomplex hnested
        (Nat.zero_lt_of_lt hj))
    obtain ⟨dst', hfrom, hcopies, hbelow⟩ := ih m' hm' _ inner dst (hwell.element htype m' hm')
      hrec' (hmembers.element hnode htype hchild hcomplex hnested hj) hjson hlen
    refine ⟨dst', ?_, hcopies, fun hne => absurd hcomplex hne, fun _ m'' hm'' => ?_⟩
    · rw [if_pos (by rw [Json.ofFields_of_ne_nil hinner]; rfl), hm', Option.bind_some, hfrom]
    · obtain rfl : m' = m'' := Option.some.inj (hnested.symm.trans hm'')
      exact hbelow
  · rw [if_neg hcomplex] at h ⊢
    obtain ⟨-, hfields⟩ := hrec m off (.refl m off)
    obtain ⟨-, hkind⟩ := hfields node hnode
    rw [htype] at hkind
    obtain ⟨c, hc, horder, hkind⟩ := hkind
    obtain rfl : child = c := Option.some.inj (hchild.symm.trans hc)
    have hlabels : child.type = .enum → child.IsEnumValue := by
      intro henum
      rwa [henum] at hkind
    obtain ⟨dst', hfrom, hcopies, hslice⟩ := elementValueFromJson_of hlen htype horder
      (hwell.enum htype child hchild) (fun henum e he => ((hlabels henum).2 e he).1) h
    exact ⟨dst', hfrom, hcopies, fun _ => hslice, fun hyes => absurd hyes hcomplex⟩

/-- An array field. -/
theorem nodeFromJson_array (hbuilt : m.Built) (hrec : m.IsJsonRecord src off)
    (hmembers : m.ElementsHaveMembers off) (hnode : node ∈ m.nodes) (htype : node.type = .array)
    (ih : ∀ m', node.element = some m' → m'.Decodes p level src)
    (h : nodeToJson p level src names node off = some (true, fields.get? node.name))
    (hlen : dst.length = src.length) :
    ∃ dst', nodeFromJson p names node (.ofFields fields) index off dst = some (true, dst') ∧
      Copies src dst dst' ∧ FieldAgrees src off node dst' := by
  obtain ⟨hcount, child, values, hchild, hcollect, hget⟩ := array_of_nodeToJson htype h
  obtain ⟨hvalues, hall⟩ := collectJson_eq_some hcollect
  cases values with
  | nil =>
    -- No elements: no member, and nothing to do.
    refine ⟨dst, nodeFromJson_of_done ?_, Copies.refl src dst,
      fieldAgrees_of_elements htype hchild fun j hj => absurd hj (by simp [← hvalues])⟩
    have hnone : fields.get? node.name = none := hget
    rw [fieldFromJson, htype]
    simp only [if_pos hcount]
    rw [Json.ofFields]
    split
    · rfl
    · simp only [arrayFromJson, Json.find, hnone]
  | cons value values =>
    have hsome : fields.get? node.name = some (.arr (value :: values)) := hget
    have hfields : fields ≠ [] := by
      rintro rfl
      cases hsome
    have hstep : ∀ j v b, (value :: values)[j]? = some v → b.length = src.length →
        ∃ b', arrayElementFromJson node child off
            (fun o value buf => node.element.bind fun m => m.fromJson p value o buf) (0 + j) v b =
            some (true, b') ∧
          Copies src b b' ∧ ElementAgrees src off node child (0 + j) b' := by
      intro j v b hv hb
      have hj : j < node.count := by
        rw [← hvalues]
        exact (List.getElem?_eq_some_iff.mp hv).1
      obtain ⟨v', hencode, hv'⟩ := hall j hj
      obtain rfl : v = v' := Option.some.inj (hv.symm.trans hv')
      rw [Nat.zero_add]
      exact element_restores hbuilt hrec hmembers hnode htype ih hchild hj hencode hb
    obtain ⟨dst', hstore, hcopies, hagrees⟩ := storeElements_of
      (P := ElementAgrees src off node child) 0 hlen (fun j b b' hP hc => hP.mono hc) hstep
    refine ⟨dst', nodeFromJson_of_done ?_, hcopies,
      fieldAgrees_of_elements htype hchild fun j hj => ?_⟩
    · rw [fieldFromJson, htype]
      simp only [if_pos hcount]
      rw [Json.ofFields_of_ne_nil hfields]
      simp only [arrayFromJson, Json.find, hsome, hchild]
      rw [if_neg (by omega), hstore]
      rfl
    · have hP := hagrees j (by omega)
      rwa [Nat.zero_add] at hP

/-- **The decoder restores what the encoder has written.** -/
theorem decodes (m : BinaryMetadata) : m.Decodes p level src := by
  induction m using BinaryMetadata.induction with
  | h m ihnested ihelement =>
    intro off fields dst hbuilt hrec hmembers hjson hlen
    obtain ⟨hnames, hfields⟩ := hrec m off (.refl m off)
    have hstep : ∀ node ∈ m.nodes, ∀ index b, b.length = src.length →
        ∃ b', nodeFromJson p (m.nodes.map fun node => node.name) node (.ofFields fields) index
            off b = some (true, b') ∧ Copies src b b' ∧ FieldAgrees src off node b' := by
      intro node hnode index b hb
      have hvalue := get?_of_json hnames hjson hnode
      by_cases hcomplex : node.type = .complex
      · exact nodeFromJson_complex hbuilt hrec hmembers hnode hcomplex (ihnested node hnode)
          hvalue hb
      · by_cases harray : node.type = .array
        · exact nodeFromJson_array hbuilt hrec hmembers hnode harray (ihelement node hnode)
            hvalue hb
        · obtain ⟨value, hget, hrestores⟩ := restores_of_leaf (hfields node hnode) hcomplex harray
            hvalue
            (fun value buf => node.nested.bind fun m => m.fromJson p value (off + node.offset) buf)
            (fun o value buf => node.element.bind fun m => m.fromJson p value o buf)
          have hne : fields ≠ [] := by
            rintro rfl
            cases hget
          obtain ⟨b', hfrom, hc, hagree⟩ := hrestores fields index b hget hb
          rw [nodeFromJson_eq, Json.ofFields_of_ne_nil hne]
          exact ⟨b', hfrom, hc, hagree, fun hyes => absurd hyes hcomplex,
            fun hyes => absurd hyes harray⟩
    rw [fromJson_eq]
    obtain ⟨dst', hfrom, hcopies, hagrees⟩ := nodesFromJson_of
      (P := FieldAgrees src off) 0 hlen (fun node b b' hP hc => hP.mono hc) hstep
    exact ⟨dst', hfrom, hcopies, agreesBelow_of_fields hagrees⟩

/-! ### What a successful decoding says -/

/-- A call whose success is the success of the field. -/
theorem call_of_finishField {call : Option (Bool × List UInt8)} {b : List UInt8}
    (h : (call.map (Decoded.ofCall .done)).bind (finishField p node off) = some (true, b)) :
    ∃ b', call = some (true, b') := by
  rcases call with _ | ⟨_ | _, b'⟩
  · cases h
  · cases h
  · exact ⟨b', rfl⟩

theorem complex_of_nodeFromJson (htype : node.type = .complex)
    (hcount : names.count node.name = 1) {m' : BinaryMetadata} (hm' : node.nested = some m')
    {inner : Json.Fields} (hinner : inner ≠ []) (hget : fields.get? node.name = some (.obj inner))
    {b b' : List UInt8}
    (h : nodeFromJson p names node (.ofFields fields) index off b = some (true, b')) :
    ∃ b₁ b₂, m'.fromJson p (.ofFields inner) (off + node.offset) b₁ = some (true, b₂) := by
  have hfields : fields ≠ [] := by
    rintro rfl
    cases hget
  rw [nodeFromJson_eq, fieldFromJson, htype] at h
  simp only [if_pos hcount, hm', Option.bind_some, Json.ofFields_of_ne_nil hfields,
    complexFromJson, Json.find, hget, Json.isObject, if_true] at h
  rw [Json.ofFields_of_ne_nil hinner]
  exact ⟨b, call_of_finishField h⟩

theorem array_of_nodeFromJson (htype : node.type = .array) (hcount : names.count node.name = 1)
    {child : Node} (hchild : node.child = some child) {values : List Json}
    (hlen : values.length = node.count)
    (hget : fields.get? node.name = some (.arr values)) {b b' : List UInt8}
    (h : nodeFromJson p names node (.ofFields fields) index off b = some (true, b')) {j : ℕ}
    {value : Json} (hj : values[j]? = some value) :
    ∃ b₁ b₂, arrayElementFromJson node child off
      (fun o value buf => node.element.bind fun m => m.fromJson p value o buf) j value b₁ =
        some (true, b₂) := by
  have hfields : fields ≠ [] := by
    rintro rfl
    cases hget
  rw [nodeFromJson_eq, fieldFromJson, htype] at h
  simp only [if_pos hcount, Json.ofFields_of_ne_nil hfields, arrayFromJson, Json.find, hget,
    hchild] at h
  rw [if_neg (by omega)] at h
  obtain ⟨b'', hstore⟩ := call_of_finishField h
  obtain ⟨b₁, b₂, helement⟩ := storeElements_true hstore hj
  exact ⟨b₁, b₂, by rwa [Nat.zero_add] at helement⟩

/-- The element at `j` of an array of complex elements, from both loops. -/
theorem element_of_nodeFromJson (htype : node.type = .array) {child : Node}
    (hchild : node.child = some child) (hcomplex : child.type = .complex) {m' : BinaryMetadata}
    (hm' : child.nested = some m')
    (hto : nodeToJson p level src names node off = some (true, fields.get? node.name))
    {b b' : List UInt8}
    (h : nodeFromJson p names node (.ofFields fields) index off b = some (true, b')) {j : ℕ}
    (hj : j < node.count) :
    ∃ inner b₁ b₂, inner ≠ [] ∧
      m'.json p level src (off + node.offset + child.size * j) = some (true, inner) ∧
      m'.fromJson p (.ofFields inner) (off + node.offset + child.size * j) b₁ =
        some (true, b₂) := by
  obtain ⟨hcount, c, values, hc, hcollect, hget⟩ := array_of_nodeToJson htype hto
  obtain rfl : child = c := Option.some.inj (hchild.symm.trans hc)
  have helement : node.element = some m' := by
    rw [Node.element, hchild]
    exact hm'
  obtain ⟨hlen, hall⟩ := collectJson_eq_some hcollect
  obtain ⟨value, hencode, hvalue⟩ := hall j hj
  have hnonempty : ¬values.isEmpty = true := by
    rw [List.isEmpty_iff]
    rintro rfl
    cases hvalue
  rw [if_neg hnonempty] at hget
  obtain ⟨b₁, b₂, hdecode⟩ := array_of_nodeFromJson htype hcount hchild hlen hget h hvalue
  rw [arrayElementToJson, if_pos hcomplex, helement] at hencode
  obtain ⟨⟨ok, inner⟩, hjson, heq⟩ := Option.map_eq_some_iff.mp hencode
  obtain ⟨rfl, rfl⟩ := Prod.mk.inj heq
  rw [arrayElementFromJson, if_pos hcomplex] at hdecode
  split at hdecode
  · rename_i hobject
    rw [helement] at hdecode
    refine ⟨inner, b₁, b₂, ?_, hjson, hdecode⟩
    rintro rfl
    cases hobject
  · cases hdecode

/-- If the decoder accepts what the encoder has written, the elements of arrays have
members. -/
theorem elementsHaveMembers_of_fromJson (hrec : m.IsJsonRecord src off)
    (hjson : m.json p level src off = some (true, fields)) {dst' : List UInt8}
    (hfrom : m.fromJson p (.ofFields fields) off dst = some (true, dst')) :
    m.ElementsHaveMembers off := by
  intro n o hreach
  induction hreach generalizing fields dst dst' with
  | refl m off =>
    intro node hnode child m' htype hchild hcomplex hm' hcount
    obtain ⟨hnames, -⟩ := hrec m off (.refl m off)
    rw [fromJson_eq] at hfrom
    obtain ⟨index, b, b', hdecode⟩ := nodesFromJson_true hfrom hnode
    obtain ⟨inner, -, -, hinner, hinnerJson, -⟩ := element_of_nodeFromJson htype hchild hcomplex
      hm' (get?_of_json hnames hjson hnode) hdecode hcount
    exact (fields_ne_nil_iff (hrec.element hnode htype hchild hcomplex hm' hcount)
      hinnerJson).mp hinner
  | nested hnode htype hm' hreach ih =>
    obtain ⟨hnames, -⟩ := hrec _ _ (.refl _ _)
    rw [fromJson_eq] at hfrom
    obtain ⟨index, b, b', hdecode⟩ := nodesFromJson_true hfrom hnode
    obtain ⟨hcount, m'', inner, hm'', hinnerJson, hinner, hget⟩ :=
      complex_of_nodeToJson htype (get?_of_json hnames hjson hnode)
    obtain rfl := Option.some.inj (hm'.symm.trans hm'')
    obtain ⟨b₁, b₂, hinnerFrom⟩ := complex_of_nodeFromJson htype hcount hm' hinner hget hdecode
    exact ih (hrec.nested hnode htype hm') hinnerJson hinnerFrom
  | element hnode htype hchild hcomplex hm' hj hreach ih =>
    obtain ⟨hnames, -⟩ := hrec _ _ (.refl _ _)
    rw [fromJson_eq] at hfrom
    obtain ⟨index, b, b', hdecode⟩ := nodesFromJson_true hfrom hnode
    obtain ⟨inner, b₁, b₂, -, hinnerJson, hinnerFrom⟩ := element_of_nodeFromJson htype hchild
      hcomplex hm' (get?_of_json hnames hjson hnode) hdecode hj
    exact ih (hrec.element hnode htype hchild hcomplex hm' hj) hinnerJson hinnerFrom

/-- **Records through JSON.** When `to_json` succeeds, `from_json` on a new record of the same
metadata succeeds and gives every field its value back precisely if the elements of arrays of
complex elements, where there are any, have members. -/
theorem jsonRoundTrip_iff_elementsHaveMembers {json : Json} (hbuilt : m.Built)
    (hrec : m.IsJsonRecord src 0) (hsrc : src.length = m.size)
    (hto : m.toJson p level src = some (some json)) :
    (∃ dst, m.fromJson p json 0 (zeroes m.size) = some (true, dst) ∧
      ∀ n o, m.Reaches 0 n o → ∀ node ∈ n.nodes, ReadsSame p src dst o node) ↔
      m.ElementsHaveMembers 0 := by
  obtain ⟨⟨ok, fields⟩, hjson, heq⟩ := Option.map_eq_some_iff.mp hto
  simp only at heq
  split at heq
  · rename_i hok
    obtain rfl := Option.some.inj heq
    rw [hok] at hjson
    constructor
    · rintro ⟨dst, hfrom, -⟩
      exact elementsHaveMembers_of_fromJson hrec hjson hfrom
    · intro hmembers
      have hlen : (zeroes m.size).length = src.length := by rw [length_zeroes, hsrc]
      obtain ⟨dst, hfrom, hcopies, hagrees⟩ :=
        decodes m 0 fields (zeroes m.size) hbuilt hrec hmembers hjson hlen
      refine ⟨dst, hfrom, fun n o hreach node hnode => ?_⟩
      exact (hagrees n o hreach node hnode).readsSame (hcopies.1.trans hlen)
        ((hrec n o hreach).2 node hnode)
  · cases heq

/-! ### Records that are one array -/

/-- A record of one array of complex elements. -/
def arrayRecord (element : BinaryMetadata) (count : ℕ) : BinaryMetadata :=
  ((empty false).array "v" element.size .complex count .reset (some element)).getD (empty false)

theorem built_arrayRecord {element : BinaryMetadata} (h : element.Built) (count : ℕ) :
    (arrayRecord element count).Built := by
  refine .step (fun _ => none) (.array "v" element.size .complex count .reset (some element)) nofun
    (fun n hn => ?_) (.empty false "") rfl
  rw [List.mem_singleton.mp hn]
  exact h

theorem forall_reaches_arrayRecord {element : BinaryMetadata} {count : ℕ}
    {Q : BinaryMetadata → ℕ → Prop} (hflat : ∀ node ∈ element.nodes, node.type = .int16)
    (h : Q (arrayRecord element count) 0) (helement : ∀ off, Q element off) :
    ∀ n o, (arrayRecord element count).Reaches 0 n o → Q n o := by
  refine forall_reaches h (fun node hnode htype => ?_)
    fun node hnode _ child hchild _ m' hm' j _ => ?_
  · rw [List.mem_singleton.mp hnode] at htype
    cases htype
  · rw [List.mem_singleton.mp hnode] at hchild
    obtain rfl := Option.some.inj hchild
    obtain rfl := Option.some.inj hm'
    refine forall_reaches (helement _) (fun node hnode htype => ?_) (fun node hnode htype => ?_)
    · rw [hflat node hnode] at htype
      cases htype
    · rw [hflat node hnode] at htype
      cases htype

theorem isJsonRecord_arrayRecord {element : BinaryMetadata} {count : ℕ} {src : List UInt8}
    (horder : element.bigEndian = false)
    (hnames : (element.nodes.map fun node => node.name).Nodup)
    (hflat : ∀ node ∈ element.nodes, node.type = .int16 ∧ node.size = 2 ∧ node.bigEndian = false) :
    (arrayRecord element count).IsJsonRecord src 0 := by
  refine forall_reaches_arrayRecord (fun node hnode => (hflat node hnode).1)
    ⟨List.nodup_singleton _, fun node hnode => ?_⟩ fun off => ⟨hnames, fun node hnode => ?_⟩
  · rw [List.mem_singleton.mp hnode]
    exact ⟨rfl, _, rfl, horder, rfl⟩
  · obtain ⟨htype, hsize, horder⟩ := hflat node hnode
    refine ⟨horder, ?_⟩
    rw [htype]
    exact ⟨rfl, hsize⟩

/-- Two elements of one `INT16` each. -/
theorem jsonRoundTrip_iff_elementsHaveMembers_int16 :
    ∃ dst, (arrayRecord ((empty false).put "x" 2 .int16 .reset) 2).fromJson ⟨fun _ _ => 0⟩
        (.obj [("v", .arr [.obj [("x", .num 1)], .obj [("x", .num (-1))]])]) 0 (zeroes 4) =
          some (true, dst) ∧
      ∀ n o, (arrayRecord ((empty false).put "x" 2 .int16 .reset) 2).Reaches 0 n o →
        ∀ node ∈ n.nodes, ReadsSame ⟨fun _ _ => 0⟩ [1, 0, 255, 255] dst o node := by
  have hflat : ∀ node ∈ ((empty false).put "x" 2 .int16 .reset).nodes,
      node.type = .int16 ∧ node.size = 2 ∧ node.bigEndian = false := by decide
  have hbuilt : ((empty false).put "x" 2 .int16 .reset).Built :=
    .step (fun _ => none) (.put "x" 2 .int16 .reset) nofun nofun (.empty false "") rfl
  have hto : (arrayRecord ((empty false).put "x" 2 .int16 .reset) 2).toJson ⟨fun _ _ => 0⟩
      .enumValues [1, 0, 255, 255] =
        some (some (.obj [("v", .arr [.obj [("x", .num 1)], .obj [("x", .num (-1))]])])) := rfl
  refine (jsonRoundTrip_iff_elementsHaveMembers (built_arrayRecord hbuilt 2)
    (isJsonRecord_arrayRecord rfl (by decide) hflat) rfl hto).mpr ?_
  refine forall_reaches_arrayRecord (fun node hnode => (hflat node hnode).1)
    (fun node hnode child m' _ hchild _ hm' _ => ?_) fun off node hnode child m' htype => ?_
  · rw [List.mem_singleton.mp hnode] at hchild
    obtain rfl := Option.some.inj hchild
    obtain rfl := Option.some.inj hm'
    exact ⟨_, List.mem_cons_self, by decide⟩
  · rw [(hflat node hnode).1] at htype
    cases htype

/-- An array of one element without fields: it is encoded without errors, and the decoder
does not accept the null it is encoded as. -/
theorem jsonRoundTrip_fails_empty_element :
    (arrayRecord (empty false) 1).Built ∧ (arrayRecord (empty false) 1).IsJsonRecord [] 0 ∧
      (arrayRecord (empty false) 1).size = 0 ∧
      (arrayRecord (empty false) 1).toJson ⟨fun _ _ => 0⟩ .enumValues [] =
        some (some (.obj [("v", .arr [.null])])) ∧
      (arrayRecord (empty false) 1).fromJson ⟨fun _ _ => 0⟩ (.obj [("v", .arr [.null])]) 0
        (zeroes 0) = some (false, []) := by
  refine ⟨built_arrayRecord (.empty false "") 1, ?_, rfl, rfl, rfl⟩
  exact isJsonRecord_arrayRecord rfl List.nodup_nil fun node hnode =>
    absurd hnode List.not_mem_nil

end BinaryMetadata

end UtilityFramework
