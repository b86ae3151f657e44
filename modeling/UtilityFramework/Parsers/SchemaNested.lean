import UtilityFramework.Parsers.SchemaFields

/-!
# Nested metadata and arrays written as JSON

`Schema.FieldStep` for the fields that nest a metadata and for arrays, given what becomes of the
metadata they nest (`Schema.MetadataStep`). An array is read as one of its kind of elements:
complex ones, those with options, and the rest, of which none comes back.
-/

namespace UtilityFramework

namespace Schema

open Json

/-! ### Nested metadata -/

/-- **What becomes of a metadata** that is written with the byte order `b` and read into a new
one. -/
structure MetadataStep (enums : String → Option EnumData) (b : Bool) (m : BinaryMetadata) :
    Prop where
  kept : m.SchemaKept → ∃ json m', schemaToJson b m = some (json, true) ∧
    (∀ b₀, jsonToSchema enums json (.empty b₀) = some (m', true)) ∧ m'.size = m.size ∧
      m'.fields = m.fields
  keptOf : ∀ r b₀ r', schemaToJson b m = some r →
    jsonToSchema enums r.1 (.empty b₀) = some r' → r'.1.fields = m.fields → m.SchemaKept

/-- A field whose entry has the JSON of a metadata, where the reader appends `new n` if it reads
the metadata `n`. The condition `C` is what the field needs besides. -/
theorem FieldStep.of_nested {enums : String → Option EnumData} {b : Bool} {m : BinaryMetadata}
    {o : SimpleOptions} {node : Node} {increase : ℕ} {nested : BinaryMetadata} (C : Prop)
    (json : Json → Json) (new : BinaryMetadata → Node) (increaseOf : BinaryMetadata → ℕ)
    (hnested : MetadataStep enums b nested)
    (hwrite : ∀ j, schemaToJson b nested = some (j, true) →
      nodeToJson b node = some (some (json j)))
    (hwriteOf : ∀ e, nodeToJson b node = some (some e) →
      ∃ r, schemaToJson b nested = some r ∧ json r.1 = e)
    (hread : ∀ j, readEntry enums (json j) (m, o) =
      (jsonToSchema enums j (.empty m.bigEndian)).map fun r =>
        ((m.append (new r.1) (increaseOf r.1), o), true))
    (hinfo : ∀ n, (new n).info = node.info ↔
      C ∧ n.size = nested.size ∧ n.fields = nested.fields)
    (hincrease : ∀ n, C → n.size = nested.size → increaseOf n = increase)
    (hkept : node.Kept o ↔ C ∧ nested.SchemaKept) (hafter : node.optionsAfter o = o) :
    FieldStep enums b m o node increase := by
  constructor
  · intro h
    obtain ⟨hC, hschema⟩ := hkept.mp h
    obtain ⟨j, n, hj, hback, hsize, hfields⟩ := hnested.kept hschema
    refine ⟨json j, new n, hwrite j hj, ?_, (hinfo n).mpr ⟨hC, hsize, hfields⟩⟩
    rw [hread, hback, hafter, Option.map_some, hincrease n hC hsize]
  · intro e r he hr hfields
    obtain ⟨r₀, hr₀, rfl⟩ := hwriteOf e he
    rw [hread] at hr
    obtain ⟨r', hr', rfl⟩ := Option.map_eq_some_iff.mp hr
    rw [BinaryMetadata.fields_append] at hfields
    obtain ⟨hC, -, hsame⟩ := (hinfo r'.1).mp (List.cons.inj (List.append_cancel_left hfields)).1
    exact hkept.mpr ⟨hC, hnested.keptOf r₀ _ r' hr₀ hr' hsame⟩

section Nested

variable {enums : String → Option EnumData} {b : Bool} {m m' : BinaryMetadata}
  {o : SimpleOptions} {name : String} {nested : BinaryMetadata} (hsize : m'.size = m.size)
  (hname : name ≠ "") (hnested : MetadataStep enums b nested)

include hsize hname hnested

/-- A node that `nest_metadata` appends. -/
theorem step_nest :
    FieldStep enums b m' o (m.nestNode name nested) nested.size := by
  have hwrite : nodeToJson b (m.nestNode name nested) =
      (schemaToJson b nested).map fun r =>
        if r.2 then some (entry (m.nestNode name nested) "complex" [("data", r.1)])
        else none := nodeToJson_eq b _
  refine .of_nested True (fun j => entry (m.nestNode name nested) "complex" [("data", j)])
    (m'.nestNode name) BinaryMetadata.size hnested ?_ ?_ ?_ ?_ (fun n _ hn => hn) ?_ rfl
  · intro j hj
    rw [hwrite, hj]
    rfl
  · intro e he
    rw [hwrite] at he
    obtain ⟨r, hr, he⟩ := Option.map_eq_some_iff.mp he
    split at he
    · exact ⟨r, hr, Option.some.inj he⟩
    · cases he
  · intro j
    rw [readEntry_entry, readTyped, getType_names.2.2.2.1]
    simp only [BinaryMetadata.nestNode, BinaryMetadata.newNode, m'.nestMetadata_eq hname]
    rfl
  · intro n
    refine (BinaryMetadata.info_nestNode_eq_iff hsize).trans ?_
    simp only [true_and]
  · rw [true_and]
    constructor
    · exact fun h => h.nested rfl nested rfl
    · refine fun h => ⟨rfl, fun _ n hn => Option.some.inj hn ▸ h, fun harray => ?_⟩
      cases harray

end Nested

/-! ### Arrays -/

section Arrays

variable {enums : String → Option EnumData} {b : Bool} {m m' : BinaryMetadata}
  {o options : SimpleOptions} {name given : String} {size count : ℕ}

/-- The entry of an array. -/
theorem readEntry_array (node : Node) (typeName : String) (typeSize : ℕ) (rest : Fields)
    (s : State) :
    readEntry enums (entry node "array" (("length", num node.count) ::
      ("array_type", str typeName) :: ("type_size", num typeSize) :: rest)) s =
      (readElements enums (("name", str node.name) :: ("size", num node.size) ::
        ("type", str "array") :: ("length", num node.count) :: ("array_type", str typeName) ::
        ("type_size", num typeSize) :: rest) (readNested enums rest) node.name node.count typeName
        typeSize s).map fun s' => (s', true) := by
  rw [readEntry_entry, readTyped, getType_names.2.2.2.2.1]
  rfl

/-- An array of complex elements. -/
theorem step_arrayComplex {nested : BinaryMetadata} (hsize : m'.size = m.size) (hname : name ≠ "")
    (hnested : MetadataStep enums b nested) :
    FieldStep enums b m' o
      (m.arrayNode name size count options none (.single m.bigEndian fun n =>
        n.nestNode (BinaryMetadata.elementName given count) nested)) (Size.mul size count) := by
  set node := m.arrayNode name size count options none (.single m.bigEndian fun n =>
    n.nestNode (BinaryMetadata.elementName given count) nested) with hnode
  have hwrite : nodeToJson b node = (schemaToJson b nested).map fun r =>
      some (entry node "array" [("length", num count), ("array_type", str "complex"),
        ("type_size", num nested.size), ("data", r.1)]) := by
    rw [nodeToJson_eq]
    exact Option.map_map _ _ _
  refine .of_nested
    (BinaryMetadata.elementName given count = BinaryMetadata.elementName name count ∧
      nested.size = size ∧ options.Agrees 8 o)
    (fun j => entry node "array" [("length", num count), ("array_type", str "complex"),
      ("type_size", num nested.size), ("data", j)])
    (fun n => m'.arrayNode name nested.size count o none (.single m'.bigEndian fun e =>
      e.nestNode (BinaryMetadata.elementName name count) n))
    (fun _ => Size.mul nested.size count) hnested ?_ ?_ ?_ ?_ ?_ ?_ rfl
  · intro j hj
    rw [hwrite, hj]
    rfl
  · intro e he
    rw [hwrite] at he
    obtain ⟨r, hr, he⟩ := Option.map_eq_some_iff.mp he
    exact ⟨r, hr, Option.some.inj he⟩
  · intro j
    refine (readEntry_array node _ _ _ _).trans ?_
    have hdata : readNested enums [("data", j)] = jsonToSchema enums j := rfl
    have hnodeName : m'.nodeName node.name = name := m'.nodeName_of_ne_empty hname
    simp only [readElements, getType_names.2.2.2.1, if_true, hdata, BinaryMetadata.array_eq,
      hnodeName]
    cases jsonToSchema enums j (.empty m'.bigEndian) <;> rfl
  · intro n
    refine (BinaryMetadata.info_arrayNode_eq_iff hsize ?_).trans ?_
    · rfl
    · constructor
      · rintro ⟨hsz, hagrees, hchild⟩
        obtain ⟨hchildName, hn, hfields⟩ := (BinaryMetadata.info_nestNode_eq_iff rfl).mp hchild
        exact ⟨⟨hchildName.symm, hsz, hagrees.symm⟩, hn, hfields⟩
      · rintro ⟨⟨hchildName, hsz, hagrees⟩, hn, hfields⟩
        exact ⟨hsz, hagrees.symm,
          (BinaryMetadata.info_nestNode_eq_iff rfl).mpr ⟨hchildName.symm, hn, hfields⟩⟩
  · rintro n ⟨-, hsz, -⟩ -
    rw [hsz]
  · constructor
    · intro h
      obtain ⟨child, hchild, hchildName, hcases⟩ := h.field
      obtain rfl := Option.some.inj hchild
      rcases hcases with ⟨-, hsz, hagrees⟩ | ⟨hopt, -⟩
      · exact ⟨⟨hchildName, hsz, hagrees⟩, h.element rfl nested rfl⟩
      · rcases hopt with hsimple | henum
        · cases hsimple
        · cases henum
    · rintro ⟨⟨hchildName, hsz, hagrees⟩, hschema⟩
      refine ⟨⟨_, rfl, hchildName, .inl ⟨rfl, hsz, hagrees⟩⟩, fun hcomplex => ?_,
        fun _ n hn => ?_⟩
      · cases hcomplex
      · exact Option.some.inj hn ▸ hschema

/-- The members of the entry of an array whose elements have a type with a name. -/
theorem arrayMembers_of_child {node child : Node} {typeName : String}
    (hchild : node.child = some child) (hname : child.type.getTypeName = some typeName)
    (json : Option (Json × Bool)) :
    arrayMembers node json =
      if child.type = .complex then
        json.map fun r => some ([("length", num node.count), ("array_type", str typeName),
          ("type_size", num child.size)] ++ [("data", r.1)])
      else if child.type.HasOptions then
        (optionsToJson child.type child.options).map fun o => some ([("length", num node.count),
          ("array_type", str typeName), ("type_size", num child.size)] ++
            (o ++ enumMember node.enum))
      else some (some [("length", num node.count), ("array_type", str typeName),
        ("type_size", num child.size)]) := by
  obtain ⟨wrapper, hwrapper, -⟩ := Option.bind_eq_some_iff.mp hchild
  rw [arrayMembers, hwrapper, hchild]
  dsimp only
  rw [hname]

/-- The elements of an array that have options. -/
theorem readElements_options {fields : Fields}
    {data : BinaryMetadata → Option (BinaryMetadata × Bool)} {typeName : String}
    {enum : Option EnumData} (hname : enum = none → name ≠ "")
    (hopt : (TypeEnum.getType typeName).HasOptions) (henum : readEnum enums fields = some enum)
    (htype : enum ≠ none → TypeEnum.getType typeName = .enum) :
    readElements enums fields data name count typeName size (m, o) =
      (readOptions fields (TypeEnum.getType typeName) o).map fun o' =>
        (m.append (m.arrayNode name size count o' enum (.single m.bigEndian fun n =>
          n.fieldNode (BinaryMetadata.elementName name count) size (TypeEnum.getType typeName) o'
            enum "")) (Size.mul size count), o') := by
  rw [readElements]
  generalize TypeEnum.getType typeName = type at hopt htype
  have hnotComplex : type ≠ .complex := by
    rintro rfl
    exact absurd hopt (by decide)
  dsimp only
  rw [if_neg hnotComplex, if_pos hopt]
  cases readOptions fields type o with
  | none => rfl
  | some o' =>
    simp only [henum, Option.bind_eq_bind, Option.bind_some, Option.map_some]
    cases enum with
    | none =>
      have hnodeName := m.nodeName_of_ne_empty (hname rfl)
      simp only [BinaryMetadata.array_eq, if_neg hnotComplex, Option.bind_some, hnodeName]
      rfl
    | some enum =>
      obtain rfl : type = .enum := htype (Option.some_ne_none enum)
      simp only [BinaryMetadata.arrayEnum_eq]
      rfl

theorem valueBytes_readAs {type : TypeEnum} (h : type.HasOptions) (size : ℕ) :
    type.readAs.valueBytes size = type.valueBytes size := by
  rcases h with h | rfl
  · cases type <;> first | (cases h; done) | rfl
  · rfl

/-- The entry of an array whose elements have options. -/
theorem nodeToJson_arrayOptions {type : TypeEnum} {enum : Option EnumData} {typeName : String}
    (hopt : type.HasOptions) (htypeName : type.getTypeName = some typeName) :
    nodeToJson b (m.arrayNode name size count options enum (.single m.bigEndian fun n =>
        n.fieldNode (BinaryMetadata.elementName given count) size type options enum "")) =
      (optionsToJson type options).map fun l => some
        (entry (m.arrayNode name size count options enum (.single m.bigEndian fun n =>
            n.fieldNode (BinaryMetadata.elementName given count) size type options enum ""))
          "array" (("length", num count) :: ("array_type", str typeName) ::
            ("type_size", num size) :: (l ++ enumMember enum))) := by
  have hnotComplex : type ≠ .complex := by
    rintro rfl
    exact absurd hopt (by decide)
  set node := m.arrayNode name size count options enum (.single m.bigEndian fun n =>
    n.fieldNode (BinaryMetadata.elementName given count) size type options enum "")
  have hmembers : ∀ json, arrayMembers node json =
      (optionsToJson type options).map fun l => some
        (("length", num count) :: ("array_type", str typeName) :: ("type_size", num size) ::
          (l ++ enumMember enum)) := by
    intro json
    refine (arrayMembers_of_child rfl htypeName json).trans ?_
    exact (if_neg hnotComplex).trans (if_pos hopt)
  rw [nodeToJson_eq]
  show (arrayMembers node _).map (fun r => r.map (entry node "array")) = _
  rw [hmembers, Option.map_map]
  rfl

/-- An array whose elements have options is kept as its elements are. -/
theorem kept_arrayOptions_iff {type : TypeEnum} {enum : Option EnumData} (hopt : type.HasOptions) :
    (m.arrayNode name size count options enum (.single m.bigEndian fun n =>
        n.fieldNode (BinaryMetadata.elementName given count) size type options enum "")).Kept o ↔
      type.readAs = type ∧
        BinaryMetadata.elementName given count = BinaryMetadata.elementName name count ∧
          SimpleOptions.Kept type size o options := by
  constructor
  · intro h
    obtain ⟨child, hchild, hchildName, hcases⟩ := h.field
    obtain rfl := Option.some.inj hchild
    rcases hcases with ⟨hcomplex, -⟩ | ⟨-, htype, hoptions⟩
    · obtain rfl : type = .complex := hcomplex
      exact absurd hopt (by decide)
    · exact ⟨htype, hchildName, hoptions⟩
  · rintro ⟨htype, hchildName, hoptions⟩
    refine ⟨⟨_, rfl, hchildName, .inr ⟨hopt, htype, hoptions⟩⟩, fun hcomplex => ?_,
      fun _ n hn => ?_⟩
    · cases hcomplex
    · cases hn

/-- An array whose elements have options. Only an array of enumeration values may be
nameless. -/
theorem step_arrayOptions {type : TypeEnum} {enum : Option EnumData} (hsize : m'.size = m.size)
    (hopt : type.HasOptions) (henum : enum ≠ none → type = .enum)
    (henums : ∀ e, enum = some e → enums e.name = some e) (hname : enum = none → name ≠ "") :
    FieldStep enums b m' o
      (m.arrayNode name size count options enum (.single m.bigEndian fun n =>
        n.fieldNode (BinaryMetadata.elementName given count) size type options enum ""))
      (Size.mul size count) := by
  obtain ⟨typeName, htypeName, hreadAs⟩ := TypeEnum.getTypeName_of_isSimpleType hopt
  set node := m.arrayNode name size count options enum (.single m.bigEndian fun n =>
    n.fieldNode (BinaryMetadata.elementName given count) size type options enum "") with hnode
  refine .of_options size options
    (BinaryMetadata.elementName given count = BinaryMetadata.elementName name count)
    (fun l => entry node "array" (("length", num count) :: ("array_type", str typeName) ::
      ("type_size", num size) :: (l ++ enumMember enum)))
    (fun l => ("name", str name) :: ("size", num size) :: ("type", str "array") ::
      ("length", num count) :: ("array_type", str typeName) :: ("type_size", num size) ::
      (l ++ enumMember enum))
    (fun o' => m'.arrayNode name size count o' enum (.single m'.bigEndian fun e =>
      e.fieldNode (BinaryMetadata.elementName name count) size type.readAs o' enum ""))
    hopt (nodeToJson_arrayOptions hopt htypeName) ?_ ?_ ?_ (kept_arrayOptions_iff hopt)
    (if_pos hopt)
  · intro min max default
    have hmembers := optionTexts_optionMember min max default _ (get?_enumMember enum)
    exact optionTexts_entry
      (((hmembers.cons (by decide) _).cons (by decide) _).cons (by decide) _)
  · intro min max default
    refine (readEntry_array node _ _ _ _).trans ?_
    rw [← hreadAs]
    refine (congrArg (Option.map _) (readElements_options hname ?_
      (readEnum_eq min max default henums ?_) fun hne => ?_)).trans (Option.map_map _ _ _)
    · rw [hreadAs]
      exact hasOptions_readAs hopt
    · refine (get?_entry (by decide) (by decide) (by decide)).trans ?_
      simp only [Fields.get?_cons]
      rfl
    · rw [hreadAs, henum hne]
      rfl
  · intro o'
    refine (BinaryMetadata.info_arrayNode_eq_iff hsize (valueBytes_readAs hopt size)).trans ?_
    simp only [true_and]
    constructor
    · rintro ⟨hagrees, hchild⟩
      obtain ⟨hchildName, htype, -⟩ := (BinaryMetadata.info_fieldNode_eq_iff rfl).mp hchild
      exact ⟨htype, hchildName.symm, hagrees⟩
    · rintro ⟨htype, hchildName, hagrees⟩
      exact ⟨hagrees,
        (BinaryMetadata.info_fieldNode_eq_iff rfl).mpr ⟨hchildName.symm, htype, hagrees⟩⟩

/-- What the types without options are read as. -/
theorem getType_of_not_hasOptions {type : TypeEnum} (hopt : ¬type.HasOptions) {name : String}
    (hname : type.getTypeName = some name) :
    TypeEnum.getType name = .complex ∨ TypeEnum.getType name = .string ∨
      TypeEnum.getType name = .buffer ∨ TypeEnum.getType name = .emptyType ∨
        TypeEnum.getType name = .array := by
  obtain ⟨hstring, hbuffer, hnone, hcomplex, harray, hbitmap⟩ := getType_names
  cases type with
  | complex | bitmap =>
    obtain rfl := Option.some.inj hname
    exact .inl (by assumption)
  | string =>
    obtain rfl := Option.some.inj hname
    exact .inr (.inl hstring)
  | buffer =>
    obtain rfl := Option.some.inj hname
    exact .inr (.inr (.inl hbuffer))
  | emptyType =>
    obtain rfl := Option.some.inj hname
    exact .inr (.inr (.inr (.inl hnone)))
  | array =>
    obtain rfl := Option.some.inj hname
    exact .inr (.inr (.inr (.inr harray)))
  | debugType | unknown | pointer => cases hname
  | _ => exact absurd (by decide) hopt

/-- An array of other elements. Arrays of strings are written without their default, which the
reader asks for, and what stands for bit fields is taken for complex elements without their
metadata. The reader drops the others. -/
theorem step_arrayOther {node child : Node} {increase : ℕ} (htype : node.type = .array)
    (hchild : node.child = some child) (hcomplex : child.type ≠ .complex)
    (hopt : ¬child.type.HasOptions) : FieldStep enums b m o node increase := by
  obtain ⟨wrapper, hwrapper, hhead⟩ := Option.bind_eq_some_iff.mp hchild
  refine .of_lost ?_ fun e r he hr => ?_
  · rw [Node.FieldKept, htype]
    rintro ⟨child', hchild', -, ⟨hcomplex', -⟩ | ⟨hopt', -⟩⟩
    · rw [hchild] at hchild'
      exact hcomplex (Option.some.inj hchild' ▸ hcomplex')
    · rw [hchild] at hchild'
      exact hopt (Option.some.inj hchild' ▸ hopt')
  · have hmembers : ∀ json, arrayMembers node json = some (child.type.getTypeName.map fun name =>
        [("length", num node.count), ("array_type", str name), ("type_size", num child.size)]) := by
      intro json
      cases hname : child.type.getTypeName with
      | none =>
        rw [arrayMembers, hwrapper, hchild]
        dsimp only
        rw [hname]
        rfl
      | some name =>
        rw [arrayMembers_of_child hchild hname, if_neg hcomplex, if_neg hopt]
        rfl
    have hnode : nodeToJson b node = some (child.type.getTypeName.map fun name =>
        entry node "array" [("length", num node.count), ("array_type", str name),
          ("type_size", num child.size)]) := by
      rw [nodeToJson_eq, fieldToJson, htype]
      show (arrayMembers node _).map _ = _
      rw [hmembers, Option.map_some, Option.map_map]
      rfl
    rw [hnode] at he
    obtain ⟨name, hname, rfl⟩ := Option.map_eq_some_iff.mp (Option.some.inj he)
    rw [readEntry_array] at hr
    obtain ⟨s, hs, rfl⟩ := Option.map_eq_some_iff.mp hr
    rw [readElements] at hs
    rcases getType_of_not_hasOptions hopt hname with hread | hread | hread
    · rw [hread] at hs
      cases hs
    · rw [hread] at hs
      cases hs
    · have hnotComplex : TypeEnum.getType name ≠ .complex := by
        rcases hread with hread | hread | hread <;> rw [hread] <;> decide
      have hnotOptions : ¬(TypeEnum.getType name).HasOptions := by
        rcases hread with hread | hread | hread <;> rw [hread] <;> decide
      have hnotString : TypeEnum.getType name ≠ .string := by
        rcases hread with hread | hread | hread <;> rw [hread] <;> decide
      dsimp only at hs
      rw [if_neg hnotComplex, if_neg hnotOptions, if_neg hnotString] at hs
      rw [← Option.some.inj hs]

end Arrays

end Schema

end UtilityFramework
