import UtilityFramework.Parsers.SchemaKept

/-!
# Single fields written as JSON

`Schema.FieldStep` for the fields that nest nothing: strings, buffers, the types with options
and bit fields. The block of a bit field is found again by running the packer, from the same
last node and with the size of the block in place of the size that was asked for.
-/

namespace UtilityFramework

/-! ### Fields without elements -/

theorem SimpleOptions.Agrees.symm {n : ℕ} {o o' : SimpleOptions} (h : o.Agrees n o') :
    o'.Agrees n o := ⟨h.min.symm, h.max.symm, h.default.symm⟩

namespace Schema

open Json

theorem getType_names :
    TypeEnum.getType "string" = .string ∧ TypeEnum.getType "buffer" = .buffer ∧
      TypeEnum.getType "none" = .emptyType ∧ TypeEnum.getType "complex" = .complex ∧
      TypeEnum.getType "array" = .array ∧ TypeEnum.getType "bitmap" = .complex := by
  decide +kernel

/-- The texts in an entry, which come after its name, size and type. -/
theorem optionTexts_entry {name typeName size : Json} {members : Fields}
    {min max default : Option String} (h : OptionTexts members min max default) :
    OptionTexts (("name", name) :: ("size", size) :: ("type", typeName) :: members) min max
      default :=
  ((h.cons (by decide) _).cons (by decide) _).cons (by decide) _

theorem get?_entry {name typeName size : Json} {members : Fields} {key : String}
    (hname : "name" ≠ key) (hsize : "size" ≠ key) (htype : "type" ≠ key) :
    Fields.get? (("name", name) :: ("size", size) :: ("type", typeName) :: members) key =
      members.get? key := by
  rw [Fields.get?_cons, if_neg hname, Fields.get?_cons, if_neg hsize, Fields.get?_cons,
    if_neg htype]

theorem get?_optionMember_enum (min max default : Option String) :
    (optionMember min max default).get? "enum" = none := by
  rw [optionMember]
  split <;> rfl

section Reading

variable {enums : String → Option EnumData} {fields : Fields}
  {data : BinaryMetadata → Option (BinaryMetadata × Bool)} {name typeName : String} {size : ℕ}
  {m : BinaryMetadata} {o : SimpleOptions}

/-- The enumeration of an entry is the one that was written, if it is in the store. -/
theorem readEnum_eq (min max default : Option String) {enum : Option EnumData}
    (henums : ∀ e, enum = some e → enums e.name = some e)
    (hfields : fields.get? "enum" = (optionMember min max default ++ enumMember enum).get? "enum") :
    readEnum enums fields = some enum := by
  rw [Fields.get?_append, get?_optionMember_enum, Option.none_or] at hfields
  rw [readEnum, hfields]
  cases enum with
  | none => rfl
  | some e => exact congrArg some (henums e rfl)

theorem readTyped_string {text : Option String} (hname : name ≠ "")
    (htext : optionText fields "defval" = some text) :
    readTyped enums fields data name size "string" (m, o) =
      some ((m.append (m.fieldNode name size .string .reset none (text.getD "")) size, o),
        true) := by
  simp only [readTyped, getType_names.1, htext, Option.map_some, m.putString_eq hname]

/-- A field of a type with options. -/
theorem readTyped_options {enum : Option EnumData} (hname : name ≠ "")
    (hopt : (TypeEnum.getType typeName).HasOptions) (henum : readEnum enums fields = some enum)
    (htype : enum ≠ none → TypeEnum.getType typeName = .enum) :
    readTyped enums fields data name size typeName (m, o) =
      (readOptions fields (TypeEnum.getType typeName) o).map fun o' =>
        ((m.append (m.fieldNode name size (TypeEnum.getType typeName) o' enum "") size, o'),
          true) := by
  rw [readTyped]
  generalize TypeEnum.getType typeName = type at hopt htype
  by_cases heq : type = .enum
  · subst heq
    dsimp only
    cases readOptions fields .enum o with
    | none => rfl
    | some o' =>
      simp only [henum, Option.bind_eq_bind, Option.bind_some, if_true, Option.map_some]
      cases enum <;> simp only [m.put_eq hname, m.putEnum_eq hname] <;> rfl
  · obtain rfl : enum = none := by
      by_contra hsome
      exact heq (htype hsome)
    have hsimple : type.isSimpleType = true := hopt.resolve_right heq
    cases type <;> first | (cases hsimple; done) | skip
    all_goals
      dsimp only
      simp only [m.put_eq hname]
      cases readOptions fields _ o <;> rfl

/-- A field of the other types that `put` takes. -/
theorem readTyped_other (hname : name ≠ "")
    (htype : TypeEnum.getType typeName = .buffer ∨ TypeEnum.getType typeName = .emptyType)
    (hfields : fields.get? "options" = none) :
    readTyped enums fields data name size typeName (m, o) =
      some ((m.append (m.fieldNode name size (TypeEnum.getType typeName) o none "") size, o),
        true) := by
  rw [readTyped]
  rcases htype with htype | htype <;>
    simp only [htype, readOptions_none hfields, m.put_eq hname] <;> rfl

end Reading

section Plain

variable {enums : String → Option EnumData} {b : Bool} {m m' : BinaryMetadata}
  {o : SimpleOptions} (hsize : m'.size = m.size) {name : String} {size : ℕ}
  {options : SimpleOptions} (hname : name ≠ "")

include hsize hname

theorem step_string (defString : String) :
    FieldStep enums b m' o (m.fieldNode name size .string options none defString) size := by
  have htexts : ∀ default, OptionTexts (optionMember none none default) none none default := by
    intro default
    have h := optionTexts_optionMember none none default [] rfl
    rwa [List.append_nil] at h
  have hdefault : (if defString = "" then none else some defString).getD "" = defString := by
    by_cases h : defString = "" <;> simp [h]
  refine .of_append _ (m'.fieldNode name size .string .reset none defString)
    (nodeToJson_eq b _) ?_ ?_
  · rw [readEntry_entry]
    refine (readTyped_string hname (optionTexts_entry (htexts _)).default).trans ?_
    exact congrArg (fun text => some ((m'.append (m'.fieldNode name size .string .reset none text)
      size, o), true)) hdefault
  · rw [Node.kept_iff_of_not_nested rfl]
    refine (BinaryMetadata.info_fieldNode_eq_iff hsize).trans ?_
    exact ⟨fun h => h.2.2.symm, fun h => ⟨rfl, rfl, h.symm⟩⟩

theorem step_other {type : TypeEnum} (htype : type = .buffer ∨ type = .emptyType) :
    FieldStep enums b m' o (m.fieldNode name size type options none "") size := by
  have hafter : (m.fieldNode name size type options none "").optionsAfter o = o := by
    rcases htype with rfl | rfl <;> rfl
  have hread : ∀ typeName, TypeEnum.getType typeName = type →
      readEntry enums (entry (m.fieldNode name size type options none "") typeName []) (m', o) =
        some ((m'.append (m'.fieldNode name size type o none "") size, o), true) := by
    rintro typeName rfl
    rw [readEntry_entry]
    exact readTyped_other hname htype rfl
  refine .of_append (entry (m.fieldNode name size type options none "")
    (if type = .buffer then "buffer" else "none") [])
    (m'.fieldNode name size type o none "") ?_ ?_ ?_
  · rw [nodeToJson_eq]
    rcases htype with rfl | rfl <;> rfl
  · rw [hafter]
    refine hread _ ?_
    rcases htype with rfl | rfl
    · exact getType_names.2.1
    · exact getType_names.2.2.1
  · rw [Node.kept_iff_of_not_nested rfl]
    refine (BinaryMetadata.info_fieldNode_eq_iff hsize).trans ?_
    rcases htype with rfl | rfl <;>
      exact ⟨fun h => h.2.2.symm, fun h => ⟨rfl, rfl, h.symm⟩⟩

end Plain

/-! ### Fields with options -/

theorem hasOptions_readAs {type : TypeEnum} (h : type.HasOptions) : type.readAs.HasOptions := by
  rcases h with h | rfl
  · cases type <;> first | (cases h; done) | exact .inl rfl
  · exact .inr rfl

/-- A field whose entry has the options of a type, where the reader appends `new o'` if it reads
the options `o'`. The condition `C` is what the field needs besides. -/
theorem FieldStep.of_options {enums : String → Option EnumData} {b : Bool} {m : BinaryMetadata}
    {o : SimpleOptions} {node : Node} {increase : ℕ} {type : TypeEnum} (size : ℕ)
    (options : SimpleOptions) (C : Prop) (json : Fields → Json) (fields : Fields → Fields)
    (new : SimpleOptions → Node)
    (hopt : type.HasOptions)
    (hwrite : nodeToJson b node = (optionsToJson type options).map fun l => some (json l))
    (htexts : ∀ min max default,
      OptionTexts (fields (optionMember min max default)) min max default)
    (hread : ∀ min max default, readEntry enums (json (optionMember min max default)) (m, o) =
      (readOptions (fields (optionMember min max default)) type.readAs o).map fun o' =>
        ((m.append (new o') increase, o'), true))
    (hinfo : ∀ o', (new o').info = node.info ↔
      type.readAs = type ∧ C ∧ o'.Agrees (type.valueBytes size) options)
    (hkept : node.Kept o ↔
      type.readAs = type ∧ C ∧ SimpleOptions.Kept type size o options)
    (hafter : node.optionsAfter o = .after type o options) :
    FieldStep enums b m o node increase := by
  constructor
  · intro h
    obtain ⟨hname, hC, hoptions⟩ := hkept.mp h
    obtain ⟨min, max, default, hmin, hmax, hdefault, hback⟩ := readOptions_of_kept hopt hoptions
    have hback' := hback _ (htexts min max default)
    have hagrees := (agrees_iff_kept hopt hmin hmax hdefault (htexts min max default) hback').mpr
      hoptions
    refine ⟨json (optionMember min max default), new (.after type o options), ?_, ?_,
      (hinfo _).mpr ⟨hname, hC, hagrees⟩⟩
    · rw [hwrite, optionsToJson_eq_some.mpr ⟨min, max, default, hmin, hmax, hdefault, rfl⟩]
      rfl
    · rw [hread, hname, hback', hafter]
      rfl
  · intro e r he hr hfields
    rw [hwrite] at he
    obtain ⟨members, hmembers, he⟩ := Option.map_eq_some_iff.mp he
    obtain ⟨min, max, default, hmin, hmax, hdefault, rfl⟩ := optionsToJson_eq_some.mp hmembers
    rw [← Option.some.inj he, hread] at hr
    obtain ⟨o', ho', rfl⟩ := Option.map_eq_some_iff.mp hr
    rw [BinaryMetadata.fields_append] at hfields
    obtain ⟨hname, hC, hagrees⟩ :=
      (hinfo o').mp (List.cons.inj (List.append_cancel_left hfields)).1
    rw [hname] at ho'
    exact hkept.mpr ⟨hname, hC,
      (agrees_iff_kept hopt hmin hmax hdefault (htexts min max default) ho').mp hagrees⟩

section Options

variable {enums : String → Option EnumData} {b : Bool} {m m' : BinaryMetadata}
  {o options : SimpleOptions} {name : String} {size : ℕ} {type : TypeEnum}
  {enum : Option EnumData} (hsize : m'.size = m.size) (hopt : type.HasOptions)
  (henum : enum ≠ none → type = .enum) (henums : ∀ e, enum = some e → enums e.name = some e)

include hsize hopt henum henums

theorem step_options (hname : name ≠ "") :
    FieldStep enums b m' o (m.fieldNode name size type options enum "") size := by
  obtain ⟨typeName, htypeName, hreadAs⟩ := TypeEnum.getTypeName_of_isSimpleType hopt
  have hwrittenEnum : (if type = .enum then enum else none) = enum := by
    by_cases h : type = .enum
    · exact if_pos h
    · rw [if_neg h]
      by_contra hne
      exact h (henum (Ne.symm hne))
  refine .of_options size options True
    (fun l => entry (m.fieldNode name size type options enum "") typeName
      (l ++ enumMember enum))
    (fun l => ("name", str name) :: ("size", num size) :: ("type", str typeName) ::
      (l ++ enumMember enum))
    (fun o' => m'.fieldNode name size type.readAs o' enum "")
    hopt ?_ ?_ ?_ ?_ ?_ (if_pos hopt)
  · rw [nodeToJson_eq, fieldToJson]
    simp only [BinaryMetadata.fieldNode, BinaryMetadata.newNode, htypeName, if_pos hopt]
    exact congrArg (fun e => (optionsToJson type options).map fun members =>
      some (entry _ typeName (members ++ enumMember e))) hwrittenEnum
  · intro min max default
    exact optionTexts_entry (optionTexts_optionMember min max default _ (get?_enumMember enum))
  · intro min max default
    rw [readEntry_entry, ← hreadAs]
    refine readTyped_options hname ?_ (readEnum_eq min max default henums ?_) fun hne => ?_
    · rw [hreadAs]
      exact hasOptions_readAs hopt
    · exact get?_entry (by decide) (by decide) (by decide)
    · rw [hreadAs, henum hne]
      rfl
  · intro o'
    refine (BinaryMetadata.info_fieldNode_eq_iff hsize).trans ?_
    simp only [true_and]
  · rw [Node.kept_iff_of_not_nested rfl, Node.fieldKept_of_hasOptions hopt]
    simp only [true_and]
    rfl

end Options

theorem readEntry_bitmap {enums : String → Option EnumData} (node : Node) (s : State) :
    readEntry enums (entry node "bitmap" []) s = none := by
  rw [readEntry_entry, readTyped, getType_names.2.2.2.2.2]
  rfl

/-- A node that `put` or `put_enum` appends. -/
theorem step_plain {enums : String → Option EnumData} {b : Bool} {m m' : BinaryMetadata}
    {o options : SimpleOptions} {name : String} {size : ℕ} {type : TypeEnum}
    {enum : Option EnumData} (hsize : m'.size = m.size) (hname : name ≠ "")
    (henum : enum ≠ none → type = .enum) (henums : ∀ e, enum = some e → enums e.name = some e) :
    FieldStep enums b m' o (m.fieldNode name size type options enum "") size := by
  by_cases hopt : type.HasOptions
  · exact step_options hsize hopt henum henums hname
  · obtain rfl : enum = none := by
      by_contra hne
      exact hopt (.inr (henum hne))
    cases type with
    | string => exact step_string hsize hname ""
    | buffer => exact step_other hsize hname (.inl rfl)
    | emptyType => exact step_other hsize hname (.inr rfl)
    | complex =>
      refine .of_unreadable (fun h => nomatch h) fun e he => ?_
      rw [nodeToJson_eq] at he
      cases he
    | array =>
      refine .of_unreadable ?_ fun e he => ?_
      · rintro ⟨child, hchild, -⟩
        cases hchild
      · rw [nodeToJson_eq] at he
        obtain rfl := Option.some.inj (Option.some.inj he)
        rw [readEntry_entry, readTyped, getType_names.2.2.2.2.1]
        rfl
    | bitmap =>
      refine .of_unreadable ?_ fun e he => ?_
      · rintro ⟨-, bits, hbits, -⟩
        cases hbits
      · -- A node that is not a bit field is cast to one, unless its size has no type.
        rw [nodeToJson_eq] at he
        obtain ⟨typeName, htypeName, he⟩ := Option.map_eq_some_iff.mp he
        obtain rfl := Option.some.inj he
        rw [bitTypeName] at htypeName
        split at htypeName
        · rw [← Option.some.inj htypeName]
          exact readEntry_bitmap _ _
        · cases htypeName
    | debugType | unknown | pointer =>
      refine .of_unreadable (fun h => hopt h.1) fun e he => ?_
      rw [nodeToJson_eq] at he
      cases he
    | _ => exact absurd (by decide) hopt

/-! ### Bit fields -/

section Bits

variable {m m' : BinaryMetadata}

/-- The node that `put_bits` goes on from is the same for two metadata with the same fields. -/
theorem prevBitNode_of_fields (hfields : m'.fields = m.fields)
    {prev : Option (Node × BitRange)} (hprev : m.prevBitNode = some prev) :
    ∃ prev', m'.prevBitNode = some prev' ∧
      (prev'.map fun p => (p.1.offset, p.1.size, p.2)) =
        prev.map fun p => (p.1.offset, p.1.size, p.2) := by
  rw [BinaryMetadata.fields_eq, BinaryMetadata.fields_eq] at hfields
  have hlength : m'.nodes.length = m.nodes.length := by
    simpa using congrArg List.length hfields
  have hlast : m'.nodes.getLast?.map Node.info = m.nodes.getLast?.map Node.info := by
    rw [← List.getLast?_map, ← List.getLast?_map, hfields]
  rw [BinaryMetadata.prevBitNode] at hprev ⊢
  cases hnode : m.nodes.getLast? with
  | none =>
    rw [hnode, Option.map_none, Option.map_eq_none_iff] at hlast
    rw [hnode] at hprev
    rw [hlast]
    obtain rfl := Option.some.inj hprev
    exact ⟨none, rfl, rfl⟩
  | some node =>
    rw [hnode, Option.map_some] at hlast
    obtain ⟨node', hnode', hinfo⟩ := Option.map_eq_some_iff.mp hlast
    rw [Node.info_eq, Node.info_eq] at hinfo
    injection hinfo with _ hoffset hsize htype hbits
    rw [hnode] at hprev
    rw [hnode']
    simp only [htype, hlength, hbits] at hprev ⊢
    split at hprev
    · rename_i hguard
      obtain ⟨bits, hbits', rfl⟩ := Option.map_eq_some_iff.mp hprev
      refine ⟨some (node', bits), ?_, ?_⟩
      · rw [if_pos hguard, hbits']
        rfl
      · simp only [Option.map_some, hoffset, hsize]
    · rename_i hguard
      obtain rfl := Option.some.inj hprev
      exact ⟨none, if_neg hguard, rfl⟩

/-- The block of a bit field is found again if the field is packed with the size of its block
in place of the size that was asked for. -/
theorem bitBlock_size (hsize : m'.size = m.size) {prev prev' : Option (Node × BitRange)}
    (hprev : (prev'.map fun p => (p.1.offset, p.1.size, p.2)) =
      prev.map fun p => (p.1.offset, p.1.size, p.2)) (numOfBits dataSize : ℕ) :
    m'.bitBlock numOfBits (m.bitBlock numOfBits dataSize prev).size prev' =
      m.bitBlock numOfBits dataSize prev := by
  cases prev with
  | none =>
    obtain rfl : prev' = none := by simpa using hprev
    simp only [BinaryMetadata.bitBlock, hsize]
  | some p =>
    obtain ⟨p', rfl, hp⟩ := Option.map_eq_some_iff.mp hprev
    obtain ⟨node, bits⟩ := p
    obtain ⟨node', bits'⟩ := p'
    obtain ⟨hoffset, hsz, rfl⟩ : node'.offset = node.offset ∧ node'.size = node.size ∧
        bits' = bits := by simpa using hp
    simp only [BinaryMetadata.bitBlock, hoffset, hsz, hsize]
    split
    · rfl
    · split <;> rfl

theorem numOfBits_bitBlock (m : BinaryMetadata) (numOfBits dataSize : ℕ)
    (prev : Option (Node × BitRange)) :
    (m.bitBlock numOfBits dataSize prev).bits.numOfBits = numOfBits := by
  cases prev with
  | none => rfl
  | some p =>
    simp only [BinaryMetadata.bitBlock]
    split
    · rfl
    · split <;> rfl

/-- The blocks that have a type, with the name of the type and what it is read as. -/
theorem exists_blockName {size : ℕ} (h : size = 1 ∨ size = 2 ∨ size = 4 ∨ size = 8) :
    ∃ block type, (TypeEnum.getTypeBySize size true).getTypeName = some block ∧
      TypeEnum.plainType block = some type ∧ type.isSimpleType ∧ block ≠ "" ∧
      ':' ∉ block.toList ∧ '[' ∉ block.toList ∧ type.sizeofType = size := by
  rcases h with rfl | rfl | rfl | rfl
  · exact ⟨"byte", .byte, by decide +kernel⟩
  · exact ⟨"word", .uint16, by decide +kernel⟩
  · exact ⟨"dword", .uint32, by decide +kernel⟩
  · exact ⟨"uint64_t", .uint64, by decide +kernel⟩

theorem nodeToJson_bitNode {name typeName : String} {block : BitBlock} (b : Bool)
    (h : bitTypeName (m.bitNode name block) = some typeName) :
    nodeToJson b (m.bitNode name block) =
      some (some (entry (m.bitNode name block) typeName [])) := by
  rw [nodeToJson_eq]
  exact congrArg (Option.map fun name => some (entry _ name [])) h

/-- An entry for a bit field is read by `put_bits`, once `get_bitmap_sizes` has read its
type. -/
theorem readEntry_bits {enums : String → Option EnumData} {typeName : String} {n size : ℕ}
    (htype : TypeEnum.getType typeName = .bitmap)
    (hsizes : TypeEnum.getBitmapSizes typeName = some (some (n, size))) (node : Node)
    (s : State) :
    readEntry enums (entry node typeName []) s =
      (s.1.putBits node.name n size).map fun r => ((r.1, s.2), r.2) := by
  rw [readEntry_entry, readTyped, htype]
  show Option.bind (TypeEnum.getBitmapSizes _) _ = _
  rw [hsizes]
  rfl

theorem readEntry_bits_thrown {enums : String → Option EnumData} {typeName : String}
    (htype : TypeEnum.getType typeName = .bitmap)
    (hsizes : TypeEnum.getBitmapSizes typeName = none) (node : Node) (s : State) :
    readEntry enums (entry node typeName []) s = none := by
  rw [readEntry_entry, readTyped, htype]
  show Option.bind (TypeEnum.getBitmapSizes _) _ = _
  rw [hsizes]
  rfl

/-- A node that `put_bits` appends. -/
theorem step_bits {enums : String → Option EnumData} {b : Bool} {o : SimpleOptions}
    {name : String} {numOfBits dataSize : ℕ} {prev : Option (Node × BitRange)}
    (hsize : m'.size = m.size) (hfields : m'.fields = m.fields) (hname : name ≠ "")
    (hbits : numOfBits ≠ 0) (hprev : m.prevBitNode = some prev) :
    FieldStep enums b m' o (m.bitNode name (m.bitBlock numOfBits dataSize prev))
      (m.bitBlock numOfBits dataSize prev).sizeToIncrease := by
  obtain ⟨prev', hprev', hsame⟩ := prevBitNode_of_fields hfields hprev
  have hblock := bitBlock_size hsize hsame numOfBits dataSize
  have hnum := numOfBits_bitBlock m numOfBits dataSize prev
  generalize m.bitBlock numOfBits dataSize prev = block at hblock hnum
  by_cases hsz : block.size = 1 ∨ block.size = 2 ∨ block.size = 4 ∨ block.size = 8
  · obtain ⟨blockName, type, hblockName, hplain, hsimple, hne, hcolon, hbracket, hsizeof⟩ :=
      exists_blockName hsz
    have hbitName : bitTypeName (m.bitNode name block) =
        some (TypeEnum.bitName blockName numOfBits) := by
      simp only [bitTypeName, BinaryMetadata.bitNode, BinaryMetadata.newNode, hblockName,
        Option.map_some, hnum]
    have hwrite := nodeToJson_bitNode b hbitName
    have htype := TypeEnum.getType_bitName hplain hsimple hne hcolon hbracket numOfBits
    -- `get_bitmap_sizes` reads the number of bits and the size of the block back, or throws
    by_cases hlt : numOfBits < 2 ^ 63
    · refine .of_append _ (m'.bitNode name block) hwrite ?_ ?_
      · rw [readEntry_bits htype
          (TypeEnum.getBitmapSizes_bitName hplain hsimple hne hcolon numOfBits hlt), hsizeof]
        have hguard : ¬(numOfBits = 0 ∨ 8 < block.size) := by omega
        have hnode : (m.bitNode name block).name = name := rfl
        simp only [hnode, BinaryMetadata.putBits, if_neg hguard, hprev', Option.map_some, hblock,
          BinaryMetadata.nodeName_of_ne_empty m' hname]
        rfl
      · rw [Node.kept_iff_of_not_nested rfl]
        refine iff_of_true ?_ ⟨hsz, block.bits, rfl, hnum ▸ hlt⟩
        rw [Node.info_eq, Node.info_eq]
        rfl
    · refine .of_unreadable ?_ fun e he => ?_
      · rintro ⟨-, bits, hsome, hbound⟩
        rw [← Option.some.inj hsome, hnum] at hbound
        exact hlt hbound
      · rw [hwrite] at he
        rw [← Option.some.inj (Option.some.inj he)]
        exact readEntry_bits_thrown htype (TypeEnum.getBitmapSizes_bitName_of_le hplain hsimple
          hne hcolon numOfBits (Nat.not_lt.mp hlt)) _ _
  · refine .of_unreadable (fun h => hsz h.1) fun e he => ?_
    have hunknown : TypeEnum.getTypeBySize block.size true = .unknown := by
      simp only [not_or] at hsz
      simp [TypeEnum.getTypeBySize, hsz]
    have hbitName : bitTypeName (m.bitNode name block) = some "bitmap" := by
      simp only [bitTypeName, BinaryMetadata.bitNode, BinaryMetadata.newNode, hunknown]
      rfl
    rw [nodeToJson_bitNode b hbitName] at he
    rw [← Option.some.inj (Option.some.inj he)]
    exact readEntry_bitmap _ _

end Bits

end Schema

end UtilityFramework
