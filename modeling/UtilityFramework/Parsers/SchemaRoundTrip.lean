import UtilityFramework.Parsers.SchemaNested

/-!
# The round trip of a metadata through JSON

The fields of a metadata are taken together by induction over the nodes: an entry appends at
most one node, so all fields come back only if each entry appends the field it was written for,
and the reader gets to the next entry with the options that are left over. The nesting is an
induction over the tree.
-/

namespace UtilityFramework

namespace Schema

open Json

/-! ### All fields -/

section Fields

variable {enums : String → Option EnumData} {b : Bool}

/-- What the round trip needs of a node: that its enumeration is in the store, and what becomes
of the metadata it nests. -/
structure NodeReady (enums : String → Option EnumData) (b : Bool) (node : Node) : Prop where
  enum : ∀ e, node.enum = some e → enums e.name = some e
  nested : node.type = .complex → ∀ n, node.nested = some n → MetadataStep enums b n
  element : node.type = .array → ∀ n, node.element = some n → MetadataStep enums b n

/-- **One field**, of any kind. -/
theorem FieldStep.of_appends {m m' : BinaryMetadata} {o : SimpleOptions} {node : Node}
    {increase : ℕ} (hsize : m'.size = m.size) (hfields : m'.fields = m.fields)
    (happ : m.Appends node increase) (hready : NodeReady enums b node) :
    FieldStep enums b m' o node increase := by
  cases happ with
  | plain name size type options enum hname henum =>
    exact step_plain hsize hname henum hready.enum
  | string name size defString hname => exact step_string hsize hname defString
  | bits name numOfBits dataSize prev hname hbits hprev =>
    exact step_bits hsize hfields hname hbits hprev
  | nest name nested hname hnested =>
    exact step_nest hsize hname (hready.nested rfl nested rfl)
  | array name given size type count options hname htype =>
    by_cases hopt : type.HasOptions
    · exact step_arrayOptions hsize hopt (fun hne => absurd rfl hne) hready.enum fun _ => hname
    · exact step_arrayOther rfl rfl htype hopt
  | arrayString name given size count defString hname =>
    have hcomplex : TypeEnum.string ≠ .complex := by decide
    have hopt : ¬TypeEnum.string.HasOptions := by decide
    exact step_arrayOther rfl rfl hcomplex hopt
  | arrayEnum name size count options enum =>
    refine step_arrayOptions hsize (.inr rfl) (fun _ => rfl) hready.enum fun hnone => ?_
    cases hnone
  | arrayComplex name given size count options nested hname hnested =>
    exact step_arrayComplex hsize hname (hready.element rfl nested rfl)

/-- A metadata to which at most one node has been appended. -/
def Extends (m m' : BinaryMetadata) : Prop :=
  m'.nodes = m.nodes ∨ ∃ node, m'.nodes = m.nodes ++ [node]

theorem extends_append (m : BinaryMetadata) (node : Node) (increase : ℕ) :
    Extends m (m.append node increase) := .inr ⟨node, rfl⟩

theorem extends_array {m m' : BinaryMetadata} {name : String} {size count : ℕ} {type : TypeEnum}
    {options : SimpleOptions} {nested : Option BinaryMetadata}
    (h : m.array name size type count options nested = some m') : Extends m m' := by
  rw [BinaryMetadata.array_eq] at h
  split at h
  · obtain ⟨n, -, rfl⟩ := Option.map_eq_some_iff.mp h
    exact extends_append m _ _
  · rw [← Option.some.inj h]
    exact extends_append m _ _

theorem extends_readElements {fields : Json.Fields}
    {data : BinaryMetadata → Option (BinaryMetadata × Bool)} {name typeName : String}
    {len typeSize : ℕ} {s s' : State}
    (h : readElements enums fields data name len typeName typeSize s = some s') :
    Extends s.1 s'.1 := by
  rw [readElements] at h
  dsimp only at h
  split at h
  · obtain ⟨r, -, h⟩ := Option.bind_eq_some_iff.mp h
    obtain ⟨m, hm, h⟩ := Option.bind_eq_some_iff.mp h
    rw [← Option.some.inj h]
    exact extends_array hm
  split at h
  · obtain ⟨o, -, h⟩ := Option.bind_eq_some_iff.mp h
    obtain ⟨enum, -, h⟩ := Option.bind_eq_some_iff.mp h
    cases enum with
    | none =>
      obtain ⟨m, hm, h⟩ := Option.bind_eq_some_iff.mp h
      rw [← Option.some.inj h]
      exact extends_array hm
    | some enum =>
      rw [← Option.some.inj h, BinaryMetadata.arrayEnum_eq]
      exact extends_append s.1 _ _
  split at h
  · obtain ⟨text, -, h⟩ := Option.bind_eq_some_iff.mp h
    cases text with
    | none => cases h
    | some text =>
      rw [← Option.some.inj h, BinaryMetadata.arrayString_eq]
      exact extends_append s.1 _ _
  · exact .inl (Option.some.inj h ▸ rfl)

theorem extends_putBits {m : BinaryMetadata} {name : String} {numOfBits dataSize : ℕ}
    {r : BinaryMetadata × Bool} (h : m.putBits name numOfBits dataSize = some r) :
    Extends m r.1 := by
  rw [BinaryMetadata.putBits] at h
  split at h
  · exact .inl (Option.some.inj h ▸ rfl)
  · obtain ⟨prev, -, rfl⟩ := Option.map_eq_some_iff.mp h
    exact extends_append m _ _

theorem extends_readTyped {fields : Json.Fields}
    {data : BinaryMetadata → Option (BinaryMetadata × Bool)} {name typeName : String} {size : ℕ}
    {s : State} {r : State × Bool}
    (h : readTyped enums fields data name size typeName s = some r) : Extends s.1 r.1.1 := by
  rw [readTyped] at h
  split at h
  · obtain ⟨text, -, rfl⟩ := Option.map_eq_some_iff.mp h
    exact extends_append s.1 _ _
  · obtain ⟨n, -, rfl⟩ := Option.map_eq_some_iff.mp h
    exact extends_append s.1 _ _
  · obtain ⟨s', hs', rfl⟩ := Option.map_eq_some_iff.mp h
    obtain ⟨len, -, hs'⟩ := Option.bind_eq_some_iff.mp hs'
    obtain ⟨elementName, -, hs'⟩ := Option.bind_eq_some_iff.mp hs'
    obtain ⟨elementSize, -, hs'⟩ := Option.bind_eq_some_iff.mp hs'
    exact extends_readElements hs'
  · obtain ⟨sizes, -, h⟩ := Option.bind_eq_some_iff.mp h
    cases sizes with
    | none => exact .inl (Option.some.inj h ▸ rfl)
    | some sizes =>
      obtain ⟨r', hr', rfl⟩ := Option.map_eq_some_iff.mp h
      exact extends_putBits hr'
  · obtain ⟨o, -, h⟩ := Option.bind_eq_some_iff.mp h
    split at h
    · obtain ⟨enum, -, h⟩ := Option.bind_eq_some_iff.mp h
      cases enum with
      | none =>
        rw [← Option.some.inj h]
        exact extends_append s.1 _ _
      | some enum =>
        rw [← Option.some.inj h]
        exact extends_append s.1 _ _
    · rw [← Option.some.inj h]
      exact extends_append s.1 _ _

/-- An entry appends at most one node. -/
theorem extends_readEntry {e : Json} {s : State} {r : State × Bool}
    (h : readEntry enums e s = some r) : Extends s.1 r.1.1 := by
  cases e with
  | obj fields =>
    obtain ⟨size, -, h⟩ := Option.bind_eq_some_iff.mp h
    obtain ⟨typeName, -, h⟩ := Option.bind_eq_some_iff.mp h
    obtain ⟨name, -, h⟩ := Option.bind_eq_some_iff.mp h
    exact extends_readTyped h
  | _ => cases h

/-- The fields after an entry, if there is one more of them. -/
theorem fields_readEntry {e : Json} {s : State} {r : State × Bool} {fields : List FieldInfo}
    {info : FieldInfo} (h : readEntry enums e s = some r)
    (hlength : s.1.fields.length ≤ fields.length) (hfields : r.1.1.fields = fields ++ [info]) :
    s.1.fields = fields := by
  rw [BinaryMetadata.fields_eq] at hfields hlength ⊢
  rcases extends_readEntry h with hnodes | ⟨node, hnodes⟩
  · rw [hnodes] at hfields
    have hlengths := congrArg List.length hfields
    rw [List.length_append] at hlengths
    exact absurd hlengths (by simp at hlength ⊢; omega)
  · rw [hnodes, List.map_append] at hfields
    exact (List.append_inj' hfields rfl).1

/-- Each entry appends at most one field. -/
theorem length_fields_readEntries {entries : List Json} {s : State} {r : State × Bool}
    (h : readEntries enums entries s = some r) :
    r.1.1.fields.length ≤ s.1.fields.length + entries.length := by
  induction entries generalizing s with
  | nil =>
    rw [← Option.some.inj h]
    exact Nat.le_refl _
  | cons e entries ih =>
    rw [readEntries_cons] at h
    have hone : ∀ r', readEntry enums e s = some r' →
        r'.1.1.fields.length ≤ s.1.fields.length + 1 := by
      intro r' hr'
      rw [BinaryMetadata.fields_eq, BinaryMetadata.fields_eq, List.length_map, List.length_map]
      rcases extends_readEntry hr' with hnodes | ⟨node, hnodes⟩ <;> rw [hnodes]
      · exact Nat.le_succ _
      · rw [List.length_append]
        rfl
    rw [List.length_cons]
    split at h
    · cases h
    · rename_i s' hs'
      rw [← Option.some.inj h]
      have := hone _ hs'
      dsimp only at this ⊢
      omega
    · rename_i s' hs'
      have hrest := ih h
      have := hone _ hs'
      dsimp only at this
      omega

/-- **What becomes of the fields of a metadata**: if all are kept, they are read back with the
options that are left over, and if they are read back, all are kept. -/
structure NodesStep (enums : String → Option EnumData) (b : Bool) (nodes : List Node)
    (size : ℕ) : Prop where
  kept : Node.KeptAll nodes → ∃ entries m', nodesToJson b nodes = some (some entries) ∧
    readEntries enums entries (.empty b, .reset) =
      some ((m', Node.carriedOptions nodes), true) ∧
    m'.size = size ∧ m'.fields = nodes.map Node.info
  keptOf : ∀ entries r, nodesToJson b nodes = some (some entries) →
    readEntries enums entries (.empty b, .reset) = some r →
    r.1.1.fields = nodes.map Node.info → Node.KeptAll nodes

theorem NodesStep.nil : NodesStep enums b [] 0 where
  kept _ := ⟨[], .empty b, rfl, rfl, rfl, rfl⟩
  keptOf _ _ _ _ _ := Node.keptAll_nil

theorem NodesStep.concat {m : BinaryMetadata} {node : Node} {increase : ℕ}
    (h : NodesStep enums b m.nodes m.size) (happ : m.Appends node increase)
    (hready : NodeReady enums b node) :
    NodesStep enums b (m.append node increase).nodes (m.append node increase).size := by
  constructor
  · intro hall
    obtain ⟨hnodes, hnode⟩ := Node.keptAll_concat.mp hall
    obtain ⟨entries, m', hwrite, hread, hsize, hfields⟩ := h.kept hnodes
    rw [← BinaryMetadata.fields_eq] at hfields
    obtain ⟨e, node', he, hback, hinfo⟩ :=
      (FieldStep.of_appends hsize hfields happ hready).kept hnode
    refine ⟨entries ++ [e], m'.append node' increase, ?_, ?_, ?_, ?_⟩
    · exact nodesToJson_append.mpr ⟨entries, e, hwrite, he, rfl⟩
    · rw [readEntries_append, hread, Option.bind_some, if_pos rfl, hback,
        ← Node.carriedOptions_concat]
      rfl
    · exact congrArg (Size.add · increase) hsize
    · rw [BinaryMetadata.fields_append, hfields, hinfo, ← BinaryMetadata.fields_append,
        BinaryMetadata.fields_eq]
  · intro entries' r hwrite hread hfields
    obtain ⟨entries, e, hentries, he, rfl⟩ := nodesToJson_append.mp hwrite
    rw [readEntries_append] at hread
    obtain ⟨r₀, hr₀, hread⟩ := Option.bind_eq_some_iff.mp hread
    have hlength : r₀.1.1.fields.length ≤ (m.nodes.map Node.info).length := by
      rw [List.length_map, ← length_of_nodesToJson hentries, ← Nat.zero_add entries.length]
      exact length_fields_readEntries hr₀
    rw [← BinaryMetadata.fields_eq, BinaryMetadata.fields_append, BinaryMetadata.fields_eq m]
      at hfields
    split at hread
    · rename_i hgoes
      have hbefore : r₀.1.1.fields = m.nodes.map Node.info :=
        fields_readEntry hread hlength hfields
      have hnodes := h.keptOf entries r₀ hentries hr₀ hbefore
      obtain ⟨_, m', hwrite', hread', hsize, -⟩ := h.kept hnodes
      -- the reader arrives at the last entry with the options that are left over
      obtain rfl := Option.some.inj (Option.some.inj (hentries.symm.trans hwrite'))
      obtain rfl := Option.some.inj (hr₀.symm.trans hread')
      have hsame : m'.fields = m.fields := hbefore.trans (BinaryMetadata.fields_eq m).symm
      rw [← hbefore] at hfields
      exact Node.keptAll_concat.mpr ⟨hnodes,
        (FieldStep.of_appends hsize hsame happ hready).keptOf e r he hread hfields⟩
    · -- an entry at which the reader stops leaves fewer fields than there were
      rw [Option.some.inj hread, hfields, List.length_append] at hlength
      exact absurd hlength (by simp)

/-- The metadata made by builder calls, by induction over what they nest. -/
theorem MetadataStep.of_built {m : BinaryMetadata} (hm : m.Built)
    (henums : m.EnumsStored enums) : MetadataStep enums b m := by
  induction m using BinaryMetadata.induction with
  | h m hnested helement =>
  obtain ⟨henum, hstored⟩ := henums
  have hready : ∀ node ∈ m.nodes, NodeReady enums b node := by
    intro node hnode
    have hbuilt := hm.wellBuilt node hnode
    refine ⟨henum node hnode, fun htype n hn => ?_, fun htype n hn => ?_⟩
    · exact hnested node hnode n hn (hbuilt.nested htype n hn) (hstored node hnode n hn)
    · obtain ⟨child, hchild, hn'⟩ := Option.bind_eq_some_iff.mp hn
      obtain ⟨wrapper, hwrapper, hhead⟩ := Option.bind_eq_some_iff.mp hchild
      obtain ⟨-, hinner⟩ := hstored node hnode wrapper hwrapper
      exact helement node hnode n hn (hbuilt.element htype n hn)
        (hinner child (List.mem_of_head? hhead) n hn')
  have hnodes : NodesStep enums b m.nodes m.size := by
    refine hm.induction_append (P := fun nodes size =>
      (∀ node ∈ nodes, NodeReady enums b node) → NodesStep enums b nodes size) ?_ ?_ hready
    · exact fun _ => .nil
    · intro m node increase _ ih happ hall
      refine (ih fun x hx => hall x ?_).concat happ (hall node ?_)
      · exact List.mem_append_left _ hx
      · exact List.mem_append_right _ (List.mem_singleton_self node)
  constructor
  · intro h
    obtain ⟨entries, m', hwrite, hread, hsize, hfields⟩ :=
      hnodes.kept (BinaryMetadata.schemaKept_iff.mp h)
    refine ⟨(schemaJson b m.name (some entries)).1, m', ?_, fun b₀ => ?_, hsize,
      hfields.trans (BinaryMetadata.fields_eq m).symm⟩
    · rw [schemaToJson_eq, hwrite]
      rfl
    · rw [jsonToSchema_schemaJson, hread]
      rfl
  · intro r b₀ r' hr hr' hfields
    rw [schemaToJson_eq] at hr
    obtain ⟨entries, hentries, rfl⟩ := Option.map_eq_some_iff.mp hr
    rw [BinaryMetadata.fields_eq m] at hfields
    cases entries with
    | none =>
      -- nothing was written for the nodes, so there would have to be none
      have hempty : r'.1.fields = [] := by
        rw [← Option.some.inj hr']
        rfl
      rw [hempty, eq_comm, List.map_eq_nil_iff] at hfields
      rw [hfields] at hentries
      cases hentries
    | some entries =>
      rw [jsonToSchema_schemaJson] at hr'
      obtain ⟨r₀, hr₀, rfl⟩ := Option.map_eq_some_iff.mp hr'
      exact BinaryMetadata.schemaKept_iff.mpr (hnodes.keptOf entries r₀ hentries hr₀ hfields)

end Fields

end Schema

/-! ### The round trip -/

namespace BinaryMetadata

/-- **A metadata made by builder calls survives the round trip** precisely if each of its fields
is kept, with what it nests. -/
theorem schemaRoundTrip_iff_schemaKept (enums : String → Option EnumData) {m : BinaryMetadata}
    (hm : m.Built) (henums : m.EnumsStored enums) :
    m.SchemaRoundTrip enums ↔ m.SchemaKept := by
  have hstep : Schema.MetadataStep enums m.bigEndian m := .of_built hm henums
  constructor
  · rintro ⟨json, m', hwrite, hread, -, hfields⟩
    exact hstep.keptOf (json, true) false (m', true) hwrite hread hfields
  · intro h
    obtain ⟨json, m', hwrite, hread, hsize, hfields⟩ := hstep.kept h
    exact ⟨json, m', hwrite, hread false, hsize, hfields⟩

/-- A record of two `INT32` with the given options. -/
def twoIntegers (first second : SimpleOptions) : BinaryMetadata :=
  ((empty false).put "a" 4 .int32 first).put "b" 4 .int32 second

theorem built_twoIntegers (first second : SimpleOptions) : (twoIntegers first second).Built :=
  .step (fun _ => none) (.put "b" 4 .int32 second) nofun nofun
    (.step (fun _ => none) (.put "a" 4 .int32 first) nofun nofun (.empty false "") rfl) rfl

theorem enumsStored_twoIntegers (enums : String → Option EnumData)
    (first second : SimpleOptions) : (twoIntegers first second).EnumsStored enums := by
  have hplain : ∀ node ∈ (twoIntegers first second).nodes,
      node.enum = none ∧ node.nested = none := by
    intro node hnode
    rcases List.mem_cons.mp hnode with rfl | hnode
    · exact ⟨rfl, rfl⟩
    · rw [List.mem_singleton.mp hnode]
      exact ⟨rfl, rfl⟩
  refine ⟨fun node hnode e he => ?_, fun node hnode n hn => ?_⟩
  · rw [(hplain node hnode).1] at he
    cases he
  · rw [(hplain node hnode).2] at hn
    cases hn

/-- A bound of the second field only survives. -/
theorem schemaRoundTrip_iff_schemaKept_second :
    (twoIntegers .reset ⟨true, 1, true, 9, false, 0⟩).SchemaRoundTrip fun _ => none := by
  refine (schemaRoundTrip_iff_schemaKept _ (built_twoIntegers _ _)
    (enumsStored_twoIntegers _ _ _)).mpr ?_
  have hfirst : Node.KeptAll ((empty false).put "a" 4 .int32 .reset).nodes := by
    refine Node.keptAll_concat.mpr ⟨Node.keptAll_nil, ?_⟩
    rw [Node.kept_iff_of_not_nested rfl]
    exact ⟨.inl rfl, rfl, ⟨nofun, nofun⟩, ⟨nofun, nofun⟩, ⟨nofun, nofun⟩⟩
  refine schemaKept_iff.mpr (Node.keptAll_concat.mpr ⟨hfirst, ?_⟩)
  rw [Node.kept_iff_of_not_nested rfl]
  exact ⟨.inl rfl, rfl, ⟨fun _ => rfl, fun _ => trivial⟩, ⟨fun _ => rfl, fun _ => trivial⟩,
    ⟨nofun, nofun⟩⟩

/-- Bounds of the first field are read for the second one as well. -/
theorem schemaRoundTrip_fails_carried :
    (twoIntegers ⟨true, 1, true, 9, false, 0⟩ .reset).Built ∧
      (twoIntegers ⟨true, 1, true, 9, false, 0⟩ .reset).EnumsStored (fun _ => none) ∧
      ¬(twoIntegers ⟨true, 1, true, 9, false, 0⟩ .reset).SchemaRoundTrip fun _ => none := by
  have hbuilt := built_twoIntegers ⟨true, 1, true, 9, false, 0⟩ .reset
  have hstored := enumsStored_twoIntegers (fun _ => none) ⟨true, 1, true, 9, false, 0⟩ .reset
  refine ⟨hbuilt, hstored, ?_⟩
  rintro ⟨json, m', hwrite, hread, -, hfields⟩
  have hkept : (twoIntegers ⟨true, 1, true, 9, false, 0⟩ .reset).SchemaKept :=
    (Schema.MetadataStep.of_built hbuilt hstored).keptOf (json, true) false (m', true) hwrite
      hread hfields
  obtain ⟨-, hsecond⟩ := Node.keptAll_concat.mp (schemaKept_iff.mp hkept)
  obtain ⟨-, -, hoptions⟩ := hsecond.field
  -- the minimum of the first field is left over, and the second one has none
  have hmin : (Node.carriedOptions
      ((empty false).put "a" 4 .int32 ⟨true, 1, true, 9, false, 0⟩).nodes).min.1 = true := rfl
  exact Bool.noConfusion (hoptions.min.1 hmin)

end BinaryMetadata

end UtilityFramework
