import UtilityFramework.Parsers.Metadata

/-!
# Trees of metadata

`BinaryMetadata.Built` are the metadata that builder calls make, where the metadata given to
a call, or found in the store, have been made by builder calls before. `BinaryMetadata.Appends`
says what one call can append, and `Node.WellBuilt` what such a tree looks like from one of its
nodes.
-/

namespace UtilityFramework

/-- The metadata a builder call is given. -/
def BuilderCall.arguments : BuilderCall → List BinaryMetadata
  | nest _ nested => [nested]
  | array _ _ _ _ _ nested => nested.toList
  | _ => []

namespace BinaryMetadata

/-- The metadata made by builder calls, starting from one without nodes. -/
inductive Built : BinaryMetadata → Prop
  | empty (bigEndian : Bool) (name : String) : Built (.mk bigEndian name [] 0)
  | step (store : String → Option BinaryMetadata) {m m' : BinaryMetadata} (call : BuilderCall)
    (hstore : ∀ name n, store name = some n → Built n)
    (hargs : ∀ n ∈ call.arguments, Built n) (hm : Built m)
    (hstep : call.step store m = some m') : Built m'

/-! ### What a call appends -/

/-- A node that nests nothing. -/
def fieldNode (m : BinaryMetadata) (name : String) (size : ℕ) (type : TypeEnum)
    (options : SimpleOptions) (enum : Option EnumData) (defString : String) : Node :=
  { m.newNode name size type with options := options, enum := enum, defString := defString }

/-- The node of a bit field in its block. -/
def bitNode (m : BinaryMetadata) (name : String) (block : BitBlock) : Node :=
  { m.newNode name block.size .bitmap with offset := block.offset, bits := some block.bits }

/-- The node of a nested metadata. -/
def nestNode (m : BinaryMetadata) (name : String) (nested : BinaryMetadata) : Node :=
  { m.newNode name nested.size .complex with
    bigEndian := nested.bigEndian, nested := some nested }

/-- The node of an array, given the metadata of its elements. -/
def arrayNode (m : BinaryMetadata) (name : String) (size count : ℕ) (options : SimpleOptions)
    (enum : Option EnumData) (element : BinaryMetadata) : Node :=
  { m.newNode name size .array with
    options := options, enum := enum, count := count, nested := some element }

/-- The metadata of the elements of an array, given their node. -/
def single (b : Bool) (node : BinaryMetadata → Node) : BinaryMetadata :=
  (BinaryMetadata.empty b).append (node (.empty b)) (node (.empty b)).size

/-- The nodes builder calls append to a metadata, with the advance of the size. Only the array
of enumeration values can have a nameless node, and the elements of the other arrays are named
after the name that was given. -/
inductive Appends (m : BinaryMetadata) : Node → ℕ → Prop
  | plain (name : String) (size : ℕ) (type : TypeEnum) (options : SimpleOptions)
    (enum : Option EnumData) (hname : name ≠ "") (henum : enum ≠ none → type = .enum) :
    Appends m (m.fieldNode name size type options enum "") size
  | string (name : String) (size : ℕ) (defString : String) (hname : name ≠ "") :
    Appends m (m.fieldNode name size .string .reset none defString) size
  | bits (name : String) (numOfBits dataSize : ℕ) (prev : Option (Node × BitRange))
    (hname : name ≠ "") (hbits : numOfBits ≠ 0) (hprev : m.prevBitNode = some prev) :
    Appends m (m.bitNode name (m.bitBlock numOfBits dataSize prev))
      (m.bitBlock numOfBits dataSize prev).sizeToIncrease
  | nest (name : String) (nested : BinaryMetadata) (hname : name ≠ "") (hnested : nested.Built) :
    Appends m (m.nestNode name nested) nested.size
  | array (name given : String) (size : ℕ) (type : TypeEnum) (count : ℕ)
    (options : SimpleOptions) (hname : name ≠ "") (htype : type ≠ .complex) :
    Appends m (m.arrayNode name size count options none (single m.bigEndian fun n =>
      n.fieldNode (elementName given count) size type options none "")) (Size.mul size count)
  | arrayString (name given : String) (size count : ℕ) (defString : String) (hname : name ≠ "") :
    Appends m { m.arrayNode name size count .reset none (single m.bigEndian fun n =>
      n.fieldNode (elementName given count) size .string .reset none defString) with
      defString := defString } (Size.mul size count)
  | arrayEnum (name : String) (size count : ℕ) (options : SimpleOptions) (enum : EnumData) :
    Appends m (m.arrayNode name size count options (some enum) (single m.bigEndian fun n =>
      n.fieldNode (elementName name count) size .enum options (some enum) ""))
      (Size.mul size count)
  | arrayComplex (name given : String) (size count : ℕ) (options : SimpleOptions)
    (nested : BinaryMetadata) (hname : name ≠ "") (hnested : nested.Built) :
    Appends m (m.arrayNode name size count options none (single m.bigEndian fun n =>
      n.nestNode (elementName given count) nested)) (Size.mul size count)

theorem toString_ne_empty (n : ℕ) : toString n ≠ "" := by
  intro h
  have hdigits : (toString n).toList = Nat.toDigits 10 n := by
    rw [Nat.toString_eq_repr, Nat.toList_repr]
  rw [h, String.toList_empty] at hdigits
  exact Nat.toDigits_ne_nil hdigits.symm

theorem nodeName_ne_empty (m : BinaryMetadata) (name : String) : m.nodeName name ≠ "" := by
  rw [nodeName]
  split
  · exact toString_ne_empty _
  · assumption

theorem nodeName_of_ne_empty (m : BinaryMetadata) {name : String} (h : name ≠ "") :
    m.nodeName name = name := if_neg h

theorem elementName_ne_empty (name : String) (n : ℕ) : elementName name n ≠ "" := by
  intro h
  have hchars := congrArg String.toList h
  rw [elementName, String.toList_append, String.toList_empty] at hchars
  exact absurd (List.append_eq_nil_iff.mp hchars).2 (by decide)

section NewNodes

variable (m : BinaryMetadata) {name : String} (hname : name ≠ "")

include hname

theorem put_eq (size : ℕ) (type : TypeEnum) (options : SimpleOptions) :
    m.put name size type options = m.append (m.fieldNode name size type options none "") size := by
  rw [put, m.nodeName_of_ne_empty hname]
  rfl

theorem putEnum_eq (size : ℕ) (enum : Option EnumData) (options : SimpleOptions) :
    m.putEnum name size enum options =
      m.append (m.fieldNode name size .enum options enum "") size := by
  rw [putEnum, m.nodeName_of_ne_empty hname]
  rfl

theorem putString_eq (size : ℕ) (defString : String) :
    m.putString name size defString =
      m.append (m.fieldNode name size .string .reset none defString) size := by
  rw [putString, m.nodeName_of_ne_empty hname]
  rfl

theorem nestMetadata_eq (nested : BinaryMetadata) :
    m.nestMetadata name nested = m.append (m.nestNode name nested) nested.size := by
  rw [nestMetadata, m.nodeName_of_ne_empty hname]
  rfl

end NewNodes

/-- The element of an array has the name made for it. -/
theorem nodeName_elementName (m : BinaryMetadata) (name : String) (n : ℕ) :
    m.nodeName (elementName name n) = elementName name n :=
  m.nodeName_of_ne_empty (elementName_ne_empty name n)

/-- An array of simple or complex elements. -/
theorem array_eq (m : BinaryMetadata) (name : String) (size : ℕ) (type : TypeEnum) (count : ℕ)
    (options : SimpleOptions) (nested : Option BinaryMetadata) :
    m.array name size type count options nested =
      if type = .complex then
        nested.map fun nested =>
          m.append (m.arrayNode (m.nodeName name) size count options none (single m.bigEndian
            fun n => n.nestNode (elementName name count) nested)) (Size.mul size count)
      else
        some (m.append (m.arrayNode (m.nodeName name) size count options none
          (single m.bigEndian fun n =>
            n.fieldNode (elementName name count) size type options none ""))
          (Size.mul size count)) := by
  simp only [array, nestMetadata, put, nodeName_elementName]
  rfl

theorem arrayString_eq (m : BinaryMetadata) (name : String) (size count : ℕ)
    (defString : String) :
    m.arrayString name size count defString =
      m.append { m.arrayNode (m.nodeName name) size count .reset none (single m.bigEndian fun n =>
        n.fieldNode (elementName name count) size .string .reset none defString) with
        defString := defString } (Size.mul size count) := by
  simp only [arrayString, putString, nodeName_elementName]
  rfl

theorem arrayEnum_eq (m : BinaryMetadata) (name : String) (count size : ℕ)
    (options : SimpleOptions) (enum : EnumData) :
    m.arrayEnum name count size options enum =
      m.append (m.arrayNode name size count options (some enum) (single m.bigEndian fun n =>
        n.fieldNode (elementName name count) size .enum options (some enum) ""))
        (Size.mul size count) := by
  simp only [arrayEnum, putEnum, nodeName_elementName]
  rfl

theorem appends_of_array {m m' : BinaryMetadata} {name : String} {size count : ℕ}
    {type : TypeEnum} {options : SimpleOptions} {nested : Option BinaryMetadata}
    (hnested : ∀ n, nested = some n → n.Built)
    (h : m.array name size type count options nested = some m') :
    ∃ node increase, m.Appends node increase ∧ m' = m.append node increase := by
  rw [array_eq] at h
  split at h
  · obtain ⟨n, hn, rfl⟩ := Option.map_eq_some_iff.mp h
    exact ⟨_, _, .arrayComplex _ name size count options n (m.nodeName_ne_empty name)
      (hnested n hn), rfl⟩
  · rename_i htype
    rw [← Option.some.inj h]
    exact ⟨_, _, .array _ name size type count options (m.nodeName_ne_empty name) htype, rfl⟩

/-- **What a builder call does.** It leaves the nodes as they are or appends one. -/
theorem step_cases {store : String → Option BinaryMetadata} {m m' : BinaryMetadata}
    {call : BuilderCall} (hstore : ∀ name n, store name = some n → n.Built)
    (hargs : ∀ n ∈ call.arguments, n.Built) (h : call.step store m = some m') :
    (m'.nodes = m.nodes ∧ m'.size = m.size) ∨
      ∃ node increase, m.Appends node increase ∧ m' = m.append node increase := by
  obtain ⟨r, hr, rfl⟩ := Option.map_eq_some_iff.mp h
  cases call with
  | setBigEndian b =>
    obtain rfl := Option.some.inj hr
    exact .inl ⟨rfl, rfl⟩
  | put name size type options =>
    obtain rfl := Option.some.inj hr
    exact .inr ⟨_, _, .plain _ size type options none (m.nodeName_ne_empty name)
      (fun h => absurd rfl h), rfl⟩
  | putEnum name size enum options =>
    obtain rfl := Option.some.inj hr
    exact .inr ⟨_, _, .plain _ size .enum options enum (m.nodeName_ne_empty name)
      (fun _ => rfl), rfl⟩
  | putBits name numOfBits dataSize =>
    rw [BuilderCall.apply, BinaryMetadata.putBits] at hr
    split at hr
    · rw [← Option.some.inj hr]
      exact .inl ⟨rfl, rfl⟩
    · rename_i hguard
      obtain ⟨prev, hprev, rfl⟩ := Option.map_eq_some_iff.mp hr
      exact .inr ⟨_, _, .bits _ numOfBits dataSize prev (m.nodeName_ne_empty name)
        (fun h => hguard (.inl h)) hprev, rfl⟩
  | putString name maxSize defString =>
    obtain rfl := Option.some.inj hr
    exact .inr ⟨_, _, .string _ maxSize defString (m.nodeName_ne_empty name), rfl⟩
  | nest name nested =>
    obtain rfl := Option.some.inj hr
    exact .inr ⟨_, _, .nest _ nested (m.nodeName_ne_empty name)
      (hargs nested List.mem_cons_self), rfl⟩
  | nestNamed name metadataName =>
    rw [BuilderCall.apply] at hr
    split at hr
    · rw [← Option.some.inj hr]
      exact .inl ⟨rfl, rfl⟩
    · rename_i nested hnested
      rw [← Option.some.inj hr]
      exact .inr ⟨_, _, .nest _ nested (m.nodeName_ne_empty name)
        (hstore metadataName nested hnested), rfl⟩
  | array name size type numOfElements options nested =>
    obtain ⟨m', hm', rfl⟩ := Option.map_eq_some_iff.mp hr
    refine .inr (appends_of_array (fun n hn => hargs n ?_) hm')
    rw [BuilderCall.arguments, hn]
    exact List.mem_cons_self
  | arrayString name size numOfElements defString =>
    obtain rfl := Option.some.inj hr
    exact .inr ⟨_, _, .arrayString _ name size numOfElements defString
      (m.nodeName_ne_empty name), m.arrayString_eq name size numOfElements defString⟩
  | arrayNamed name numOfElements options metadataName =>
    rw [BuilderCall.apply] at hr
    split at hr
    · rw [← Option.some.inj hr]
      exact .inl ⟨rfl, rfl⟩
    · rename_i nested hnested
      obtain ⟨m', hm', rfl⟩ := Option.map_eq_some_iff.mp hr
      refine .inr (appends_of_array (fun n hn => ?_) hm')
      exact Option.some.inj hn ▸ hstore metadataName nested hnested
  | arrayEnum name numOfElements size options enum =>
    cases enum with
    | none =>
      obtain rfl := Option.some.inj hr
      exact .inl ⟨rfl, rfl⟩
    | some enum =>
      obtain rfl := Option.some.inj hr
      exact .inr ⟨_, _, .arrayEnum name size numOfElements options enum,
        m.arrayEnum_eq name numOfElements size options enum⟩

/-- Induction over the nodes of a metadata made by builder calls: what holds without nodes and
is kept by appending one. -/
theorem Built.induction_append {P : List Node → ℕ → Prop} (hempty : P [] 0)
    (happend : ∀ (m : BinaryMetadata) (node : Node) (increase : ℕ), m.Built →
      P m.nodes m.size → m.Appends node increase →
      P (m.append node increase).nodes (m.append node increase).size)
    {m : BinaryMetadata} (h : m.Built) : P m.nodes m.size := by
  induction h with
  | empty bigEndian name => exact hempty
  | step store call hstore hargs hm hstep _ _ ih =>
    rcases step_cases hstore hargs hstep with ⟨hnodes, hsize⟩ | ⟨node, increase, happ, rfl⟩
    · rw [hnodes, hsize]
      exact ih
    · exact happend _ node increase hm ih happ

end BinaryMetadata

/-! ### Nodes -/

/-- What is known of a node of a tree of metadata: what it nests is a tree again, and an
array and its elements have the same enumeration. -/
structure Node.WellBuilt (node : Node) : Prop where
  nested : node.type = .complex → ∀ m, node.nested = some m → m.Built
  element : node.type = .array → ∀ m, node.element = some m → m.Built
  enum : node.type = .array → ∀ child, node.child = some child → child.enum = node.enum

namespace Node.WellBuilt

/-- A node that nests nothing. -/
theorem of_not_nested {node : Node} (h : node.nested = none) : node.WellBuilt where
  nested _ m hm := by simp [h] at hm
  element _ m hm := by simp [Node.element, Node.child, h] at hm
  enum _ child hchild := by simp [Node.child, h] at hchild

/-- An array whose elements are described by one node. -/
theorem of_array {node child : Node} {bigEndian : Bool} {name : String} {size : ℕ}
    (htype : node.type = .array) (hnested : node.nested = some (.mk bigEndian name [child] size))
    (henum : child.enum = node.enum) (hchild : ∀ m, child.nested = some m → m.Built) :
    node.WellBuilt := by
  have hhead : node.child = some child := by
    rw [Node.child, hnested]
    rfl
  refine ⟨fun hcomplex => ?_, fun _ m hm => ?_, fun _ c hc => ?_⟩
  · rw [htype] at hcomplex
    cases hcomplex
  · rw [Node.element, hhead] at hm
    exact hchild m hm
  · obtain rfl : child = c := Option.some.inj (hhead.symm.trans hc)
    exact henum

theorem of_appends {m : BinaryMetadata} {node : Node} {increase : ℕ}
    (h : m.Appends node increase) : node.WellBuilt := by
  cases h with
  | plain | string | bits => exact .of_not_nested rfl
  | nest name nested hname hnested =>
    refine ⟨fun _ n hn => ?_, fun harray => ?_, fun harray => ?_⟩
    · exact Option.some.inj hn ▸ hnested
    · cases harray
    · cases harray
  | array | arrayString | arrayEnum => exact .of_array rfl rfl rfl fun _ hn => nomatch hn
  | arrayComplex name given size count options nested hname hnested =>
    exact .of_array rfl rfl rfl fun n hn => Option.some.inj hn ▸ hnested

end Node.WellBuilt

/-- The nodes of a tree of metadata are well built. -/
theorem BinaryMetadata.Built.wellBuilt {m : BinaryMetadata} (h : m.Built) :
    ∀ node ∈ m.nodes, node.WellBuilt := by
  refine h.induction_append (P := fun nodes _ => ∀ node ∈ nodes, node.WellBuilt) ?_ ?_
  · exact fun node hnode => absurd hnode List.not_mem_nil
  · intro m new increase _ ih happ node hnode
    rcases List.mem_append.mp hnode with hold | hnew
    · exact ih node hold
    · rw [List.mem_singleton.mp hnew]
      exact .of_appends happ

end UtilityFramework
