import UtilityFramework.Parsers.NamedAccess

/-!
# What reads depend on

A read of a parser depends on its metadata and offset, on the places of its nested parsers, and on
the content of one buffer: that of the parser itself or, for `read_at`, that of the nested parser
of the array (`ParserTree.SameShape.run_eq`). Of the buffer it takes bytes at one position, from
which it makes its result (`ParserTree.run_of_takes`).
-/

namespace UtilityFramework

open Bytes BinaryMetadata

/-! ### Reads -/

/-- The data that a read gives; a parser is none. -/
def ReadResult.data : ReadResult → ReadResult
  | parser _ => unset
  | result => result

/-- A read by name or by index. -/
def FieldRead.run (p : Platform) (heap : List (List UInt8)) (t : ParserTree) (ref : FieldRef)
    (call : FieldRead) : Option ReadResult :=
  match ref with
  | .named name => call.named p heap t name
  | .indexed index => call.indexed p heap t index

/-- The nested parser of the field that is referred to. -/
def ParserTree.nestedParser (t : ParserTree) : FieldRef → Option ParserTree
  | .named name => (t.entry name).bind id
  | .indexed index => (t.metadata.queryNodeByIndex index).bind fun node =>
    (t.entry node.name).bind id

/-- The bytes that a read takes from a buffer, and what it makes of them. -/
structure TakenBytes where
  buffer : ℕ
  position : ℕ
  size : ℕ
  decode : List UInt8 → ReadResult

namespace FieldRead

/-- The bytes that `read_by_node` takes. -/
def takesNode (p : Platform) (t : ParserTree) (node : Node) (n : ℕ) : Option TakenBytes :=
  if node.size < n then none
  else if node.type = .bitmap then
    some ⟨t.buffer, t.offset + node.offset, node.size, fun block => .ofBytes (node.read p block)⟩
  else
    some ⟨t.buffer, t.offset + node.offset, n, fun data =>
      .bytes (convertOrder node.bigEndian data)⟩

/-- The bytes that `read_enum_by_node` takes, given how many. -/
def takesEnum (t : ParserTree) (node : Node) (size : ℕ) : Option TakenBytes :=
  if node.type = .enum ∧ node.size ≤ 8 ∧ size ≤ node.size ∧
      (size = 1 ∨ size = 2 ∨ size = 4 ∨ size = 8) then
    some ⟨t.buffer, t.offset + node.offset, size, fun data =>
      .ofItem (node.enumItem (toSigned size (ofLE (convertOrder node.bigEndian data))))⟩
  else none

/-- The bytes that a read takes, if it takes any. -/
def takes (p : Platform) (t : ParserTree) (ref : FieldRef) : FieldRead → Option TakenBytes
  | simple n => (ref.node t.metadata).bind fun node => takesNode p t node n
  | string length => (ref.node t.metadata).bind fun node =>
    if length < node.size then none else takesNode p t node node.size
  | enum => (ref.node t.metadata).bind fun node =>
    takesEnum t node (match ref with
      | .named _ => 8
      | .indexed _ => node.size)
  | element n arrayIndex => do
    let internal ← t.nestedParser ref
    let child ← internal.metadata.queryNodeByIndex 0
    if child.type = .complex then none
    else
      return ⟨internal.buffer, internal.elementOffset child arrayIndex, n, fun data =>
        .bytes (convertOrder child.bigEndian data)⟩
  | _ => none

end FieldRead

namespace ParserTree

variable {p : Platform} {heap heap' : List (List UInt8)} {t t' sub : ParserTree} {ref : FieldRef}
  {call : FieldRead} {w : TakenBytes} {buf : List UInt8} {n arrayIndex : ℕ}

/-! ### The two forms of a read -/

theorem run_simple (p : Platform) (heap : List (List UInt8)) (t : ParserTree) (ref : FieldRef)
    (n : ℕ) : (FieldRead.simple n).run p heap t ref =
      some (.ofBytes (t.readSimple p heap ref n)) := by
  cases ref <;> rfl

theorem run_string (p : Platform) (heap : List (List UInt8)) (t : ParserTree) (ref : FieldRef)
    (length : ℕ) : (FieldRead.string length).run p heap t ref =
      some (.ofBytes (t.readString p heap ref length)) := by
  cases ref <;> rfl

theorem run_element (heap : List (List UInt8)) (t : ParserTree) (ref : FieldRef)
    (n arrayIndex : ℕ) : (FieldRead.element n arrayIndex).run p heap t ref =
      (t.readAt heap ref n arrayIndex).map .ofBytes := by
  cases ref <;> rfl

theorem run_enum (heap : List (List UInt8)) {node : Node} :
    ref.node t.metadata = some node →
      FieldRead.enum.run p heap t ref = some (.ofItem (t.readEnumOf p heap node
        (match ref with
          | .named _ => 8
          | .indexed _ => node.size))) := by
  intro h
  cases ref with
  | named name =>
    have hname : t.metadata.queryNode name = some node := h
    simp only [FieldRead.run, FieldRead.named, readEnum, hname, Option.bind_eq_bind,
      Option.bind_some]
  | indexed index =>
    have hindex : t.metadata.queryNodeByIndex index = some node := h
    simp only [FieldRead.run, FieldRead.indexed, readEnumByIndex, hindex, Option.bind_eq_bind,
      Option.bind_some]

theorem run_enum_none (heap : List (List UInt8)) (h : ref.node t.metadata = none) :
    FieldRead.enum.run p heap t ref = some .failed := by
  cases ref with
  | named name =>
    have hname : t.metadata.queryNode name = none := h
    simp only [FieldRead.run, FieldRead.named, readEnum, hname, Option.bind_eq_bind,
      Option.bind_none]
    rfl
  | indexed index =>
    have hindex : t.metadata.queryNodeByIndex index = none := h
    simp only [FieldRead.run, FieldRead.indexed, readEnumByIndex, hindex, Option.bind_eq_bind,
      Option.bind_none]
    rfl

/-! ### What a read depends on -/

/-- What reads see of a nested parser besides its buffer. -/
def place (t : ParserTree) : BinaryMetadata × ℕ := (t.metadata, t.offset)

/-- Two parsers that differ in buffers only. -/
structure SameShape (t t' : ParserTree) : Prop where
  metadata : t'.metadata = t.metadata
  offset : t'.offset = t.offset
  entries : ∀ name, (t'.entry name).map (Option.map place) = (t.entry name).map (Option.map place)

/-- The buffer that a read takes its bytes from. -/
def source (t : ParserTree) (ref : FieldRef) : FieldRead → Option ℕ
  | .element _ _ => (t.nestedParser ref).map buffer
  | _ => some t.buffer

theorem SameShape.refl (t : ParserTree) : t.SameShape t := ⟨rfl, rfl, fun _ => rfl⟩

/-- The entries of parsers of the same shape are of the same kind. -/
theorem SameShape.entry_cases (h : t.SameShape t') (name : String) :
    (t.entry name = none ∧ t'.entry name = none) ∨
      (t.entry name = some none ∧ t'.entry name = some none) ∨
      ∃ sub sub', t.entry name = some (some sub) ∧ t'.entry name = some (some sub') ∧
        sub'.metadata = sub.metadata ∧ sub'.offset = sub.offset := by
  have hentries := h.entries name
  cases hentry : t.entry name with
  | none =>
    rw [hentry, Option.map_none, Option.map_eq_none_iff] at hentries
    exact Or.inl ⟨rfl, hentries⟩
  | some e =>
    rw [hentry, Option.map_some] at hentries
    obtain ⟨e', he', hplace⟩ := Option.map_eq_some_iff.mp hentries
    cases e with
    | none => exact Or.inr (Or.inl ⟨rfl, by rw [he', Option.map_eq_none_iff.mp hplace]⟩)
    | some sub =>
      obtain ⟨sub', rfl, hsub⟩ := Option.map_eq_some_iff.mp hplace
      exact Or.inr (Or.inr ⟨sub, sub', rfl, he', congrArg Prod.fst hsub, congrArg Prod.snd hsub⟩)

/-- `read_at` depends on the nested parser of the array and on its buffer. -/
theorem SameShape.readAtNamed_eq (h : t.SameShape t') {name : String} {n arrayIndex : ℕ}
    (hcontent : ((t'.entry name).bind id).bind (fun sub => heap'[sub.buffer]?) =
      ((t.entry name).bind id).bind fun sub => heap[sub.buffer]?) :
    t'.readAtNamed heap' name n arrayIndex = t.readAtNamed heap name n arrayIndex := by
  rw [readAtNamed.eq_def, readAtNamed.eq_def]
  rcases h.entry_cases name with ⟨he, he'⟩ | ⟨he, he'⟩ | ⟨sub, sub', he, he', hmeta, hoff⟩
  · rw [he, he']
  · rw [he, he']
  · rw [he, he', Option.bind_some, Option.bind_some, id, id, Option.bind_some,
      Option.bind_some] at hcontent
    simp only [he, he', hmeta, hcontent, elementOffset, hoff]

theorem SameShape.readComplexNamed_eq (h : t.SameShape t') (name : String) :
    (t'.readComplexNamed name).map ReadResult.data =
      (t.readComplexNamed name).map ReadResult.data := by
  rw [readComplexNamed, readComplexNamed]
  rcases h.entry_cases name with ⟨he, he'⟩ | ⟨he, he'⟩ | ⟨sub, sub', he, he', -, -⟩
  · rw [he, he']
  · rw [he, he']
  · rw [he, he']
    rfl

/-- The data of a new parser do not depend on its buffer. -/
theorem data_ofElement (e : Option (BinaryMetadata × ℕ)) :
    (ReadResult.data ∘ ReadResult.ofElement t'.buffer) e =
      (ReadResult.data ∘ ReadResult.ofElement t.buffer) e := by
  cases e <;> rfl

theorem SameShape.readAt_eq (h : t.SameShape t')
    (hcontent : ((t'.nestedParser ref).map buffer).bind (fun b => heap'[b]?) =
      ((t.nestedParser ref).map buffer).bind fun b => heap[b]?) :
    t'.readAt heap' ref n arrayIndex = t.readAt heap ref n arrayIndex := by
  rw [Option.bind_map, Option.bind_map] at hcontent
  cases ref with
  | named name => exact h.readAtNamed_eq hcontent
  | indexed index =>
    rw [readAt, readAt, h.metadata]
    cases hnode : t.metadata.queryNodeByIndex index with
    | none => rfl
    | some node =>
      rw [nestedParser, nestedParser, h.metadata, hnode, Option.bind_some,
        Option.bind_some] at hcontent
      exact h.readAtNamed_eq hcontent

theorem SameShape.readEnumOf_eq (h : t.SameShape t') (hbuf : heap'[t'.buffer]? = heap[t.buffer]?)
    (node : Node) (size : ℕ) :
    t'.readEnumOf p heap' node size = t.readEnumOf p heap node size := by
  rw [readEnumOf, readEnumOf, hbuf, h.offset]

theorem SameShape.arrayAttributesIndexed_eq (h : t.SameShape t') (index : ℕ) :
    t'.arrayAttributesIndexed index = t.arrayAttributesIndexed index := by
  rw [arrayAttributesIndexed.eq_def, arrayAttributesIndexed.eq_def, h.metadata]
  cases t.metadata.queryNodeByIndex index with
  | none => rfl
  | some node =>
    rcases h.entry_cases node.name with ⟨he, he'⟩ | ⟨he, he'⟩ | ⟨sub, sub', he, he', hmeta, -⟩
    · simp only [he, he']
    · simp only [he, he']
    · simp only [he, he', hmeta]

theorem SameShape.readComplexIndexed_eq (h : t.SameShape t') (index : ℕ) :
    (t'.readComplexIndexed index).map ReadResult.data =
      (t.readComplexIndexed index).map ReadResult.data := by
  rw [readComplexIndexed.eq_def, readComplexIndexed.eq_def, h.metadata]
  split_ifs
  · rfl
  · cases t.metadata.queryNodeByIndex index with
    | none => rfl
    | some node => exact h.readComplexNamed_eq node.name

/-- **A read depends on the shape of the parser and on the content of one buffer.** -/
theorem SameShape.run_eq (h : t.SameShape t')
    (hcontent : (t'.source ref call).bind (fun b => heap'[b]?) =
      (t.source ref call).bind fun b => heap[b]?) :
    (call.run p heap' t' ref).map ReadResult.data =
      (call.run p heap t ref).map ReadResult.data := by
  cases call with
  | simple n =>
    have hbuf : heap'[t'.buffer]? = heap[t.buffer]? := hcontent
    rw [run_simple, run_simple, readSimple, readSimple, hbuf, h.metadata, h.offset]
  | string length =>
    have hbuf : heap'[t'.buffer]? = heap[t.buffer]? := hcontent
    rw [run_string, run_string, readString, readString, hbuf, h.metadata, h.offset]
  | enum =>
    cases hnode : ref.node t.metadata with
    | none =>
      have hnode' : ref.node t'.metadata = none := h.metadata ▸ hnode
      rw [run_enum_none heap hnode, run_enum_none heap' hnode']
    | some node =>
      have hnode' : ref.node t'.metadata = some node := h.metadata ▸ hnode
      rw [run_enum heap hnode, run_enum heap' hnode', h.readEnumOf_eq hcontent]
  | complex =>
    cases ref with
    | named name => exact h.readComplexNamed_eq name
    | indexed index => exact h.readComplexIndexed_eq index
  | element n arrayIndex => rw [run_element, run_element, h.readAt_eq hcontent]
  | complexAt arrayIndex =>
    cases ref with
    | named name =>
      simp only [FieldRead.run, FieldRead.named, elementAtNamed, h.metadata, Option.map_map]
      exact congrFun (congrArg Option.map (funext data_ofElement)) _
    | indexed index =>
      simp only [FieldRead.run, FieldRead.indexed, PoolState.elementAt, h.metadata, h.offset,
        Option.map_map]
      exact congrFun (congrArg Option.map (funext data_ofElement)) _
  | arrayAttributes =>
    refine congrArg (Option.map ReadResult.data) ?_
    cases ref with
    | named name => simp only [FieldRead.run, FieldRead.named, arrayAttributesNamed, h.metadata]
    | indexed index => exact h.arrayAttributesIndexed_eq index

/-! ### The bytes that a read takes -/

/-- What a read gives that takes bytes behind the end of a buffer of that length. -/
def beyond (w : TakenBytes) (length : ℕ) : FieldRead → Option ReadResult
  | .element _ _ => if length < Size.add w.size w.position then some .failed else none
  | _ => some .failed

theorem buffer_of_takesNode {node : Node} {n : ℕ} (h : FieldRead.takesNode p t node n = some w) :
    w.buffer = t.buffer := by
  rw [FieldRead.takesNode] at h
  split_ifs at h <;> obtain rfl := Option.some.inj h <;> rfl

theorem buffer_of_takesEnum {node : Node} {size : ℕ}
    (h : FieldRead.takesEnum t node size = some w) : w.buffer = t.buffer := by
  rw [FieldRead.takesEnum] at h
  split_ifs at h
  obtain rfl := Option.some.inj h
  rfl

/-- A read takes its bytes from the source. -/
theorem source_of_takes (h : call.takes p t ref = some w) : t.source ref call = some w.buffer := by
  cases call with
  | simple n =>
    obtain ⟨node, -, hnode⟩ := Option.bind_eq_some_iff.mp h
    exact congrArg some (buffer_of_takesNode hnode).symm
  | string length =>
    obtain ⟨node, -, hnode⟩ := Option.bind_eq_some_iff.mp h
    split_ifs at hnode
    exact congrArg some (buffer_of_takesNode hnode).symm
  | enum =>
    obtain ⟨node, -, hnode⟩ := Option.bind_eq_some_iff.mp h
    exact congrArg some (buffer_of_takesEnum hnode).symm
  | element n arrayIndex =>
    obtain ⟨internal, hinternal, htake⟩ := Option.bind_eq_some_iff.mp h
    obtain ⟨child, -, htake⟩ := Option.bind_eq_some_iff.mp htake
    split_ifs at htake
    obtain rfl := Option.some.inj htake
    rw [source, hinternal]
    rfl
  | complex | complexAt _ | arrayAttributes => cases h

/-- `read_by_node` takes the bytes of the field. -/
theorem readByNode_takes (p : Platform) (t : ParserTree) (node : Node) (n : ℕ)
    (buf : List UInt8) :
    ReadResult.ofBytes (readByNode p buf t.offset node n) =
      match FieldRead.takesNode p t node n with
      | none => .failed
      | some w =>
        if w.size + w.position ≤ buf.length then w.decode (slice buf w.position w.size)
        else .failed := by
  rw [readByNode, FieldRead.takesNode]
  split_ifs with hsize hbits
  · rfl
  · simp only [readBitsByNode, safeRead]
    split_ifs <;> rfl
  · simp only [safeRead]
    split_ifs <;> rfl

/-- `read_enum_by_node` takes as many bytes as it is told. -/
theorem readEnumOf_takes (p : Platform) (t : ParserTree) (node : Node) (size : ℕ)
    (hbuf : heap[t.buffer]? = some buf) :
    ReadResult.ofItem (t.readEnumOf p heap node size) =
      match FieldRead.takesEnum t node size with
      | none => .failed
      | some w =>
        if w.size + w.position ≤ buf.length then w.decode (slice buf w.position w.size)
        else .failed := by
  rw [readEnumOf, FieldRead.takesEnum, hbuf]
  by_cases htype : node.type = .enum
  · by_cases height : node.size ≤ 8
    · rw [if_neg (not_not_intro htype), if_neg (not_lt.mpr height)]
      simp only [Option.bind_eq_bind, Option.bind_some, readEnumByNode, readByNode, htype,
        height, true_and, reduceCtorEq, if_false]
      by_cases hwidth : size = 1 ∨ size = 2 ∨ size = 4 ∨ size = 8
      · by_cases hsize : size ≤ node.size
        · rw [if_pos hwidth, if_neg (not_lt.mpr hsize), if_pos ⟨hsize, hwidth⟩]
          simp only [safeRead]
          split_ifs <;> rfl
        · rw [if_pos hwidth, if_pos (not_le.mp hsize), if_neg fun h => hsize h.1]
          rfl
      · rw [if_neg hwidth, if_neg fun h => hwidth h.2]
        rfl
    · rw [if_neg (not_not_intro htype), if_pos (not_le.mp height), if_neg fun h => height h.2.1]
      rfl
  · rw [if_pos htype, if_neg fun h => htype h.1]
    rfl

/-- `read_at` through the nested parser of the field. -/
theorem readAt_of_nestedParser {internal : ParserTree} (h : t.nestedParser ref = some internal) :
    ∃ name, t.entry name = some (some internal) ∧
      ∀ heap n arrayIndex,
        t.readAt heap ref n arrayIndex = t.readAtNamed heap name n arrayIndex := by
  cases ref with
  | named name =>
    obtain ⟨e, he, rfl⟩ := Option.bind_eq_some_iff.mp h
    exact ⟨name, he, fun _ _ _ => rfl⟩
  | indexed index =>
    obtain ⟨node, hnode, h⟩ := Option.bind_eq_some_iff.mp h
    obtain ⟨e, he, rfl⟩ := Option.bind_eq_some_iff.mp h
    exact ⟨node.name, he, fun heap n arrayIndex => by rw [readAt, hnode]⟩

/-- `read_at` of a field without a nested parser. -/
theorem readAt_of_nestedParser_none (h : t.nestedParser ref = none) (n arrayIndex : ℕ) :
    t.readAt heap ref n arrayIndex = t.readAt heap' ref n arrayIndex := by
  have hnamed (name : String) (hentry : (t.entry name).bind id = none) :
      t.readAtNamed heap name n arrayIndex = t.readAtNamed heap' name n arrayIndex := by
    rw [readAtNamed.eq_def, readAtNamed.eq_def]
    cases he : t.entry name with
    | none => rfl
    | some e =>
      cases e with
      | none => rfl
      | some internal =>
        rw [he] at hentry
        cases hentry
  cases ref with
  | named name => exact hnamed name h
  | indexed index =>
    rw [readAt, readAt]
    cases hnode : t.metadata.queryNodeByIndex index with
    | none => rfl
    | some node =>
      rw [nestedParser, hnode, Option.bind_some] at h
      exact hnamed node.name h

theorem readByNode_of_takesNode_none {node : Node} {n : ℕ}
    (h : FieldRead.takesNode p t node n = none) : readByNode p buf t.offset node n = none := by
  rw [FieldRead.takesNode] at h
  split_ifs at h with hsize
  exact if_pos hsize

theorem readEnumOf_of_takesEnum_none {node : Node} {size : ℕ}
    (h : FieldRead.takesEnum t node size = none) : t.readEnumOf p heap node size = none := by
  cases hbuf : heap[t.buffer]? with
  | none => simp [readEnumOf, hbuf]
  | some buf =>
    have hread := readEnumOf_takes p t node size hbuf
    rw [h] at hread
    cases hitem : t.readEnumOf p heap node size with
    | none => rfl
    | some item =>
      rw [hitem] at hread
      cases hread

theorem readSimple_of_takes_none (h : (FieldRead.simple n).takes p t ref = none) :
    t.readSimple p heap ref n = none := by
  rw [readSimple]
  cases heap[t.buffer]? with
  | none => rfl
  | some buf =>
    cases hnode : ref.node t.metadata with
    | none => rfl
    | some node =>
      rw [FieldRead.takes, hnode, Option.bind_some] at h
      exact readByNode_of_takesNode_none h

theorem readString_of_takes_none (h : (FieldRead.string n).takes p t ref = none) :
    t.readString p heap ref n = none := by
  rw [readString]
  cases heap[t.buffer]? with
  | none => rfl
  | some buf =>
    cases hnode : ref.node t.metadata with
    | none => rfl
    | some node =>
      rw [FieldRead.takes, hnode, Option.bind_some] at h
      simp only [Option.bind_eq_bind, Option.bind_some]
      split_ifs at h ⊢
      · rfl
      · exact readByNode_of_takesNode_none h

theorem readAt_of_takes_none (h : (FieldRead.element n arrayIndex).takes p t ref = none) :
    t.readAt heap ref n arrayIndex = t.readAt heap' ref n arrayIndex := by
  cases hinternal : t.nestedParser ref with
  | none => exact readAt_of_nestedParser_none hinternal n arrayIndex
  | some internal =>
    obtain ⟨name, he, hread⟩ := readAt_of_nestedParser hinternal
    rw [hread, hread, readAtNamed, readAtNamed, he]
    simp only [FieldRead.takes, hinternal, Option.bind_eq_bind, Option.bind_some] at h ⊢
    cases hchild : internal.metadata.queryNodeByIndex 0 with
    | none => rfl
    | some child =>
      rw [hchild, Option.bind_some] at h
      split_ifs at h with htype
      simp only [Option.bind_some, if_pos htype]

/-- A read that takes no bytes does not depend on the buffers. -/
theorem run_of_takes_none (h : call.takes p t ref = none) :
    call.run p heap t ref = call.run p heap' t ref := by
  cases call with
  | simple n =>
    rw [run_simple, run_simple, readSimple_of_takes_none h, readSimple_of_takes_none h]
  | string length =>
    rw [run_string, run_string, readString_of_takes_none h, readString_of_takes_none h]
  | enum =>
    cases hnode : ref.node t.metadata with
    | none => rw [run_enum_none heap hnode, run_enum_none heap' hnode]
    | some node =>
      rw [FieldRead.takes, hnode, Option.bind_some] at h
      rw [run_enum heap hnode, run_enum heap' hnode, readEnumOf_of_takesEnum_none h,
        readEnumOf_of_takesEnum_none h]
  | element n arrayIndex => rw [run_element, run_element, readAt_of_takes_none h]
  | complex | complexAt _ | arrayAttributes => cases ref <;> rfl

/-- `read_at` takes the bytes of the element. -/
theorem readAt_of_takes (h : (FieldRead.element n arrayIndex).takes p t ref = some w)
    (hbuf : heap[w.buffer]? = some buf) :
    (t.readAt heap ref n arrayIndex).map ReadResult.ofBytes =
      if w.size + w.position ≤ buf.length then some (w.decode (slice buf w.position w.size))
      else beyond w buf.length (.element n arrayIndex) := by
  obtain ⟨internal, hinternal, htake⟩ := Option.bind_eq_some_iff.mp h
  obtain ⟨child, hchild, htake⟩ := Option.bind_eq_some_iff.mp htake
  split_ifs at htake with htype
  obtain rfl := Option.some.inj htake
  obtain ⟨name, he, hread⟩ := readAt_of_nestedParser hinternal
  simp only [hread, readAtNamed, he, Option.bind_eq_bind, hbuf, sizeRead, beyond]
  rw [hchild, Option.bind_some, if_neg htype, Option.bind_some]
  have hadd : Size.add n (internal.elementOffset child arrayIndex) ≤
      n + internal.elementOffset child arrayIndex := Nat.mod_le _ _
  by_cases hfit : n + internal.elementOffset child arrayIndex ≤ buf.length
  · rw [if_neg (not_lt.mpr (hadd.trans hfit)), if_pos hfit, if_pos hfit]
    rfl
  · rw [if_neg hfit, if_neg hfit]
    split_ifs <;> rfl

/-- **A read takes its bytes** from the buffer, if they are in it. -/
theorem run_of_takes (h : call.takes p t ref = some w) (hbuf : heap[w.buffer]? = some buf) :
    call.run p heap t ref =
      if w.size + w.position ≤ buf.length then some (w.decode (slice buf w.position w.size))
      else beyond w buf.length call := by
  cases call with
  | simple n =>
    obtain ⟨node, hnode, htake⟩ := Option.bind_eq_some_iff.mp h
    rw [buffer_of_takesNode htake] at hbuf
    have hread := readByNode_takes p t node n buf
    rw [htake] at hread
    simp only [run_simple, readSimple, hbuf, hnode, Option.bind_eq_bind, Option.bind_some, hread]
    exact apply_ite some _ _ _
  | string length =>
    obtain ⟨node, hnode, htake⟩ := Option.bind_eq_some_iff.mp h
    split_ifs at htake with hlength
    rw [buffer_of_takesNode htake] at hbuf
    have hread := readByNode_takes p t node node.size buf
    rw [htake] at hread
    simp only [run_string, readString, hbuf, hnode, Option.bind_eq_bind, Option.bind_some,
      if_neg hlength, hread]
    exact apply_ite some _ _ _
  | enum =>
    obtain ⟨node, hnode, htake⟩ := Option.bind_eq_some_iff.mp h
    rw [buffer_of_takesEnum htake] at hbuf
    rw [run_enum heap hnode, readEnumOf_takes p t node _ hbuf, htake]
    exact apply_ite some _ _ _
  | element n arrayIndex => rw [run_element, readAt_of_takes h hbuf]
  | complex | complexAt _ | arrayAttributes => cases h

/-! ### Overwritten buffers -/

/-- What a read makes of bytes is no parser. -/
theorem data_decode (h : call.takes p t ref = some w) (bytes : List UInt8) :
    (w.decode bytes).data = w.decode bytes := by
  have hbytes (x : Option (List UInt8)) : (ReadResult.ofBytes x).data = .ofBytes x := by
    cases x <;> rfl
  have hitem (x : Option EnumItem) : (ReadResult.ofItem x).data = .ofItem x := by
    cases x <;> rfl
  have hnode {node : Node} {n : ℕ} (h : FieldRead.takesNode p t node n = some w) :
      (w.decode bytes).data = w.decode bytes := by
    rw [FieldRead.takesNode] at h
    split_ifs at h <;> obtain rfl := Option.some.inj h
    · exact hbytes _
    · rfl
  cases call with
  | simple n =>
    obtain ⟨node, -, htake⟩ := Option.bind_eq_some_iff.mp h
    exact hnode htake
  | string length =>
    obtain ⟨node, -, htake⟩ := Option.bind_eq_some_iff.mp h
    split_ifs at htake
    exact hnode htake
  | enum =>
    obtain ⟨node, -, htake⟩ := Option.bind_eq_some_iff.mp h
    rw [FieldRead.takesEnum] at htake
    split_ifs at htake
    obtain rfl := Option.some.inj htake
    exact hitem _
  | element n arrayIndex =>
    obtain ⟨internal, -, htake⟩ := Option.bind_eq_some_iff.mp h
    obtain ⟨child, -, htake⟩ := Option.bind_eq_some_iff.mp htake
    split_ifs at htake
    obtain rfl := Option.some.inj htake
    rfl
  | complex | complexAt _ | arrayAttributes => cases h

/-- A read through one parser, before and after a buffer has been overwritten. -/
theorem run_set_iff (p : Platform) (t : ParserTree) (ref : FieldRef) (call : FieldRead) {b : ℕ}
    {old new : List UInt8} (hold : heap[b]? = some old)
    (hlen : new.length = old.length) :
    (call.run p heap t ref).map ReadResult.data =
        (call.run p (heap.set b new) t ref).map ReadResult.data ↔
      ∀ w, call.takes p t ref = some w → w.buffer = b → w.size + w.position ≤ new.length →
        w.decode (slice (heap.getD b []) w.position w.size) =
          w.decode (slice new w.position w.size) := by
  have hgetD : heap.getD b [] = old := by
    rw [List.getD_eq_getElem?_getD, hold, Option.getD_some]
  cases htake : call.takes p t ref with
  | none => exact iff_of_true (congrArg _ (run_of_takes_none htake)) fun w hw => by cases hw
  | some w =>
    by_cases hbuffer : w.buffer = b
    · subst hbuffer
      have hnew : (heap.set w.buffer new)[w.buffer]? = some new :=
        List.getElem?_set_self (List.getElem?_eq_some_iff.mp hold).1
      rw [run_of_takes htake hold, run_of_takes htake hnew, hlen, hgetD]
      by_cases hfit : w.size + w.position ≤ old.length
      · rw [if_pos hfit, if_pos hfit, Option.map_some, Option.map_some, data_decode htake,
          data_decode htake, Option.some_inj]
        exact ⟨fun h w' hw' _ _ => Option.some.inj hw' ▸ h, fun h => h w rfl rfl hfit⟩
      · rw [if_neg hfit, if_neg hfit]
        exact iff_of_true rfl fun w' hw' _ hfit' => absurd (Option.some.inj hw' ▸ hfit') hfit
    · refine iff_of_true ((SameShape.refl t).run_eq ?_) fun w' hw' hbuffer' _ =>
        absurd (Option.some.inj hw' ▸ hbuffer') hbuffer
      rw [source_of_takes htake, Option.bind_some, Option.bind_some,
        List.getElem?_set_ne (Ne.symm hbuffer)]

end ParserTree

end UtilityFramework
