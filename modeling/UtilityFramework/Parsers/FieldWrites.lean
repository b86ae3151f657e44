import UtilityFramework.Parsers.NestedParsers
import UtilityFramework.Parsers.TreeLayout

/-!
# The frame of a field write

A parser and its nested parsers read and write fields of records that lie in one another. Each
access goes to the offset of the parser, which is the sum of the offsets of the fields that lead
to it, plus the offset of the field; the tree of parsers is thereby a view of the nested layout of
the metadata (`ParserTree.ParserOf.at_of_descend`).

`FieldWrite.Frames` says what a call of `write` or `write_string` may do: change the bytes of its
field, which are then read back, and nothing that is read from another field at any level. It
holds in every tree of plain metadata, for the fields that neither contain the written one nor lie
in it (`FieldWrite.frames_of_plain`).
-/

namespace UtilityFramework

open Bytes BinaryMetadata

/-! ### Reads and writes of a parser -/

/-- The characters of a string: the bytes before the first zero. -/
def cString (bytes : List UInt8) : List UInt8 := bytes.takeWhile fun c => c ≠ 0

/-- How a call refers to a field. -/
inductive FieldRef
  | named (name : String)
  | indexed (index : ℕ)

/-- The field referred to: `query_node` and `query_node_by_index`. -/
def FieldRef.node (m : BinaryMetadata) : FieldRef → Option Node
  | named name => m.queryNode name
  | indexed index => m.queryNodeByIndex index

/-- The calls of `write` and `write_string`, each by name and by index. -/
inductive FieldWrite
  | named (name : String) (data : List UInt8)
  | indexed (index : ℕ) (data : List UInt8) (type : TypeEnum)
  | stringNamed (name : String) (text : List UInt8)
  | stringIndexed (index : ℕ) (text : List UInt8)

namespace FieldWrite

/-- The field that is written to. -/
def ref : FieldWrite → FieldRef
  | named name _ | stringNamed name _ => .named name
  | indexed index _ _ | stringIndexed index _ => .indexed index

/-- The bytes that are written: of a string also the zero at its end. -/
def bytes : FieldWrite → List UInt8
  | named _ data | indexed _ data _ => data
  | stringNamed _ text | stringIndexed _ text => cString text ++ [0]

/-- The call on the buffer of the parser; `none` if it returns false. -/
def store (p : Platform) (t : ParserTree) (buf : List UInt8) : FieldWrite → Option (List UInt8)
  | named name data => do
    let node ← t.metadata.queryNode name
    if node.type ≠ .bitmap ∧ data.length ≠ node.size then none
    else writeByNode p buf t.offset node data
  | indexed index data type => do
    let node ← t.metadata.queryNodeByIndex index
    if type ≠ node.type then none else writeByNode p buf t.offset node data
  | stringNamed name text => do
    let node ← t.metadata.queryNode name
    writeString p buf t.offset node (cString text)
  | stringIndexed index text => do
    let node ← t.metadata.queryNodeByIndex index
    writeString p buf t.offset node (cString text)

/-- The call, with what it returns and the buffers that it leaves. -/
def run (p : Platform) (t : ParserTree) (heap : List (List UInt8)) (w : FieldWrite) :
    Bool × List (List UInt8) :=
  match heap[t.buffer]?.bind fun buf => w.store p t buf with
  | none => (false, heap)
  | some buf => (true, heap.set t.buffer buf)

end FieldWrite

namespace ParserTree

/-- `read_simple` of `n` bytes. -/
def readSimple (p : Platform) (heap : List (List UInt8)) (t : ParserTree) (ref : FieldRef)
    (n : ℕ) : Option (List UInt8) := do
  let buf ← heap[t.buffer]?
  let node ← ref.node t.metadata
  readByNode p buf t.offset node n

/-- `read_string` into `length` bytes. -/
def readString (p : Platform) (heap : List (List UInt8)) (t : ParserTree) (ref : FieldRef)
    (length : ℕ) : Option (List UInt8) := do
  let buf ← heap[t.buffer]?
  let node ← ref.node t.metadata
  if length < node.size then none else readByNode p buf t.offset node node.size

/-- The parsers of a metadata for a record at `off`: the constructor makes one, and
`parse(buffer)` of it or of a nested parser replaces a buffer. -/
inductive ParserOf (m : BinaryMetadata) (off : ℕ) : ParserTree → Prop
  | made (buffer : ℕ) : ParserOf m off (create buffer m off)
  | parse (buffer : ℕ) (path : List String) {t : ParserTree} (h : ParserOf m off t) :
    ParserOf m off (t.setBuffer buffer path)

/-- The buffer of the parser holds its record. -/
def Holds (heap : List (List UInt8)) (t : ParserTree) : Prop :=
  ∃ buf, heap[t.buffer]? = some buf ∧ t.offset + t.metadata.size ≤ buf.length

end ParserTree

/-! ### The specification -/

/-- None of two fields, given by their paths, contains the other. -/
def Incomparable (path path' : List String) : Prop := ¬ path <+: path' ∧ ¬ path' <+: path

/-- A parser reads the same from a field in two states of the buffers. -/
def SameReads (p : Platform) (heap heap' : List (List UInt8)) (t : ParserTree)
    (ref : FieldRef) : Prop :=
  (∀ n, t.readSimple p heap' ref n = t.readSimple p heap ref n) ∧
    ∀ length, t.readString p heap' ref length = t.readString p heap ref length

/-- A write of `bytes` to the field `node`, through the parser `sub` at the end of `path`,
changes only bytes of the field, the field reads as what has been written, and the other fields
read as before. -/
structure OnlyWrites (p : Platform) (t : ParserTree) (path : List String) (sub : ParserTree)
    (heap heap' : List (List UInt8)) (bytes : List UInt8) (node : Node)
    (other : List String → List String → Prop) : Prop where
  sizes : heap'.map List.length = heap.map List.length
  window : ∀ b i, ¬ (b = sub.buffer ∧ sub.offset + node.offset ≤ i ∧
    i < sub.offset + node.offset + node.size) → (heap'.getD b [])[i]? = (heap.getD b [])[i]?
  simple : ∀ ref, ref.node sub.metadata = some node → ∀ n ≤ bytes.length,
    sub.readSimple p heap' ref n = some (bytes.take n)
  string : ∀ ref, ref.node sub.metadata = some node → ∀ length, node.size ≤ length →
    ∃ s, sub.readString p heap' ref length = some s ∧ bytes <+: s ∧
      (0 ∈ bytes → cString s = cString bytes)
  others : ∀ path' sub', t.descend path' = some sub' → ∀ ref node',
    ref.node sub'.metadata = some node' → other (path ++ [node.name]) (path' ++ [node'.name]) →
      SameReads p heap heap' sub' ref

/-- What a write through the nested parser `sub` at the end of `path` may do; `other` says which
fields, given by their paths, are other ones. -/
def FieldWrite.Frames (p : Platform) (t : ParserTree) (path : List String) (sub : ParserTree)
    (heap : List (List UInt8)) (other : List String → List String → Prop)
    (w : FieldWrite) : Prop :=
  ((w.run p sub heap).1 = false → (w.run p sub heap).2 = heap) ∧
    ((w.run p sub heap).1 = true → ∃ node, w.ref.node sub.metadata = some node ∧
      OnlyWrites p t path sub heap (w.run p sub heap).2 w.bytes node other)

/-! ### Parsers and the layout -/

theorem FieldRef.mem {m : BinaryMetadata} {ref : FieldRef} {node : Node}
    (h : ref.node m = some node) : node ∈ m.nodes := by
  cases ref with
  | named name => exact List.mem_of_find?_eq_some h
  | indexed index => exact List.mem_of_getElem? h

namespace ParserTree

variable {m : BinaryMetadata} {off : ℕ} {t sub : ParserTree} {path : List String} {node : Node}

theorem metadata_create (buffer off : ℕ) (m : BinaryMetadata) :
    (create buffer m off).metadata = m := by
  cases m
  rfl

theorem offset_create (buffer off : ℕ) (m : BinaryMetadata) :
    (create buffer m off).offset = off := by
  cases m
  rfl

/-- The fields of the nested parsers of a new parser are where the layout has them. -/
theorem at_of_descend_create {buffer : ℕ} (h : (create buffer m off).descend path = some sub)
    (hnode : node ∈ sub.metadata.nodes) :
    layout.At m off (path ++ [node.name]) node (sub.offset + node.offset) := by
  induction path generalizing m off with
  | nil =>
    obtain rfl := Option.some.inj h
    rw [metadata_create] at hnode
    rw [offset_create]
    exact .here hnode
  | cons name path ih =>
    obtain ⟨g, hg, n, rfl, hn, h⟩ := descend_cons_create h
    exact .nested hg hn (ih h)

/-- Replacing a buffer leaves the metadata and the offsets as they are. -/
theorem descend_of_setBuffer {buffer : ℕ} {path' : List String}
    (h : (t.setBuffer buffer path').descend path = some sub) :
    ∃ old, t.descend path = some old ∧ old.metadata = sub.metadata ∧ old.offset = sub.offset := by
  have hview := view_descend_setBuffer buffer path' path t
  rw [h, Option.map_some] at hview
  split at hview
  · obtain ⟨old, hold, heq⟩ := Option.map_eq_some_iff.mp hview.symm
    exact ⟨old, hold, congrArg Prod.fst heq, congrArg (fun v => v.2.2) heq⟩
  · obtain ⟨old, hold, heq⟩ := Option.map_eq_some_iff.mp hview.symm
    exact ⟨old, hold, congrArg Prod.fst heq, congrArg (fun v => v.2.2) heq⟩

/-- The parsers of a tree have the metadata and the offsets of those of a new parser. -/
theorem ParserOf.descend_create (ht : t.ParserOf m off) (h : t.descend path = some sub) :
    ∃ buffer sub', (create buffer m off).descend path = some sub' ∧
      sub'.metadata = sub.metadata ∧ sub'.offset = sub.offset := by
  induction ht generalizing sub with
  | made buffer => exact ⟨buffer, sub, h, rfl, rfl⟩
  | parse buffer path' ht ih =>
    obtain ⟨old, hold, hmeta, hoff⟩ := descend_of_setBuffer h
    obtain ⟨b, new, hnew, hmeta', hoff'⟩ := ih hold
    exact ⟨b, new, hnew, hmeta'.trans hmeta, hoff'.trans hoff⟩

/-- A nested parser of a new parser is again a new one. -/
theorem eq_create_of_descend {buffer : ℕ} (h : (create buffer m off).descend path = some sub) :
    sub = create buffer sub.metadata sub.offset := by
  induction path generalizing m off with
  | nil =>
    obtain rfl := Option.some.inj h
    rw [metadata_create, offset_create]
  | cons name path ih =>
    obtain ⟨g, -, n, -, -, h⟩ := descend_cons_create h
    exact ih h

/-- The nested parser of a field has its metadata and its place. -/
theorem ParserOf.of_entry {name : String} {internal : ParserTree} (ht : t.ParserOf m off)
    (h : t.descend path = some sub) (hentry : sub.entry name = some (some internal)) :
    ∃ g ∈ sub.metadata.nodes, g.name = name ∧ g.nested = some internal.metadata ∧
      internal.offset = sub.offset + g.offset := by
  have hinternal : t.descend (path ++ [name]) = some internal := by
    rw [descend_append, h, Option.bind_some, descend, hentry]
    rfl
  clear hentry
  induction ht generalizing sub internal with
  | made buffer =>
    rw [descend_append, h, Option.bind_some, eq_create_of_descend h] at hinternal
    obtain ⟨g, hg, n, hname, hn, hdeep⟩ := descend_cons_create hinternal
    obtain rfl := Option.some.inj hdeep
    rw [metadata_create, offset_create]
    exact ⟨g, hg, hname, hn, rfl⟩
  | parse buffer path' ht ih =>
    obtain ⟨old, hold, hmeta, hoff⟩ := descend_of_setBuffer h
    obtain ⟨oldInternal, holdInternal, hmeta', hoff'⟩ := descend_of_setBuffer hinternal
    rw [← hmeta, ← hoff, ← hmeta', ← hoff']
    exact ih hold holdInternal

/-- No parser of a tree has a null pointer for a nested parser if its names are distinct. -/
theorem ParserOf.entry_ne_null {name : String} (ht : t.ParserOf m off)
    (h : t.descend path = some sub) (hnames : (sub.metadata.nodes.map fun n => n.name).Nodup) :
    sub.entry name ≠ some none := by
  induction ht generalizing sub with
  | made buffer =>
    rw [eq_create_of_descend h]
    exact entry_create_ne_null hnames
  | parse buffer path' ht ih =>
    obtain ⟨old, hold, rfl | ⟨rest, rfl⟩⟩ := eq_or_setBuffer_of_descend h
    · exact ih hold hnames
    · refine entry_setBuffer_ne_null (ih hold ?_)
      rwa [metadata_setBuffer] at hnames

/-- **A tree of parsers is a view of the layout.** The fields of all its parsers are where the
layout has them. -/
theorem ParserOf.at_of_descend (ht : t.ParserOf m off) (h : t.descend path = some sub)
    (hnode : node ∈ sub.metadata.nodes) :
    layout.At m off (path ++ [node.name]) node (sub.offset + node.offset) := by
  obtain ⟨buffer, new, hnew, hmeta, hoff⟩ := ht.descend_create h
  rw [← hmeta] at hnode
  rw [← hoff]
  exact at_of_descend_create hnew hnode

/-- The metadata of the parsers of a tree are metadata of the tree. -/
theorem ParserOf.of_descend {P : BinaryMetadata → Prop} (ht : t.ParserOf m off)
    (h : t.descend path = some sub) (hm : layout.Throughout P m) :
    layout.Throughout P sub.metadata := by
  obtain ⟨buffer, new, hnew, hmeta, -⟩ := ht.descend_create h
  rw [← hmeta]
  clear ht h hmeta
  induction path generalizing m off with
  | nil =>
    obtain rfl := Option.some.inj hnew
    rwa [metadata_create]
  | cons name path ih =>
    obtain ⟨g, hg, n, rfl, hn, hnew⟩ := descend_cons_create hnew
    exact ih (hm.of_nested hg hn) hnew

/-- A parser that the constructor makes on a buffer that holds the whole record, and all its
nested parsers, have a buffer that holds their records. -/
theorem holds_of_descend_create {buffer : ℕ} {heap : List (List UInt8)} {buf : List UInt8}
    (h : (create buffer m off).descend path = some sub)
    (hsound : layout.Throughout layout.Sound m) (hbuf : heap[buffer]? = some buf)
    (hlen : off + m.size ≤ buf.length) : sub.Holds heap := by
  refine ⟨buf, by rwa [buffer_of_descend_create h], ?_⟩
  induction path generalizing m off with
  | nil =>
    obtain rfl := Option.some.inj h
    rwa [metadata_create, offset_create]
  | cons name path ih =>
    obtain ⟨g, hg, n, rfl, hn, h⟩ := descend_cons_create h
    have hin : g.offset + extent g ≤ m.size := hsound.here.inside g hg
    have hholds : n.size ≤ extent g := hsound.here.holds g hg n hn
    exact ih h (hsound.of_nested hg hn) (by omega)

end ParserTree

/-- The metadata of all parsers of a tree are built. -/
theorem BinaryMetadata.Built.of_descend {m : BinaryMetadata} {off : ℕ} {t sub : ParserTree}
    {path : List String} (hm : m.Built) (ht : t.ParserOf m off) (h : t.descend path = some sub) :
    sub.metadata.Built := by
  obtain ⟨buffer, new, hnew, hmeta, -⟩ := ht.descend_create h
  rw [← hmeta]
  clear ht h hmeta
  induction path generalizing m off with
  | nil =>
    obtain rfl := Option.some.inj hnew
    rwa [ParserTree.metadata_create]
  | cons name path ih =>
    obtain ⟨g, hg, n, -, hn, hnew⟩ := ParserTree.descend_cons_create hnew
    exact ih ((hm.nestsBuilt g hg).built n hn) hnew

/-! ### One write -/

variable {p : Platform} {t : ParserTree} {heap : List (List UInt8)} {buf buf' : List UInt8}
  {node : Node} {off n : ℕ}

/-- A read of a field in the byte order of the platform that is no bit field. -/
theorem readByNode_plain (htype : node.type ≠ .bitmap) (horder : node.bigEndian = false) :
    readByNode p buf off node n =
      if node.size < n then none else safeRead buf n (off + node.offset) := by
  rw [readByNode, if_neg htype, horder]
  split_ifs
  · rfl
  · exact Option.map_id' ..

theorem writeByNode_plain {data : List UInt8} (htype : node.type ≠ .bitmap)
    (h : writeByNode p buf off node data = some buf') :
    data.length ≤ node.size ∧ off + node.offset + data.length ≤ buf.length ∧
      buf' = blit buf (off + node.offset) data := by
  rw [writeByNode] at h
  split at h
  · cases h
  · rename_i hsize
    rw [safeWrite] at h
    split at h
    · rename_i hfit
      exact ⟨not_lt.mp hsize, by omega, (Option.some.inj h).symm⟩
    · cases h

namespace FieldWrite

variable {w : FieldWrite}

/-- What a write does that returns true: all four calls write at the beginning of a field, and
not beyond its end. -/
theorem store_eq_some (hbits : ∀ node ∈ t.metadata.nodes, node.type ≠ .bitmap)
    (h : w.store p t buf = some buf') :
    ∃ node, w.ref.node t.metadata = some node ∧ w.bytes.length ≤ node.size ∧
      t.offset + node.offset + w.bytes.length ≤ buf.length ∧
      buf' = blit buf (t.offset + node.offset) w.bytes := by
  have hstring : ∀ {node : Node} {text : List UInt8}, node.type ≠ .bitmap →
      writeString p buf t.offset node (cString text) = some buf' →
      (cString text ++ [0]).length ≤ node.size ∧
        t.offset + node.offset + (cString text ++ [0]).length ≤ buf.length ∧
        buf' = blit buf (t.offset + node.offset) (cString text ++ [0]) := by
    intro node text htype hwrite
    rw [writeString] at hwrite
    split at hwrite
    · cases hwrite
    · split at hwrite
      · cases hwrite
      · exact writeByNode_plain htype hwrite
  cases w with
  | named name data =>
    obtain ⟨node, hnode, hwrite⟩ := Option.bind_eq_some_iff.mp h
    have htype := hbits node (List.mem_of_find?_eq_some hnode)
    split at hwrite
    · cases hwrite
    · exact ⟨node, hnode, writeByNode_plain htype hwrite⟩
  | indexed index data type =>
    obtain ⟨node, hnode, hwrite⟩ := Option.bind_eq_some_iff.mp h
    have htype := hbits node (List.mem_of_getElem? hnode)
    split at hwrite
    · cases hwrite
    · exact ⟨node, hnode, writeByNode_plain htype hwrite⟩
  | stringNamed name text =>
    obtain ⟨node, hnode, hwrite⟩ := Option.bind_eq_some_iff.mp h
    exact ⟨node, hnode, hstring (hbits node (List.mem_of_find?_eq_some hnode)) hwrite⟩
  | stringIndexed index text =>
    obtain ⟨node, hnode, hwrite⟩ := Option.bind_eq_some_iff.mp h
    exact ⟨node, hnode, hstring (hbits node (List.mem_of_getElem? hnode)) hwrite⟩

theorem run_of_store_none (h : (heap[t.buffer]?.bind fun buf => w.store p t buf) = none) :
    w.run p t heap = (false, heap) := by
  rw [run, h]

theorem run_of_store_some (hbuf : heap[t.buffer]? = some buf)
    (h : w.store p t buf = some buf') : w.run p t heap = (true, heap.set t.buffer buf') := by
  rw [run, hbuf, Option.bind_some, h]

end FieldWrite

/-- The characters of what begins with a string. -/
theorem cString_of_prefix {bytes s : List UInt8} (h : bytes <+: s) (hzero : 0 ∈ bytes) :
    cString s = cString bytes := by
  obtain ⟨rest, rfl⟩ := h
  induction bytes with
  | nil => exact absurd hzero List.not_mem_nil
  | cons b bytes ih =>
    rw [List.cons_append, cString, cString, List.takeWhile_cons, List.takeWhile_cons]
    by_cases hb : b = 0
    · rw [hb]
      rfl
    · rw [if_pos (by simpa using hb), if_pos (by simpa using hb)]
      have hmem : 0 ∈ bytes := by
        rcases List.mem_cons.mp hzero with h | h
        · exact absurd h.symm hb
        · exact h
      exact congrArg (b :: ·) (ih hmem)

/-! ### What a write leaves -/

section Blit

variable {bytes : List UInt8} {pos : ℕ} {ref : FieldRef}

/-- A write to another window does not change what is read. -/
theorem readByNode_blit_of_apart (htype : node.type ≠ .bitmap) (horder : node.bigEndian = false)
    (hfit : pos + bytes.length ≤ buf.length)
    (hapart : pos + bytes.length ≤ off + node.offset ∨ off + node.offset + node.size ≤ pos) :
    readByNode p (blit buf pos bytes) off node n = readByNode p buf off node n := by
  rw [readByNode_plain htype horder, readByNode_plain htype horder]
  by_cases hn : node.size < n
  · rw [if_pos hn, if_pos hn]
  · rw [if_neg hn, if_neg hn, safeRead, safeRead, length_blit hfit,
      slice_blit_of_apart hfit (by omega)]

/-- A write at the beginning of a field is read back. -/
theorem readByNode_blit_self (htype : node.type ≠ .bitmap) (horder : node.bigEndian = false)
    (hfit : off + node.offset + bytes.length ≤ buf.length) (hlen : bytes.length ≤ node.size)
    (hn : n ≤ bytes.length) :
    readByNode p (blit buf (off + node.offset) bytes) off node n = some (bytes.take n) := by
  rw [readByNode_plain htype horder, if_neg (by omega), safeRead,
    if_pos (by rw [length_blit hfit]; omega), ← take_slice _ _ hn, slice_blit_self hfit]

/-- What is read of the whole field begins with what has been written. -/
theorem readByNode_blit_size (htype : node.type ≠ .bitmap) (horder : node.bigEndian = false)
    (hfit : off + node.offset + bytes.length ≤ buf.length) (hlen : bytes.length ≤ node.size)
    (hin : off + node.offset + node.size ≤ buf.length) :
    ∃ s, readByNode p (blit buf (off + node.offset) bytes) off node node.size = some s ∧
      bytes <+: s := by
  refine ⟨slice (blit buf (off + node.offset) bytes) (off + node.offset) node.size, ?_, ?_⟩
  · rw [readByNode_plain htype horder, if_neg (lt_irrefl _), safeRead,
      if_pos (by rw [length_blit hfit]; omega)]
  · have htake := take_slice (blit buf (off + node.offset) bytes) (off + node.offset) hlen
    rw [slice_blit_self hfit] at htake
    exact List.prefix_iff_eq_take.mpr htake.symm

/-- Reads from another window are the same after a write. -/
theorem sameReads_of_apart {b : ℕ} (hbuf : heap[b]? = some buf)
    (hnode : ref.node t.metadata = some node) (htype : node.type ≠ .bitmap)
    (horder : node.bigEndian = false) (hfit : pos + bytes.length ≤ buf.length)
    (hapart : pos + bytes.length ≤ t.offset + node.offset ∨
      t.offset + node.offset + node.size ≤ pos) :
    SameReads p heap (heap.set b (blit buf pos bytes)) t ref := by
  by_cases hb : b = t.buffer
  · subst hb
    have hnew : (heap.set t.buffer (blit buf pos bytes))[t.buffer]? =
        some (blit buf pos bytes) := by
      rw [List.getElem?_set_self (List.getElem?_eq_some_iff.mp hbuf).1]
    constructor
    · intro n
      simp only [ParserTree.readSimple, hnew, hbuf, hnode, Option.bind_eq_bind, Option.bind_some]
      exact readByNode_blit_of_apart htype horder hfit hapart
    · intro length
      simp only [ParserTree.readString, hnew, hbuf, hnode, Option.bind_eq_bind, Option.bind_some]
      rw [readByNode_blit_of_apart htype horder hfit hapart]
  · have hother : (heap.set b (blit buf pos bytes))[t.buffer]? = heap[t.buffer]? :=
      List.getElem?_set_ne hb
    constructor
    · intro n
      rw [ParserTree.readSimple, ParserTree.readSimple, hother]
    · intro length
      rw [ParserTree.readString, ParserTree.readString, hother]

/-- A buffer that is overwritten with bytes inside it keeps its length. -/
theorem map_length_set_blit {b : ℕ} (hbuf : heap[b]? = some buf)
    (hfit : pos + bytes.length ≤ buf.length) :
    (heap.set b (blit buf pos bytes)).map List.length = heap.map List.length := by
  obtain ⟨hb, rfl⟩ := List.getElem?_eq_some_iff.mp hbuf
  rw [List.map_set, length_blit hfit]
  refine List.ext_getElem? fun i => ?_
  rw [List.getElem?_set, List.length_map, List.getElem?_map]
  split_ifs with h
  · rw [← h, List.getElem?_eq_getElem hb]
    rfl
  · rfl

/-- Outside the window the buffers stay. -/
theorem getD_set_blit {b b' i : ℕ} (hbuf : heap[b]? = some buf)
    (hfit : pos + bytes.length ≤ buf.length)
    (hout : ¬ (b' = b ∧ pos ≤ i ∧ i < pos + bytes.length)) :
    ((heap.set b (blit buf pos bytes)).getD b' [])[i]? = (heap.getD b' [])[i]? := by
  obtain ⟨hb, rfl⟩ := List.getElem?_eq_some_iff.mp hbuf
  rw [List.getD_eq_getElem?_getD, List.getD_eq_getElem?_getD, List.getElem?_set]
  split_ifs with h
  · subst h
    rw [Option.getD_some, List.getElem?_eq_getElem hb, Option.getD_some, getElem?_blit hfit,
      if_neg fun hin => hout ⟨rfl, hin⟩]
  · rfl

end Blit

namespace FieldWrite

/-- **Frame of field writes.** Through a parser of a tree of plain metadata, at any depth, whose
buffer holds its record, a write that returns true changes only bytes of its field, which reads
as what has been written, and nothing that any parser of the tree reads from a field that neither
contains it nor lies in it; a write that returns false changes nothing. -/
theorem frames_of_plain (p : Platform) {m : BinaryMetadata} (hm : m.Built)
    (hplain : layout.Throughout Plain m) {t : ParserTree} (ht : t.ParserOf m off)
    {path : List String} {sub : ParserTree} (hsub : t.descend path = some sub)
    {heap : List (List UInt8)} (hholds : sub.Holds heap) (w : FieldWrite) :
    w.Frames p t path sub heap Incomparable := by
  have hsound := hm.sound hplain
  have hextent := hm.size_le_extent hplain
  have hrecord := (ht.of_descend hsub hplain).here
  obtain ⟨buf, hbuf, hlen⟩ := hholds
  cases hstore : w.store p sub buf with
  | none =>
    have hrun : w.run p sub heap = (false, heap) :=
      run_of_store_none (by rw [hbuf, Option.bind_some, hstore])
    rw [Frames, hrun]
    exact ⟨fun _ => rfl, nofun⟩
  | some buf' =>
    obtain ⟨node, hnode, hsize, hfit, rfl⟩ := store_eq_some hrecord.noBits hstore
    rw [Frames, run_of_store_some hbuf hstore]
    refine ⟨nofun, fun _ => ⟨node, hnode, ?_⟩⟩
    have hmem := FieldRef.mem hnode
    have hle := (ht.of_descend hsub hextent).here node hmem
    have htype := hrecord.noBits node hmem
    have horder := hrecord.order node hmem
    have hself : (heap.set sub.buffer (blit buf (sub.offset + node.offset) w.bytes))[sub.buffer]? =
        some (blit buf (sub.offset + node.offset) w.bytes) := by
      rw [List.getElem?_set_self (List.getElem?_eq_some_iff.mp hbuf).1]
    refine ⟨map_length_set_blit hbuf hfit, fun b i hout => ?_, fun ref href n hn => ?_,
      fun ref href length hlength => ?_, fun path' sub' hsub' ref node' href hother => ?_⟩
    · exact getD_set_blit hbuf hfit fun hin => hout ⟨hin.1, hin.2.1, by omega⟩
    · simp only [ParserTree.readSimple, hself, href, Option.bind_eq_bind, Option.bind_some]
      exact readByNode_blit_self htype horder hfit hsize hn
    · -- `read_string` reads the whole field, which the buffer holds with the record
      have hinside : node.offset + extent node ≤ sub.metadata.size :=
        (ht.of_descend hsub hsound).here.inside node hmem
      have hin : sub.offset + node.offset + node.size ≤ buf.length := by omega
      obtain ⟨s, hs, hfront⟩ := readByNode_blit_size (p := p) htype horder hfit hsize hin
      refine ⟨s, ?_, hfront, cString_of_prefix hfront⟩
      simp only [ParserTree.readString, hself, href, Option.bind_eq_bind, Option.bind_some]
      rw [if_neg (not_lt.mpr hlength), hs]
    · have hmem' := FieldRef.mem href
      have hrecord' := (ht.of_descend hsub' hplain).here
      have hle' := (ht.of_descend hsub' hextent).here node' hmem'
      refine sameReads_of_apart hbuf href (hrecord'.noBits node' hmem')
        (hrecord'.order node' hmem') hfit ?_
      -- the layout keeps the whole fields apart, and both accesses stay inside of them
      have hapart : sub.offset + node.offset + extent node ≤ sub'.offset + node'.offset ∨
          sub'.offset + node'.offset + extent node' ≤ sub.offset + node.offset :=
        (ht.at_of_descend hsub hmem).apart (ht.at_of_descend hsub' hmem') hsound hother.1 hother.2
      omega

/-- A record with a number, a string in a nested record, and an array of bytes. -/
def exampleCalls : List BuilderCall :=
  [.put "a" 2 .uint16 .reset, .nest "c" ((empty false).putString "s" 4 ""),
    .array "v" 1 .uint8 2 .reset none]

/-- Writing the string of the nested record. -/
theorem frames_of_plain_string :
    ∃ m t sub, Transition.run (fun m call => BuilderCall.step (fun _ => none) m call) (empty false)
        exampleCalls = some m ∧ t = ParserTree.create 0 m 0 ∧ t.descend ["c"] = some sub ∧
      (FieldWrite.stringNamed "s" [104, 105]).Frames ⟨fun _ _ => 0⟩ t ["c"] sub
        [[1, 2, 3, 4, 5, 6, 7, 8]] Incomparable := by
  have hinner : ((empty false).putString "s" 4 "").Built :=
    built_of_calls [.putString "s" 4 ""] (built_of_arguments_isEmpty (by decide)) rfl
  have hargs : ∀ call ∈ exampleCalls, ∀ n ∈ call.arguments, n.Built := by
    intro call hcall n hn
    rcases hcall with _ | ⟨_, _ | ⟨_, _ | ⟨_, hnil⟩⟩⟩
    · cases hn
    · rwa [List.mem_singleton.mp hn]
    · cases hn
    · cases hnil
  refine ⟨_, _, _, rfl, rfl, rfl, frames_of_plain ⟨fun _ _ => 0⟩
    (built_of_calls exampleCalls hargs rfl) ?_ (.made 0) rfl ⟨_, rfl, by decide⟩ _⟩
  refine ⟨⟨⟨by decide, by decide, by decide⟩, by decide, by decide, by decide⟩,
    fun node hnode n hn => ?_⟩
  rcases hnode with _ | ⟨_, _ | ⟨_, _ | ⟨_, hnil⟩⟩⟩
  · cases hn
  · obtain rfl := Option.some.inj hn
    exact .of_flat ⟨⟨by decide, by decide, by decide⟩, by decide, by decide, by decide⟩ (by decide)
  · obtain rfl := Option.some.inj hn
    exact .of_flat ⟨⟨by decide, by decide, by decide⟩, by decide, by decide, by decide⟩ (by decide)
  · cases hnil

/-- In a tree of regular metadata that the calls make, a write through the nested parser at the
end of `path` of the parser `t` goes beyond its frame. -/
def GoesBeyond (calls : List BuilderCall) (t : BinaryMetadata → ParserTree) (path : List String)
    (heap : List (List UInt8)) (other : List String → List String → Prop)
    (w : FieldWrite) : Prop :=
  ∃ m sub, Transition.run (fun m call => BuilderCall.step (fun _ => none) m call) (empty false)
      calls = some m ∧ m.Built ∧ layout.Throughout Regular m ∧ (t m).ParserOf m 0 ∧
    (t m).descend path = some sub ∧ ¬ w.Frames ⟨fun _ _ => 0⟩ (t m) path sub heap other

theorem goesBeyond_of_calls {calls : List BuilderCall} {t : BinaryMetadata → ParserTree}
    {path : List String} {other : List String → List String → Prop} {w : FieldWrite}
    {m : BinaryMetadata} {sub : ParserTree}
    (hargs : ∀ call ∈ calls, ∀ n ∈ call.arguments, n.Built)
    (hrun : Transition.run (fun m call => BuilderCall.step (fun _ => none) m call) (empty false)
      calls = some m)
    (hregular : layout.Throughout Regular m) (ht : (t m).ParserOf m 0)
    (hsub : (t m).descend path = some sub)
    (hnot : ¬ w.Frames ⟨fun _ _ => 0⟩ (t m) path sub heap other) :
    GoesBeyond calls t path heap other w :=
  ⟨m, sub, hrun, built_of_calls calls hargs hrun, hregular, ht, hsub, hnot⟩

/-- A write to a field changes the record that contains it. -/
theorem goesBeyond_containing :
    GoesBeyond [.nest "c" ((empty false).put "x" 1 .uint8 .reset)] (fun m => .create 0 m 0) ["c"]
      [[0]] (· ≠ ·) (.named "x" [1]) := by
  have hinner : ((empty false).put "x" 1 .uint8 .reset).Built :=
    built_of_calls [.put "x" 1 .uint8 .reset] (built_of_arguments_isEmpty (by decide)) rfl
  refine goesBeyond_of_calls (fun call hcall n hn => ?_) rfl ?_ (.made 0) rfl fun h => ?_
  · obtain rfl := List.mem_singleton.mp hcall
    rwa [List.mem_singleton.mp hn]
  · refine ⟨⟨by decide, by decide, by decide⟩, fun node hnode n hn => ?_⟩
    obtain rfl := List.mem_singleton.mp hnode
    obtain rfl := Option.some.inj hn
    exact .of_flat ⟨by decide, by decide, by decide⟩ (by decide)
  · obtain ⟨node, hnode, honly⟩ := h.2 (by decide)
    obtain rfl := Option.some.inj hnode
    have hsame := (honly.others [] _ rfl (.named "c") _ rfl (by decide)).1 1
    revert hsame
    decide

/-- Sizes that wrap around put a field at the beginning of the record again. -/
theorem goesBeyond_wrapping :
    GoesBeyond [.put "a" 8 .uint64 .reset, .put "b" (2 ^ 64 - 8) .buffer .reset,
      .put "c" 8 .uint64 .reset] (fun m => .create 0 m 0) [] [[0, 0, 0, 0, 0, 0, 0, 0]]
      Incomparable (.named "c" [1, 0, 0, 0, 0, 0, 0, 0]) := by
  refine goesBeyond_of_calls (built_of_arguments_isEmpty (by decide)) rfl
    (.of_flat ⟨by decide, by decide, by decide⟩ (by decide)) (.made 0) rfl fun h => ?_
  obtain ⟨node, hnode, honly⟩ := h.2 (by decide)
  obtain rfl := Option.some.inj hnode
  have hsame := (honly.others [] _ rfl (.named "a") _ rfl ⟨by decide, by decide⟩).1 1
  revert hsame
  decide

/-- An array without elements takes no bytes, but a write to it does. -/
theorem goesBeyond_no_elements :
    GoesBeyond [.array "v" 1 .uint8 0 .reset none, .put "b" 1 .uint8 .reset]
      (fun m => .create 0 m 0) [] [[0]] Incomparable (.indexed 0 [1] .array) := by
  refine goesBeyond_of_calls (built_of_arguments_isEmpty (by decide)) rfl ?_ (.made 0) rfl
    fun h => ?_
  · refine ⟨⟨by decide, by decide, by decide⟩, fun node hnode n hn => ?_⟩
    rcases hnode with _ | ⟨_, _ | ⟨_, hnil⟩⟩
    · obtain rfl := Option.some.inj hn
      exact .of_flat ⟨by decide, by decide, by decide⟩ (by decide)
    · cases hn
    · cases hnil
  · obtain ⟨node, hnode, honly⟩ := h.2 (by decide)
    obtain rfl := Option.some.inj hnode
    have hsame := (honly.others [] _ rfl (.named "b") _ rfl ⟨by decide, by decide⟩).1 1
    revert hsame
    decide

/-- The elements of an array are declared smaller than their metadata. -/
theorem goesBeyond_small_elements :
    GoesBeyond [.array "v" 1 .complex 1 .reset (some ((empty false).put "x" 2 .uint16 .reset)),
      .put "b" 1 .uint8 .reset] (fun m => .create 0 m 0) ["v", "v[1]"] [[0, 0]] Incomparable
      (.named "x" [1, 2]) := by
  have hinner : ((empty false).put "x" 2 .uint16 .reset).Built :=
    built_of_calls [.put "x" 2 .uint16 .reset] (built_of_arguments_isEmpty (by decide)) rfl
  refine goesBeyond_of_calls ?_ rfl ?_ (.made 0) rfl fun h => ?_
  · intro call hcall n hn
    rcases hcall with _ | ⟨_, _ | ⟨_, hnil⟩⟩
    · rwa [List.mem_singleton.mp hn]
    · cases hn
    · cases hnil
  · refine ⟨⟨by decide, by decide, by decide⟩, fun node hnode n hn => ?_⟩
    rcases hnode with _ | ⟨_, _ | ⟨_, hnil⟩⟩
    · obtain rfl := Option.some.inj hn
      refine ⟨⟨by decide, by decide, by decide⟩, fun node hnode n hn => ?_⟩
      obtain rfl := List.mem_singleton.mp hnode
      obtain rfl := Option.some.inj hn
      exact .of_flat ⟨by decide, by decide, by decide⟩ (by decide)
    · cases hn
    · cases hnil
  · obtain ⟨node, hnode, honly⟩ := h.2 (by decide)
    obtain rfl := Option.some.inj hnode
    have hsame := (honly.others [] _ rfl (.named "b") _ rfl ⟨by decide, by decide⟩).1 1
    revert hsame
    decide

/-- After `parse(buffer)` of a nested parser its string does not end in the new buffer. -/
theorem goesBeyond_parsed :
    GoesBeyond [.put "p" 2 .uint16 .reset, .nest "c" ((empty false).putString "s" 4 "")]
      (fun m => (ParserTree.create 0 m 0).setBuffer 1 ["c"]) ["c"]
      [[0, 0, 0, 0, 0, 0], [0, 0, 0, 0]] Incomparable (.stringNamed "s" []) := by
  have hinner : ((empty false).putString "s" 4 "").Built :=
    built_of_calls [.putString "s" 4 ""] (built_of_arguments_isEmpty (by decide)) rfl
  refine goesBeyond_of_calls ?_ rfl ?_ (.parse 1 ["c"] (.made 0)) rfl fun h => ?_
  · intro call hcall n hn
    rcases hcall with _ | ⟨_, _ | ⟨_, hnil⟩⟩
    · cases hn
    · rwa [List.mem_singleton.mp hn]
    · cases hnil
  · refine ⟨⟨by decide, by decide, by decide⟩, fun node hnode n hn => ?_⟩
    rcases hnode with _ | ⟨_, _ | ⟨_, hnil⟩⟩
    · cases hn
    · obtain rfl := Option.some.inj hn
      exact .of_flat ⟨by decide, by decide, by decide⟩ (by decide)
    · cases hnil
  · obtain ⟨node, hnode, honly⟩ := h.2 (by decide)
    obtain rfl := Option.some.inj hnode
    obtain ⟨s, hread, -⟩ := honly.string (.named "s") rfl 4 (by decide)
    have hsome := congrArg Option.isSome hread
    rw [Option.isSome_some] at hsome
    revert hsome
    decide

/-- **The frame can fail** in the ways that the lemmas above say. -/
theorem frames_fails :
    GoesBeyond [.nest "c" ((empty false).put "x" 1 .uint8 .reset)] (fun m => .create 0 m 0) ["c"]
        [[0]] (· ≠ ·) (.named "x" [1]) ∧
      GoesBeyond [.put "a" 8 .uint64 .reset, .put "b" (2 ^ 64 - 8) .buffer .reset,
        .put "c" 8 .uint64 .reset] (fun m => .create 0 m 0) [] [[0, 0, 0, 0, 0, 0, 0, 0]]
        Incomparable (.named "c" [1, 0, 0, 0, 0, 0, 0, 0]) ∧
      GoesBeyond [.array "v" 1 .uint8 0 .reset none, .put "b" 1 .uint8 .reset]
        (fun m => .create 0 m 0) [] [[0]] Incomparable (.indexed 0 [1] .array) ∧
      GoesBeyond [.array "v" 1 .complex 1 .reset (some ((empty false).put "x" 2 .uint16 .reset)),
        .put "b" 1 .uint8 .reset] (fun m => .create 0 m 0) ["v", "v[1]"] [[0, 0]] Incomparable
        (.named "x" [1, 2]) ∧
      GoesBeyond [.put "p" 2 .uint16 .reset, .nest "c" ((empty false).putString "s" 4 "")]
        (fun m => (ParserTree.create 0 m 0).setBuffer 1 ["c"]) ["c"]
        [[0, 0, 0, 0, 0, 0], [0, 0, 0, 0]] Incomparable (.stringNamed "s" []) :=
  ⟨goesBeyond_containing, goesBeyond_wrapping, goesBeyond_no_elements, goesBeyond_small_elements,
    goesBeyond_parsed⟩

end FieldWrite

end UtilityFramework
