import UtilityFramework.Parsers.FieldWrites

/-!
# Elements of arrays

`read_at` and `write_at` of a parser: the nested parser of the array gives the position, an index
of the element times its size behind the offset of the array, and the buffer that is read, while
the buffer of the parser itself is written. Neither compares the index with the number of elements
or the number of bytes with the size of an element; `write_at` does not return the result of the
buffer either. What is checked is the end of the access against the end of the buffer, by sums and
products of `size_t`.

`ArrayAccess.writesRight_iff` and `ArrayAccess.readsRight_iff` say when that is the same as
a check of the bounds of the array.
-/

namespace UtilityFramework

open Bytes BinaryMetadata

/-! ### The calls -/

/-- `safe_buffer::safe_read` with the sum that it computes; the inner `none` is the result false,
and `none` an access behind the end of the buffer when the sum wraps around. -/
def sizeRead (buf : List UInt8) (n off : ℕ) : Option (Option (List UInt8)) :=
  if buf.length < Size.add n off then some none
  else if n + off ≤ buf.length then some (some (slice buf off n))
  else none

/-- `safe_buffer::safe_write`. -/
def sizeWrite (buf data : List UInt8) (off : ℕ) : Option (Option (List UInt8)) :=
  if buf.length < Size.add data.length off then some none
  else if data.length + off ≤ buf.length then some (some (blit buf off data))
  else none

namespace ParserTree

/-- The position of an element, given the nested parser of the array and the node of its
elements. -/
def elementOffset (internal : ParserTree) (child : Node) (arrayIndex : ℕ) : ℕ :=
  Size.add internal.offset (Size.mul arrayIndex child.size)

/-- `read_at` by name, of `n` bytes. -/
def readAtNamed (heap : List (List UInt8)) (t : ParserTree) (name : String) (n arrayIndex : ℕ) :
    Option (Option (List UInt8)) :=
  match t.entry name with
  | none => some none
  | some none => none
  | some (some internal) => do
    let child ← internal.metadata.queryNodeByIndex 0
    if child.type = .complex then return none
    else
      let buf ← heap[internal.buffer]?
      let read ← sizeRead buf n (internal.elementOffset child arrayIndex)
      return read.map (convertOrder child.bigEndian)

/-- `read_at`, by index through the name of the node. The inner `none` is the result false, and
`none` the use of a null pointer or an access behind the end of a buffer. -/
def readAt (heap : List (List UInt8)) (t : ParserTree) (ref : FieldRef) (n arrayIndex : ℕ) :
    Option (Option (List UInt8)) :=
  match ref with
  | .named name => t.readAtNamed heap name n arrayIndex
  | .indexed index =>
    match t.metadata.queryNodeByIndex index with
    | none => some none
    | some node => t.readAtNamed heap node.name n arrayIndex

/-- `write_at` by name: its result, and the buffers then. -/
def writeAtNamed (heap : List (List UInt8)) (t : ParserTree) (name : String) (data : List UInt8)
    (arrayIndex : ℕ) : Option (Bool × List (List UInt8)) :=
  match t.entry name with
  | none => some (false, heap)
  | some none => none
  | some (some internal) => do
    let child ← internal.metadata.queryNodeByIndex 0
    if child.type = .complex then return (false, heap)
    else
      let buf ← heap[t.buffer]?
      match ← sizeWrite buf data (internal.elementOffset child arrayIndex) with
      | none => return (true, heap)
      | some buf' => return (true, heap.set t.buffer buf')

/-- `write_at`. -/
def writeAt (heap : List (List UInt8)) (t : ParserTree) (ref : FieldRef) (data : List UInt8)
    (arrayIndex : ℕ) : Option (Bool × List (List UInt8)) :=
  match ref with
  | .named name => t.writeAtNamed heap name data arrayIndex
  | .indexed index =>
    match t.metadata.queryNodeByIndex index with
    | none => some (false, heap)
    | some node => t.writeAtNamed heap node.name data arrayIndex

end ParserTree

/-! ### The specification -/

/-- An array field of a parser, with the node of its elements, which are simple or enumeration
values. -/
structure ArrayAccess (t : ParserTree) (ref : FieldRef) (node child : Node) : Prop where
  refers : ref.node t.metadata = some node
  array : node.type = .array
  describes : node.child = some child
  element : child.type.isSimpleType = true ∨ child.type = .enum

/-- The access stays in one element of the array. -/
def InElement (node child : Node) (arrayIndex n : ℕ) : Prop :=
  arrayIndex < node.count ∧ n ≤ child.size

instance (node child : Node) (arrayIndex n : ℕ) : Decidable (InElement node child arrayIndex n) :=
  inferInstanceAs (Decidable (_ ∧ _))

/-- `write_at` succeeds precisely if the access stays in one element, of which it then changes
bytes only, and changes nothing if it fails. -/
def WritesRight (t : ParserTree) (heap : List (List UInt8)) (ref : FieldRef) (node child : Node)
    (data : List UInt8) (arrayIndex : ℕ) : Prop :=
  ∃ result heap', t.writeAt heap ref data arrayIndex = some (result, heap') ∧
    (result = true ↔ InElement node child arrayIndex data.length) ∧
    (result = true → ∀ b i, ¬ (b = t.buffer ∧
        t.offset + node.offset + arrayIndex * child.size ≤ i ∧
        i < t.offset + node.offset + arrayIndex * child.size + child.size) →
      (heap'.getD b [])[i]? = (heap.getD b [])[i]?) ∧
    (result = false → heap' = heap)

/-- `read_at` succeeds precisely if the access stays in one element. -/
def ReadsRight (t : ParserTree) (heap : List (List UInt8)) (ref : FieldRef) (node child : Node)
    (n arrayIndex : ℕ) : Prop :=
  ∃ read, t.readAt heap ref n arrayIndex = some read ∧
    (read.isSome = true ↔ InElement node child arrayIndex n)

/-- Writes are right in the elements of the array; if the parser has no nested parser for it, they
are right elsewhere. -/
def WritesExact (t : ParserTree) (node child : Node) (arrayIndex n : ℕ) : Prop :=
  match t.entry node.name with
  | some (some _) => InElement node child arrayIndex n
  | some none => False
  | none => ¬ InElement node child arrayIndex n

/-- Reads are right in the elements of the array, if the buffer of its nested parser holds them,
and elsewhere if the access, computed in `size_t`, leaves that buffer. -/
def ReadsExact (t : ParserTree) (heap : List (List UInt8)) (node child : Node)
    (arrayIndex n : ℕ) : Prop :=
  match t.entry node.name with
  | some (some internal) =>
    let size := (heap.getD internal.buffer []).length
    if InElement node child arrayIndex n then
      t.offset + node.offset + arrayIndex * child.size + n ≤ size
    else size < Size.add n (Size.add (t.offset + node.offset) (Size.mul arrayIndex child.size))
  | some none => False
  | none => ¬ InElement node child arrayIndex n

/-! ### Positions -/

variable {m : BinaryMetadata} {off : ℕ} {top t internal : ParserTree} {path : List String}
  {heap : List (List UInt8)} {ref : FieldRef} {node child : Node} {data buf : List UInt8}
  {arrayIndex n : ℕ}

namespace ArrayAccess

/-- Both ways to refer to the array end in its name. -/
theorem readAt_eq (h : ArrayAccess t ref node child) :
    t.readAt heap ref n arrayIndex = t.readAtNamed heap node.name n arrayIndex := by
  cases ref with
  | named name =>
    have hname : node.name = name := by simpa using List.find?_some h.refers
    rw [ParserTree.readAt, hname]
  | indexed index =>
    have hnode : t.metadata.queryNodeByIndex index = some node := h.refers
    rw [ParserTree.readAt, hnode]

theorem writeAt_eq (h : ArrayAccess t ref node child) :
    t.writeAt heap ref data arrayIndex = t.writeAtNamed heap node.name data arrayIndex := by
  cases ref with
  | named name =>
    have hname : node.name = name := by simpa using List.find?_some h.refers
    rw [ParserTree.writeAt, hname]
  | indexed index =>
    have hnode : t.metadata.queryNodeByIndex index = some node := h.refers
    rw [ParserTree.writeAt, hnode]

theorem child_ne_complex (h : ArrayAccess t ref node child) : child.type ≠ .complex := by
  intro hcomplex
  rcases h.element with hsimple | henum
  · rw [hcomplex] at hsimple
    cases hsimple
  · rw [hcomplex] at henum
    cases henum

/-- The nested parser of the array lies where the array does, and its first node is the one of
the elements. -/
theorem internal_eq (h : ArrayAccess t ref node child) (htop : top.ParserOf m off)
    (ht : top.descend path = some t) (hnames : (t.metadata.nodes.map fun n => n.name).Nodup)
    (hentry : t.entry node.name = some (some internal)) :
    internal.offset = t.offset + node.offset ∧
      internal.metadata.queryNodeByIndex 0 = some child := by
  obtain ⟨g, hg, hname, hnested, hoff⟩ := htop.of_entry ht hentry
  obtain rfl : g = node := List.inj_on_of_nodup_map hnames hg (FieldRef.mem h.refers) hname
  refine ⟨hoff, ?_⟩
  have hchild := h.describes
  rw [Node.child, hnested, Option.bind_some, List.head?_eq_getElem?] at hchild
  exact hchild

end ArrayAccess

/-- The element of an array whose bytes have addresses. -/
theorem elementOffset_eq (hoff : internal.offset = off)
    (hfits : off + node.count * child.size < Size.modulus)
    (hin : InElement node child arrayIndex n) :
    internal.elementOffset child arrayIndex = off + arrayIndex * child.size := by
  have hmul : arrayIndex * child.size ≤ node.count * child.size :=
    Nat.mul_le_mul_right _ hin.1.le
  rw [ParserTree.elementOffset, hoff, Size.mul_of_lt (by omega), Size.add_of_lt (by omega)]

/-- The bytes of an access in an element are in the array. -/
theorem InElement.le (h : InElement node child arrayIndex n) :
    arrayIndex * child.size + n ≤ node.count * child.size := by
  have hnext : (arrayIndex + 1) * child.size ≤ node.count * child.size :=
    Nat.mul_le_mul_right _ h.1
  have hn := h.2
  rw [Nat.succ_mul] at hnext
  omega

/-! ### Writes -/

namespace ArrayAccess

/-- **When writes to elements are right.** -/
theorem writesRight_iff (h : ArrayAccess t ref node child) (htop : top.ParserOf m off)
    (ht : top.descend path = some t) (hnames : (t.metadata.nodes.map fun n => n.name).Nodup)
    (hbuf : heap[t.buffer]? = some buf)
    (hfits : t.offset + node.offset + node.count * child.size < Size.modulus)
    (data : List UInt8) (arrayIndex : ℕ) :
    WritesRight t heap ref node child data arrayIndex ↔
      WritesExact t node child arrayIndex data.length := by
  rw [WritesRight, WritesExact, h.writeAt_eq, ParserTree.writeAtNamed.eq_def]
  cases hentry : t.entry node.name with
  | none =>
    constructor
    · rintro ⟨result, heap', heq, hresult, -, -⟩ hin
      obtain ⟨rfl, rfl⟩ := Prod.mk.inj (Option.some.inj heq)
      exact Bool.false_ne_true (hresult.mpr hin)
    · intro hout
      exact ⟨false, heap, rfl, iff_of_false Bool.false_ne_true hout,
        fun hresult => absurd hresult Bool.false_ne_true, fun _ => rfl⟩
  | some entry =>
    cases entry with
    | none =>
      constructor
      · rintro ⟨result, heap', heq, -⟩
        cases heq
      · exact False.elim
    | some internal =>
      obtain ⟨hoff, hchild⟩ := h.internal_eq htop ht hnames hentry
      simp only [hchild, Option.bind_eq_bind, Option.bind_some, if_neg h.child_ne_complex, hbuf]
      constructor
      · rintro ⟨result, heap', heq, hresult, -, -⟩
        obtain ⟨written, -, heq⟩ := Option.bind_eq_some_iff.mp heq
        cases written with
        | none =>
          obtain ⟨rfl, -⟩ := Prod.mk.inj (Option.some.inj heq)
          exact hresult.mp rfl
        | some buf' =>
          obtain ⟨rfl, -⟩ := Prod.mk.inj (Option.some.inj heq)
          exact hresult.mp rfl
      · intro hin
        have hpos := elementOffset_eq hoff hfits hin
        have hle := hin.le
        have hn := hin.2
        rw [hpos, sizeWrite, Size.add_of_lt (by omega)]
        by_cases hfit :
            data.length + (t.offset + node.offset + arrayIndex * child.size) ≤ buf.length
        · rw [if_neg (not_lt.mpr hfit), if_pos hfit]
          refine ⟨true, _, rfl, iff_of_true rfl hin, fun _ b i hout => ?_, fun hfalse => ?_⟩
          · exact getD_set_blit hbuf (by omega) fun hwin => hout ⟨hwin.1, hwin.2.1, by omega⟩
          · cases hfalse
        · rw [if_pos (not_le.mp hfit)]
          exact ⟨true, heap, rfl, iff_of_true rfl hin, fun _ _ _ _ => rfl, fun _ => rfl⟩

/-! ### Reads -/

/-- **When reads of elements are right.** -/
theorem readsRight_iff (h : ArrayAccess t ref node child) (htop : top.ParserOf m off)
    (ht : top.descend path = some t) (hnames : (t.metadata.nodes.map fun n => n.name).Nodup)
    (hheap : ∀ internal, t.entry node.name = some (some internal) →
      ∃ buf, heap[internal.buffer]? = some buf ∧ buf.length < Size.modulus)
    (hfits : t.offset + node.offset + node.count * child.size < Size.modulus)
    (n arrayIndex : ℕ) :
    ReadsRight t heap ref node child n arrayIndex ↔
      ReadsExact t heap node child arrayIndex n := by
  rw [ReadsRight, ReadsExact, h.readAt_eq, ParserTree.readAtNamed.eq_def]
  cases hentry : t.entry node.name with
  | none =>
    constructor
    · rintro ⟨read, heq, hread⟩ hin
      obtain rfl := Option.some.inj heq
      exact Bool.false_ne_true (hread.mpr hin)
    · intro hout
      exact ⟨none, rfl, iff_of_false Bool.false_ne_true hout⟩
  | some entry =>
    cases entry with
    | none =>
      constructor
      · rintro ⟨read, heq, -⟩
        cases heq
      · exact False.elim
    | some internal =>
      obtain ⟨hoff, hchild⟩ := h.internal_eq htop ht hnames hentry
      obtain ⟨buf, hbuf, hlen⟩ := hheap internal hentry
      have hsize : (heap.getD internal.buffer []).length = buf.length := by
        rw [List.getD_eq_getElem?_getD, hbuf, Option.getD_some]
      simp only [hchild, Option.bind_eq_bind, Option.bind_some, if_neg h.child_ne_complex, hbuf,
        hsize]
      by_cases hin : InElement node child arrayIndex n
      · -- inside of the array the sums do not wrap around
        have hpos := elementOffset_eq hoff hfits hin
        have hle := hin.le
        rw [if_pos hin, hpos, sizeRead, Size.add_of_lt (by omega)]
        by_cases hfit : n + (t.offset + node.offset + arrayIndex * child.size) ≤ buf.length
        · rw [if_neg (not_lt.mpr hfit), if_pos hfit]
          exact iff_of_true ⟨_, rfl, iff_of_true rfl hin⟩ (by omega)
        · rw [if_pos (not_le.mp hfit)]
          refine iff_of_false ?_ (by omega)
          rintro ⟨read, heq, hread⟩
          obtain rfl := Option.some.inj heq
          exact Bool.false_ne_true (hread.mpr hin)
      · rw [if_neg hin, ParserTree.elementOffset, hoff, sizeRead]
        by_cases hleaves : buf.length <
            Size.add n (Size.add (t.offset + node.offset) (Size.mul arrayIndex child.size))
        · rw [if_pos hleaves]
          exact iff_of_true ⟨none, rfl, iff_of_false Bool.false_ne_true hin⟩ hleaves
        · rw [if_neg hleaves]
          refine iff_of_false ?_ hleaves
          rintro ⟨read, heq, hread⟩
          split at heq
          · obtain rfl := Option.some.inj heq
            exact hin (hread.mp rfl)
          · cases heq

/-- **When elements are accessed right**, by `write_at` and by `read_at`. -/
theorem accesses_right_iff (h : ArrayAccess t ref node child) (htop : top.ParserOf m off)
    (ht : top.descend path = some t) (hnames : (t.metadata.nodes.map fun n => n.name).Nodup)
    (hbuf : heap[t.buffer]? = some buf) (hlen : ∀ buf ∈ heap, buf.length < Size.modulus)
    (hheap : ∀ internal, t.entry node.name = some (some internal) → internal.buffer < heap.length)
    (hfits : t.offset + node.offset + node.count * child.size < Size.modulus)
    (data : List UInt8) (n arrayIndex : ℕ) :
    (WritesRight t heap ref node child data arrayIndex ↔
        WritesExact t node child arrayIndex data.length) ∧
      (ReadsRight t heap ref node child n arrayIndex ↔
        ReadsExact t heap node child arrayIndex n) := by
  refine ⟨h.writesRight_iff htop ht hnames hbuf hfits data arrayIndex,
    h.readsRight_iff htop ht hnames (fun internal hentry => ?_) hfits n arrayIndex⟩
  have hlt := hheap internal hentry
  exact ⟨heap[internal.buffer], List.getElem?_eq_getElem hlt, hlen _ (List.getElem_mem hlt)⟩

end ArrayAccess

/-! ### Arrays of plain metadata -/

namespace BinaryMetadata

/-- The elements of an array are of the size of its node, unless they are complex. -/
theorem Built.size_child (h : m.Built) :
    ∀ node ∈ m.nodes, node.type = .array → ∀ child, node.child = some child →
      child.type ≠ .complex → child.size = node.size := by
  refine h.induction_append (P := fun nodes _ => ∀ node ∈ nodes, node.type = .array →
    ∀ child, node.child = some child → child.type ≠ .complex → child.size = node.size) ?_ ?_
  · exact fun node hnode => absurd hnode List.not_mem_nil
  · intro m new increase _ ih happ node hnode htype child hchild hcomplex
    rcases List.mem_append.mp hnode with hold | hnew
    · exact ih node hold htype child hchild hcomplex
    · rw [List.mem_singleton.mp hnew] at htype hchild ⊢
      cases happ with
      | plain | string | bits => cases hchild
      | nest => cases htype
      | array | arrayString | arrayEnum =>
        rw [← Option.some.inj hchild]
        rfl
      | arrayComplex =>
        rw [← Option.some.inj hchild] at hcomplex
        exact absurd rfl hcomplex

end BinaryMetadata

/-- In a tree of plain metadata the arrays of a parser whose buffer holds its record are in the
buffer. -/
theorem ArrayAccess.le_of_holds (h : ArrayAccess t ref node child) (hm : m.Built)
    (hplain : layout.Throughout Plain m) (htop : top.ParserOf m off)
    (ht : top.descend path = some t) (hholds : t.Holds heap) :
    ∃ buf, heap[t.buffer]? = some buf ∧
      t.offset + node.offset + node.count * child.size ≤ buf.length := by
  obtain ⟨buf, hbuf, hlen⟩ := hholds
  have hmem := FieldRef.mem h.refers
  have hinside : node.offset + extent node ≤ t.metadata.size :=
    (htop.of_descend ht (hm.sound hplain)).here.inside node hmem
  have hsize := (hm.of_descend htop ht).size_child node hmem h.array child h.describes
    h.child_ne_complex
  rw [extent, ← hsize, Nat.mul_comm] at hinside
  exact ⟨buf, hbuf, by omega⟩

/-! ### An array before a field -/

/-- An array of two bytes, and a byte behind it. -/
def arrayBeforeByte : BinaryMetadata :=
  ((empty false).appendArray { (empty false).newNode "v" 1 .array with options := .reset } 1 2
    ((empty false).put "v[2]" 1 .uint8 .reset)).put "b" 1 .uint8 .reset

/-- The second element. -/
theorem ArrayAccess.accesses_right_iff_second :
    ∃ node child,
      (WritesRight (.create 0 arrayBeforeByte 0) [[1, 2, 3]] (.named "v") node child [9] 1 ↔
        WritesExact (.create 0 arrayBeforeByte 0) node child 1 1) ∧
      (ReadsRight (.create 0 arrayBeforeByte 0) [[1, 2, 3]] (.named "v") node child 1 1 ↔
        ReadsExact (.create 0 arrayBeforeByte 0) [[1, 2, 3]] node child 1 1) :=
  ⟨_, _, ArrayAccess.accesses_right_iff ⟨rfl, rfl, rfl, Or.inl rfl⟩ (.made 0)
    (rfl : ParserTree.descend [] _ = _) (by decide) rfl (by decide)
    (fun internal hentry => by
      obtain rfl := Option.some.inj (Option.some.inj hentry)
      decide) (by decide) [9] 1 1⟩

/-- The byte behind the array is written and read as a third element. -/
theorem ArrayAccess.not_accesses_right :
    ∃ node child, ArrayAccess (.create 0 arrayBeforeByte 0) (.named "v") node child ∧
      ¬ WritesRight (.create 0 arrayBeforeByte 0) [[1, 2, 3]] (.named "v") node child [9] 2 ∧
      ¬ ReadsRight (.create 0 arrayBeforeByte 0) [[1, 2, 3]] (.named "v") node child 1 2 := by
  refine ⟨_, _, ⟨rfl, rfl, rfl, Or.inl rfl⟩, fun h => ?_, fun h => ?_⟩
  · obtain ⟨result, heap', heq, hresult, -⟩ := h
    obtain ⟨rfl, rfl⟩ := Prod.mk.inj (Option.some.inj heq)
    exact absurd (hresult.mp rfl) (by decide)
  · obtain ⟨read, heq, hread⟩ := h
    obtain rfl := Option.some.inj heq
    exact absurd (hread.mp rfl) (by decide)

end UtilityFramework
