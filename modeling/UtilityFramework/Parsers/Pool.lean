import UtilityFramework.Lib.Transition
import UtilityFramework.Parsers.BinaryParser

/-!
# The pool of parsers of a metadata

`create_parser` hands out parsers from a pool (`ref_count_object_pool`): the first one that
nobody but the pool has a reference to, which it then nullifies, or a new one. A parser has
one nested parser for each nested or array field, made when it is made; all of them share its
buffer, but each has a reference count of its own, and `parse(buffer)` replaces the buffer of
one parser only.

Clients hold handles: references to parsers, to nested parsers, and to buffers of their own.
The question is what a client can see of what another one does.
-/

namespace UtilityFramework

open Bytes Transition

/-! ### Parsers with their nested parsers -/

/-- `binary_parser_impl`: `m_metadata`, the number of `m_buffer`, `m_offset` and `m_parsers`,
where the null pointer is left for a name that two fields have. -/
inductive ParserTree
  | mk (metadata : BinaryMetadata) (buffer offset : ℕ)
    (parsers : List (String × Option ParserTree))

namespace ParserTree

/-- `m_metadata`. -/
def metadata : ParserTree → BinaryMetadata
  | mk m _ _ _ => m

/-- The number of `m_buffer`. -/
def buffer : ParserTree → ℕ
  | mk _ b _ _ => b

/-- `m_offset`. -/
def offset : ParserTree → ℕ
  | mk _ _ o _ => o

/-- `m_parsers`. -/
def parsers : ParserTree → List (String × Option ParserTree)
  | mk _ _ _ l => l

mutual

/-- The constructor of a parser over a buffer, with `parse_nested`. -/
def create (buffer : ℕ) : BinaryMetadata → ℕ → ParserTree
  | .mk bigEndian name nodes size, off =>
    .mk (.mk bigEndian name nodes size) buffer off (parseNested buffer nodes off [])
termination_by structural m => m

/-- The loop of `parse_nested`: it stops at a field whose nested parser cannot be built. -/
def parseNested (buffer : ℕ) :
    List Node → ℕ → List (String × Option ParserTree) → List (String × Option ParserTree)
  | [], _, parsers => parsers
  | node :: rest, off, parsers =>
    match buildNestedParser buffer node off parsers with
    | none => parsers
    | some parsers' => parseNested buffer rest off parsers'
termination_by structural nodes => nodes

/-- `build_nested_parser`, for the fields that have one. -/
def buildNestedParser (buffer : ℕ) :
    Node → ℕ → List (String × Option ParserTree) → Option (List (String × Option ParserTree))
  | ⟨name, offset, _, type, _, _, _, nested, _, _, _⟩, off, parsers =>
    if type ≠ .complex ∧ type ≠ .array then some parsers
    else if name ∈ parsers.map Prod.fst then
      some (parsers.map fun entry => if entry.1 = name then (name, none) else entry)
    else
      (createNested buffer nested (off + offset)).map fun parser =>
        parsers ++ [(name, some parser)]
termination_by structural node => node

/-- The parser of a nested metadata. -/
def createNested (buffer : ℕ) : Option BinaryMetadata → ℕ → Option ParserTree
  | none, _ => none
  | some m, off => some (create buffer m off)
termination_by structural nested => nested

end

/-- The entry of `m_parsers` for a name. -/
def entry (t : ParserTree) (name : String) : Option (Option ParserTree) :=
  (t.parsers.find? fun e => e.1 = name).map Prod.snd

/-- The nested parser at the end of a path of names. -/
def descend : List String → ParserTree → Option ParserTree
  | [], t => some t
  | name :: path, t => ((t.entry name).bind id).bind (descend path)

/-- The tree after the buffer of the parser at the end of a path has been replaced. -/
def setBuffer (b : ℕ) : List String → ParserTree → ParserTree
  | [], mk m _ o l => mk m b o l
  | name :: path, mk m b' o l =>
    mk m b' o (l.map fun e => if e.1 = name then (e.1, e.2.map (setBuffer b path)) else e)

/-- The parser or one of its nested parsers has the buffer. -/
def Uses (t : ParserTree) (b : ℕ) : Prop :=
  ∃ path sub, t.descend path = some sub ∧ sub.buffer = b

end ParserTree

/-! ### Calls -/

/-- The calls that write into the buffer of a parser: `write` by index or by name,
`write_string` and `write_at`. -/
inductive ParserWrite
  | field (index : ℕ) (data : List UInt8) (type : TypeEnum)
  | fieldNamed (name : String) (data : List UInt8)
  | string (index : ℕ) (text : List UInt8)
  | element (index arrayIndex : ℕ) (data : List UInt8)

/-- The content of the buffer of a parser after a write on it; a write that fails changes
nothing. `none` if a null pointer is used. -/
def ParserWrite.apply (p : Platform) (t : ParserTree) (buf : List UInt8) :
    ParserWrite → Option (List UInt8)
  | field index data type =>
    match t.metadata.queryNodeByIndex index with
    | none => some buf
    | some node =>
      if type ≠ node.type then some buf
      else some ((writeByNode p buf t.offset node data).getD buf)
  | fieldNamed name data =>
    match t.metadata.queryNode name with
    | none => some buf
    | some node =>
      if node.type ≠ .bitmap ∧ data.length ≠ node.size then some buf
      else some ((writeByNode p buf t.offset node data).getD buf)
  | string index text =>
    match t.metadata.queryNodeByIndex index with
    | none => some buf
    | some node =>
      some ((writeString p buf t.offset node (text.takeWhile fun c => c ≠ 0)).getD buf)
  | element index arrayIndex data =>
    match t.metadata.queryNodeByIndex index with
    | none => some buf
    | some node =>
      -- The position comes from the nested parser, the buffer does not.
      match t.entry node.name with
      | none => some buf
      | some none => none
      | some (some internal) =>
        internal.metadata.nodes.head?.map fun child =>
          if child.type = .complex then buf
          else (safeWrite buf data (internal.offset + arrayIndex * child.size)).getD buf

/-- What a client can hold: a parser, given by the number of a tree and the path to it, or a
buffer of its own. -/
inductive Handle
  | parser (tree : ℕ) (path : List String)
  | buffer (id : ℕ)
  deriving DecidableEq

/-- The calls of clients. A client makes a call on a parser it holds. -/
inductive PoolCall
  | createParser (client : ℕ)
  | parse (client tree : ℕ) (path : List String) (data : List UInt8)
  | parseBuffer (client tree : ℕ) (path : List String) (buffer : ℕ)
  | write (client tree : ℕ) (path : List String) (call : ParserWrite)
  | readComplex (client tree : ℕ) (path : List String) (name : String)
  | readComplexAt (client tree : ℕ) (path : List String) (index arrayIndex : ℕ)
  | newBuffer (client : ℕ) (content : List UInt8)
  | release (client : ℕ) (handle : Handle)

/-- The client that makes the call. -/
def PoolCall.client : PoolCall → ℕ
  | createParser c | parse c _ _ _ | parseBuffer c _ _ _ | write c _ _ _ | readComplex c _ _ _
  | readComplexAt c _ _ _ _ | newBuffer c _ | release c _ => c

/-! ### The state -/

/-- The buffers by their number, the parsers that were ever made, the slots of the pool
(`m_items`), and the handles with the clients that hold them. -/
structure PoolState where
  heap : List (List UInt8)
  trees : List ParserTree
  slots : List (Option ℕ)
  handles : List (ℕ × Handle)

namespace PoolState

/-- A new metadata: the pool has two empty slots. -/
def init : PoolState := ⟨[], [], [none, none], []⟩

/-- The parser a handle refers to. -/
def object (s : PoolState) : Handle → Option ParserTree
  | .parser tree path => s.trees[tree]?.bind fun t => t.descend path
  | .buffer _ => none

/-- An empty slot, or a parser whose reference count is one: only the pool refers to it. -/
def usable (s : PoolState) : Option ℕ → Bool
  | none => true
  | some tree => s.handles.all fun h => h.2 ≠ .parser tree []

/-- The slots after `get_item` has doubled them if none is usable. -/
def grownSlots (s : PoolState) : List (Option ℕ) :=
  if s.slots.any s.usable then s.slots else s.slots ++ List.replicate s.slots.length none

/-- `get_item`: the first usable slot and what is in it. -/
def getItem (s : PoolState) : Option (ℕ × Option ℕ) := do
  let k ← s.grownSlots.findIdx? s.usable
  let item ← s.grownSlots[k]?
  return (k, item)

/-- `create_parser`, with the number of the parser it returns. The parser is nullified. -/
def createParser (m : BinaryMetadata) (s : PoolState) (client : ℕ) : Option (PoolState × ℕ) := do
  match ← s.getItem with
  | (k, none) =>
    let tree := s.trees.length
    return (⟨s.heap ++ [zeroes m.size], s.trees ++ [.create s.heap.length m 0],
      s.grownSlots.set k (some tree), (client, .parser tree []) :: s.handles⟩, tree)
  | (_, some tree) =>
    let t ← s.trees[tree]?
    let buf ← s.heap[t.buffer]?
    return (⟨s.heap.set t.buffer (zeroes buf.length), s.trees, s.grownSlots,
      (client, .parser tree []) :: s.handles⟩, tree)

/-- `parse(data)`: the content of the buffer of the parser after it. -/
def parsed (t : ParserTree) (data buf : List UInt8) : List UInt8 :=
  if t.metadata.size ≠ data.length ∨ data.length ≠ buf.length then buf
  else (safeWrite buf data t.offset).getD buf

/-- `read_complex_at`: the metadata and the offset of the parser it makes; the inner `none`
if it returns false. -/
def elementAt (t : ParserTree) (index arrayIndex : ℕ) : Option (Option (BinaryMetadata × ℕ)) :=
  match t.metadata.queryNodeByIndex index with
  | none => some none
  | some node =>
    if node.count ≤ arrayIndex then some none
    else
      node.child.bind fun child => child.nested.map fun m =>
        some (m, t.offset + node.offset + child.size * arrayIndex)

/-- One call; `none` if the client does not hold what the call is on, or if the call is
undefined. -/
def step (p : Platform) (m : BinaryMetadata) (s : PoolState) : PoolCall → Option PoolState
  | .createParser client => (s.createParser m client).map Prod.fst
  | .parse client tree path data =>
    if (client, .parser tree path) ∈ s.handles then do
      let t ← s.object (.parser tree path)
      let buf ← s.heap[t.buffer]?
      return { s with heap := s.heap.set t.buffer (parsed t data buf) }
    else none
  | .parseBuffer client tree path b =>
    if (client, .parser tree path) ∈ s.handles ∧ (client, .buffer b) ∈ s.handles then do
      let t ← s.object (.parser tree path)
      let content ← s.heap[b]?
      if t.metadata.size ≠ content.length then return s
      else return { s with trees := s.trees.modify tree (ParserTree.setBuffer b path) }
    else none
  | .write client tree path call =>
    if (client, .parser tree path) ∈ s.handles then do
      let t ← s.object (.parser tree path)
      let buf ← s.heap[t.buffer]?
      let buf' ← call.apply p t buf
      return { s with heap := s.heap.set t.buffer buf' }
    else none
  | .readComplex client tree path name =>
    if (client, .parser tree path) ∈ s.handles then do
      let t ← s.object (.parser tree path)
      match t.entry name with
      | none => return s
      | some none => none
      | some (some _) =>
        return { s with handles := (client, .parser tree (path ++ [name])) :: s.handles }
    else none
  | .readComplexAt client tree path index arrayIndex =>
    if (client, .parser tree path) ∈ s.handles then do
      let t ← s.object (.parser tree path)
      match ← elementAt t index arrayIndex with
      | none => return s
      | some (n, off) =>
        return { s with
          trees := s.trees ++ [.create t.buffer n off]
          handles := (client, .parser s.trees.length []) :: s.handles }
    else none
  | .newBuffer client content =>
    some { s with
      heap := s.heap ++ [content]
      handles := (client, .buffer s.heap.length) :: s.handles }
  | .release client handle =>
    if (client, handle) ∈ s.handles then
      some { s with handles := s.handles.erase (client, handle) }
    else none

/-! ### What clients see -/

/-- The bytes seen through a handle: of a parser its record, and the record of the nested
parser at the end of a path. -/
def bytes (s : PoolState) (ext : List String) : Handle → Option (List UInt8)
  | .parser tree path => do
    let t ← s.object (.parser tree (path ++ ext))
    let buf ← s.heap[t.buffer]?
    return slice buf t.offset t.metadata.size
  | .buffer b => s.heap[b]?

/-- The buffers that can be reached through a handle. -/
def Reaches (s : PoolState) (b : ℕ) : Handle → Prop
  | .parser tree path => ∃ t, s.object (.parser tree path) = some t ∧ t.Uses b
  | .buffer b' => b' = b

/-- Every field of a parser and of its nested parsers reads as zeroes; the elements of an
array are read through the nested parser of the array. -/
def ReadsZero (p : Platform) (s : PoolState) (tree : ℕ) : Prop :=
  ∀ path t buf, s.object (.parser tree path) = some t → s.heap[t.buffer]? = some buf →
    (∀ node ∈ t.metadata.nodes, ∀ n data,
        readByNode p buf t.offset node n = some data → ∀ byte ∈ data, byte = 0) ∧
      ∀ child ∈ t.metadata.nodes, ∀ j data,
        (safeRead buf child.size (t.offset + j * child.size)).map (convertOrder child.bigEndian) =
          some data → ∀ byte ∈ data, byte = 0

/-- A call is isolated: what another client holds shows the same bytes after it, and a parser
handed out reads as zeroes. -/
structure Isolated (p : Platform) (m : BinaryMetadata) (s : PoolState) (call : PoolCall) :
    Prop where
  others : ∀ s', s.step p m call = some s' → ∀ client handle, (client, handle) ∈ s.handles →
    client ≠ call.client → ∀ ext, s'.bytes ext handle = s.bytes ext handle
  zero : ∀ client s' tree, call = .createParser client →
    s.createParser m client = some (s', tree) → s'.ReadsZero p tree

/-- A parser is handed out again only if its nested parsers use its buffer, and nothing that
another client holds leads to that buffer. -/
def ReusesUnshared (s : PoolState) (call : PoolCall) : Prop :=
  ∀ client k tree t, call = .createParser client → s.getItem = some (k, some tree) →
    s.trees[tree]? = some t →
    (∀ path sub, t.descend path = some sub → sub.buffer = t.buffer) ∧
      ∀ other handle, (other, handle) ∈ s.handles → other ≠ client → ¬s.Reaches t.buffer handle

end PoolState

end UtilityFramework
