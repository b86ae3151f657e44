import UtilityFramework.Database.MemoryRow
import UtilityFramework.Lib.Decimal
import UtilityFramework.Parsers.FieldOrder
import UtilityFramework.Parsers.FieldWrites
import UtilityFramework.Utils.SplitString

/-!
# The numbers rules are about

An operand of a rule is a function of a row or of a field of a `COMPLEX` row
(`rules_concrete_generic::query_function`). Its name says which one: `"Get(table/row.field)"`, or
the name of a row of one of the tables of the rules. The function is made when the name is first
queried, and reads the row whenever it is executed: the bytes go to the front of a block of eight
zero bytes, from which an integer of four bytes is taken, whatever the type of the row or the
field.

The number is thereby the stored one precisely if it is one of four signed bytes and, where it
is stored in less, not negative (`RuleState.number_eq_iff`).
-/

namespace UtilityFramework

open Bytes Transition

/-! ### Names of operands -/

namespace RuleNames

/-- The loop of `split_string`: the number of characters of the delimiter that are still to be
skipped, and the token read so far. -/
def splitFrom (delim : List Char) : ℕ → List Char → List Char → List (List Char)
  | _, token, [] => [token]
  | skip + 1, token, _ :: rest => splitFrom delim skip token rest
  | 0, token, c :: rest =>
    if delim <+: c :: rest then token :: splitFrom delim (delim.length - 1) [] rest
    else splitFrom delim 0 (token ++ [c]) rest

/-- `split_string`: the tokens that are not empty. -/
def splitString (text delim : String) : List String :=
  ((splitFrom delim.toList 0 [] text.toList).filter fun token => !token.isEmpty).map String.ofList

section Splitting

open Splitting SplitString

variable {delim s token : List Char} {pieces : List (List Char)}

theorem splitFrom_skip (w rest : List Char) :
    splitFrom delim w.length token (w ++ rest) = splitFrom delim 0 token rest := by
  induction w with
  | nil => rfl
  | cons c w ih => exact ih

/-- Without the delimiter, all that is read is one token. -/
theorem splitFrom_of_absent (h : ¬delim <:+: s) :
    splitFrom delim 0 token s = [token ++ s] := by
  induction s generalizing token with
  | nil => rw [splitFrom, List.append_nil]
  | cons c s ih =>
    rw [splitFrom, if_neg fun hprefix => h hprefix.isInfix,
      ih fun hword => h (hword.trans (List.suffix_cons c s).isInfix), List.append_assoc]
    rfl

/-- The token that the first delimiter ends. -/
theorem splitFrom_append (hdelim : delim ≠ []) {p rest : List Char}
    (hfirst : ∀ i < p.length, ¬delim <+: (p ++ delim ++ rest).drop i) :
    splitFrom delim 0 token (p ++ delim ++ rest) = (token ++ p) :: splitFrom delim 0 [] rest := by
  induction p generalizing token with
  | nil =>
    obtain ⟨c, w, rfl⟩ := List.exists_cons_of_ne_nil hdelim
    have hprefix : c :: w <+: c :: (w ++ rest) := ⟨rest, rfl⟩
    rw [List.nil_append, List.append_nil, List.cons_append, splitFrom, if_pos hprefix,
      List.length_cons, Nat.add_sub_cancel, splitFrom_skip]
  | cons c p ih =>
    have hhead : ¬delim <+: c :: (p ++ delim ++ rest) := hfirst 0 (Nat.zero_lt_succ p.length)
    rw [List.cons_append, List.cons_append, splitFrom, if_neg hhead, ih fun i hi => hfirst (i + 1) (Nat.succ_lt_succ hi),
      List.append_assoc]
    rfl

theorem splitFrom_eq (hdelim : delim ≠ []) (h : Pieces delim s pieces) :
    splitFrom delim 0 [] s = pieces := by
  induction h with
  | last hword => rw [splitFrom_of_absent hword, List.nil_append]
  | cons hfirst _ ih => rw [splitFrom_append hdelim hfirst, ih, List.nil_append]

/-- The loop of `split_string` over positions returns the same tokens. -/
theorem splitString_eq (text : String) {delim : String} (hdelim : delim.toList ≠ []) {fuel : ℕ}
    (hfuel : text.toList.length < fuel) :
    SplitString.splitString fuel text.toList delim.toList =
      some ((splitString text delim).map String.toList) := by
  obtain ⟨pieces, hpieces⟩ := exists_pieces hdelim text.toList
  rw [splitString, splitFrom_eq hdelim hpieces, map_toList_map_ofList]
  exact splitLoop_append hdelim hpieces [] hfuel

end Splitting

/-- The prefixes that the names of rows get for the functions of a rule. -/
def prefixes : List (String × String) :=
  [("GetInput", "i"), ("GetOutput", "o"), ("GetRes", "r"), ("GetEnabled", "en")]

/-- What stands between the first character and the last closing bracket: `substr` up to
`rfind`. -/
def betweenBrackets (text : List Char) : List Char :=
  if ')' ∈ text then text.tail.take (text.length - 2 - text.reverse.findIdx (· = ')'))
  else text.tail

/-- `get_row_name_by_prefix`; `none` for a text without a first token, which is accessed. -/
def getRowNameByPrefix (funcString : String) : Option String :=
  match prefixes.find? fun e => e.1.toList <:+: funcString.toList with
  | some (delim, start) => (splitString funcString delim).head?.map fun token => start ++ token
  | none =>
    if "Get".toList <:+: funcString.toList then
      (splitString funcString "Get").head?.map fun token =>
        if token.toList.head? = some '(' then String.ofList (betweenBrackets token.toList)
        else "r" ++ token
    else some ""

end RuleNames

/-- The rows, given by their numbers, that the tables of the rules and of the dataset have under
their names. -/
structure RuleTables where
  input : String → Option ℕ
  output : String → Option ℕ
  existence : String → Option ℕ
  enable : String → Option ℕ
  dataset : String → Option (String → Option ℕ)

/-- `query_row_by_string` with `data_path_vector`: the row and the path to a field in it; `none`
for a path without its first name, which is accessed. -/
def RuleTables.queryRowByString (tables : RuleTables) (rowString : String) :
    Option (Option (ℕ × List String)) :=
  match tables.input rowString <|> tables.output rowString <|> tables.existence rowString <|>
    tables.enable rowString with
  | some id => some (some (id, []))
  | none =>
    match Decimal.split '/' rowString with
    | table :: rest :: _ =>
      match Decimal.split '.' rest with
      | [] => none
      | row :: path =>
        some (((tables.dataset table).bind fun rows => rows row).map fun id => (id, path))
    | _ => some none

/-- The row, and the path to a field in it, that an operand is about. -/
def RuleTables.operandPlace (tables : RuleTables) (funcString : String) :
    Option (Option (ℕ × List String)) :=
  (RuleNames.getRowNameByPrefix funcString).bind tables.queryRowByString

/-! ### Operands -/

/-- `row_info` and the parser metadata of a row. -/
structure RuleRowInfo where
  type : TypeEnum
  typeName : String
  metadata : Option BinaryMetadata

/-- The functions of `query_function`: of a row, and of a field in it with the offset at which
the field lies. -/
inductive RuleOperand
  | row (id : ℕ)
  | field (id : ℕ) (node : Node) (nodeOffset : ℕ)

/-- The value of an operand: the bits of a floating-point number, or an integer, which is
converted to `double`. -/
inductive RuleNumber
  | float (bits : ℕ)
  | double (bits : ℕ)
  | int (n : ℤ)
  deriving DecidableEq

/-- `get_node_and_offset_by_path`, where the inner `none` is the result false; `none` when a
null pointer is used, for a nested parser or for a node. -/
def getNodeAndOffsetByPath : ParserTree → List String → Option (Option (Node × ℕ))
  | _, [] => some none
  | t, [name] => (t.metadata.queryNode name).map fun node => some (node, t.offset + node.offset)
  | t, name :: next :: path =>
    match t.entry name with
    | none => some none
    | some none => none
    | some (some parser) => getNodeAndOffsetByPath parser (next :: path)

/-- The number that the functions take from their eight bytes. -/
def ruleNumber (type : TypeEnum) (data : List UInt8) : RuleNumber :=
  match type with
  | .float => .float (ofLE (data.take 4))
  | .double => .double (ofLE data)
  | _ => .int (toSigned 4 (ofLE data))

section Operands

variable (p : Platform) (store : String → Option EnumData) (tables : RuleTables)
  (infos : List RuleRowInfo)

/-- The function of a field: only simple types and enumerations that the store has. -/
def fieldOperand (id : ℕ) (node : Node) (nodeOffset : ℕ) : Option (Option RuleOperand) :=
  if node.type.isSimpleType then some (some (.field id node nodeOffset))
  else if node.type = .enum then
    node.enum.map fun enum =>
      if (store enum.name).isSome then some (.field id node nodeOffset) else none
  else some none

/-- The function that `query_function` makes for a name; the inner `none` is the result
false. -/
def makeOperand (funcString : String) : Option (Option RuleOperand) := do
  match ← tables.operandPlace funcString with
  | none => return none
  | some (id, path) =>
    let info ← infos[id]?
    if info.type = .enum ∧ store info.typeName = none then return none
    else if info.type.isSimpleType = true ∨ info.type = .enum then return some (.row id)
    else if info.type = .complex then
      match info.metadata with
      | none => return none
      | some m =>
        match ← getNodeAndOffsetByPath (.create 0 m 0) path with
        | none => return none
        | some (node, nodeOffset) => fieldOperand store id node nodeOffset
    else return none

/-- The rows, and `m_funcMap`. -/
structure RuleState where
  rows : List MemoryRow
  funcs : List (String × RuleOperand)

/-- A name is queried, or an operation is made on a row. -/
inductive RuleCall
  | queryFunction (funcString : String)
  | row (id : ℕ) (op : RowOp)

namespace RuleState

/-- `query_function`, with the function it returns. -/
def queryFunction (s : RuleState) (funcString : String) :
    Option (RuleState × Option RuleOperand) :=
  match s.funcs.find? fun entry => entry.1 = funcString with
  | some entry => some (s, some entry.2)
  | none =>
    (makeOperand store tables infos funcString).map fun
      | none => (s, none)
      | some operand => ({ s with funcs := s.funcs ++ [(funcString, operand)] }, some operand)

/-- One call. -/
def step (fresh : ℕ → ℕ → UInt8) (s : RuleState) : RuleCall → Option RuleState
  | .queryFunction funcString => (s.queryFunction store tables infos funcString).map Prod.fst
  | .row id op =>
    some { s with rows := s.rows.modify id fun row => (RowState.step fresh ⟨row, []⟩ op).row }

/-- The execution of the function of a row or a field; `none` when it throws or writes past its
eight bytes. -/
def execute (s : RuleState) : RuleOperand → Option RuleNumber
  | .row id => do
    let info ← infos[id]?
    let row ← s.rows[id]?
    if 8 < row.dataSize then none
    else
      return ruleNumber info.type
        ((row.readBytes (some (zeroes 8)) row.dataSize).getD (zeroes 8))
  | .field id node nodeOffset => do
    let row ← s.rows[id]?
    let buffer ← row.readBytes (some (zeroes row.dataSize)) row.dataSize
    if 8 < node.size ∨ buffer.length < nodeOffset then none
    else
      let read := (node.read p (buffer.drop nodeOffset)).getD []
      return ruleNumber node.type (blit (zeroes 8) 0 read)

/-! ### What is stored -/

/-- The bytes of a row: those written, and zeroes behind them. -/
def content (row : MemoryRow) : List UInt8 :=
  (row.stored ++ List.replicate row.dataSize 0).take row.dataSize

/-- The bytes stored in a row, or in the field of a `COMPLEX` row at the end of a path as the
parser of the row reads it, with their type. -/
def storedBytes (s : RuleState) (id : ℕ) (path : List String) :
    Option (TypeEnum × List UInt8) := do
  let info ← infos[id]?
  let row ← s.rows[id]?
  if info.type = .complex then
    let m ← info.metadata
    let name ← path.getLast?
    let parser ← (ParserTree.create 0 m 0).descend path.dropLast
    let node ← parser.metadata.queryNode name
    let data ← readByNode p (content row) parser.offset node node.size
    return (node.type, data)
  else if path = [] then return (info.type, content row)
  else none

end RuleState

end Operands

/-- Whether values of a type are signed, for the integers, booleans and enumerations. -/
def TypeEnum.storedSigned : TypeEnum → Option Bool
  | .bool => some false
  | .enum => some true
  | type => type.integerFormat.map Prod.snd

/-- The number that is stored in bytes. -/
def storedInteger (signed : Bool) (bytes : List UInt8) : ℤ :=
  toInteger bytes.length signed (ofLE bytes)

/-- A number, stored in `size` bytes, that the functions read right: one of four signed bytes
which is not negative if it is stored in less. -/
def ReadsAsInt32 (size : ℕ) (n : ℤ) : Prop :=
  if size < 4 then 0 ≤ n else -2 ^ 31 ≤ n ∧ n < 2 ^ 31

instance (size : ℕ) (n : ℤ) : Decidable (ReadsAsInt32 size n) :=
  inferInstanceAs (Decidable (ite _ _ _))

/-! ### From the bytes to the number -/

/-- **What an `int32_t` makes of stored bytes.** -/
theorem toSigned_four_eq_iff {bytes : List UInt8} (signed : Bool) (hpos : 1 ≤ bytes.length)
    (hle : bytes.length ≤ 8) :
    toSigned 4 (ofLE bytes) = storedInteger signed bytes ↔
      ReadsAsInt32 bytes.length (storedInteger signed bytes) := by
  have hlt := ofLE_lt bytes
  rw [storedInteger]
  generalize bytes.length = n at *
  generalize ofLE bytes = v at *
  have hn : n = 1 ∨ n = 2 ∨ n = 3 ∨ n = 4 ∨ n = 5 ∨ n = 6 ∨ n = 7 ∨ n = 8 := by omega
  rw [ReadsAsInt32, toInteger, toSigned, toSigned]
  -- one case for each width, in which all numbers are given by the one of the bytes
  cases signed <;> rcases hn with rfl | rfl | rfl | rfl | rfl | rfl | rfl | rfl <;>
    simp at hlt ⊢ <;> (repeat' split) <;> omega

/-- Bytes at the front of a block of eight zero bytes. -/
theorem ofLE_blit_zeroes (bytes : List UInt8) : ofLE (blit (zeroes 8) 0 bytes) = ofLE bytes := by
  rw [blit_zero, zeroes, List.drop_replicate, ofLE_append_replicate_zero]

/-- The functions take integers, booleans and enumerations for an `int32_t`. -/
theorem ruleNumber_of_storedSigned {type : TypeEnum} {signed : Bool} (data : List UInt8)
    (h : type.storedSigned = some signed) :
    ruleNumber type data = .int (toSigned 4 (ofLE data)) := by
  cases type with
  | float => cases h
  | double => cases h
  | _ => rfl

/-! ### Built metadata -/

namespace BinaryMetadata

/-- Only bit fields have bits. -/
theorem Built.bits_eq_none {m : BinaryMetadata} (h : m.Built) :
    ∀ node ∈ m.nodes, node.type ≠ .bitmap → node.bits = none := by
  refine h.induction_append
    (P := fun nodes _ => ∀ node ∈ nodes, node.type ≠ .bitmap → node.bits = none) ?_ ?_
  · exact fun node hnode => absurd hnode List.not_mem_nil
  · intro m new increase _ ih happ node hnode htype
    rcases List.mem_append.mp hnode with hold | hnew
    · exact ih node hold htype
    · rw [List.mem_singleton.mp hnew] at htype ⊢
      cases happ with
      | bits => exact absurd rfl htype
      | plain | string | nest | array | arrayString | arrayEnum | arrayComplex => rfl

end BinaryMetadata

/-! ### Making operands -/

section Operands

variable {p : Platform} {store : String → Option EnumData} {tables : RuleTables}
  {infos : List RuleRowInfo} {id nodeOffset : ℕ} {node : Node} {path : List String}

/-- The node at the end of a path is found through the parser before it. -/
theorem getNodeAndOffsetByPath_eq_some {t : ParserTree}
    (h : getNodeAndOffsetByPath t path = some (some (node, nodeOffset))) :
    ∃ name parser, path.getLast? = some name ∧ t.descend path.dropLast = some parser ∧
      parser.metadata.queryNode name = some node ∧ nodeOffset = parser.offset + node.offset := by
  induction path generalizing t with
  | nil => cases h
  | cons name path ih =>
    cases path with
    | nil =>
      obtain ⟨found, hfound, heq⟩ := Option.map_eq_some_iff.mp h
      obtain ⟨rfl, rfl⟩ := Prod.mk.inj (Option.some.inj heq)
      exact ⟨name, t, rfl, rfl, hfound, rfl⟩
    | cons next path =>
      rw [getNodeAndOffsetByPath] at h
      split at h
      · cases h
      · cases h
      · rename_i parser hentry
        obtain ⟨last, sub, hlast, hsub, hnode, hoff⟩ := ih h
        refine ⟨last, sub, hlast, ?_, hnode, hoff⟩
        rw [List.dropLast_cons_cons, ParserTree.descend, hentry]
        exact hsub

/-- An operand is of a type the functions are made for. -/
theorem fieldOperand_eq_some {operand : RuleOperand}
    (h : fieldOperand store id node nodeOffset = some (some operand)) :
    operand = .field id node nodeOffset ∧ (node.type.isSimpleType = true ∨ node.type = .enum) := by
  rw [fieldOperand] at h
  split at h
  · rename_i hsimple
    exact ⟨(Option.some.inj (Option.some.inj h)).symm, Or.inl hsimple⟩
  · split at h
    · rename_i henum
      obtain ⟨enum, -, h⟩ := Option.map_eq_some_iff.mp h
      split at h
      · exact ⟨(Option.some.inj h).symm, Or.inr henum⟩
      · cases h
    · cases h

/-- **What an operand is.** The function of a row of a simple or an enumeration type, or of such
a field at the end of the path in a `COMPLEX` row. -/
theorem makeOperand_cases {funcString : String} {operand : RuleOperand}
    (h : makeOperand store tables infos funcString = some (some operand)) :
    ∃ id path info, tables.operandPlace funcString = some (some (id, path)) ∧
      infos[id]? = some info ∧
      ((operand = .row id ∧ (info.type.isSimpleType = true ∨ info.type = .enum)) ∨
        info.type = .complex ∧ ∃ m node nodeOffset, info.metadata = some m ∧
          getNodeAndOffsetByPath (.create 0 m 0) path = some (some (node, nodeOffset)) ∧
            operand = .field id node nodeOffset ∧
              (node.type.isSimpleType = true ∨ node.type = .enum)) := by
  obtain ⟨place, hplace, h⟩ := Option.bind_eq_some_iff.mp h
  split at h
  · cases h
  · rename_i id path
    obtain ⟨info, hinfo, h⟩ := Option.bind_eq_some_iff.mp h
    refine ⟨id, path, info, hplace, hinfo, ?_⟩
    split at h
    · cases h
    · split at h
      · rename_i htype
        exact Or.inl ⟨(Option.some.inj (Option.some.inj h)).symm, htype⟩
      · split at h
        · rename_i hcomplex
          split at h
          · cases h
          · rename_i m hm
            obtain ⟨found, hfound, h⟩ := Option.bind_eq_some_iff.mp h
            split at h
            · cases h
            · rename_i node nodeOffset
              exact Or.inr ⟨hcomplex, m, node, nodeOffset, hm, hfound, fieldOperand_eq_some h⟩
        · cases h

namespace RuleState

variable {fresh : ℕ → ℕ → UInt8} {s t : RuleState} {call : RuleCall} {row : MemoryRow}

/-- A row has been made by `create`, of the type that its `row_info` says. -/
def Created (infos : List RuleRowInfo) (rows : List MemoryRow) : Prop :=
  ∀ (id : ℕ) (info : RuleRowInfo), infos[id]? = some info → ∀ row, rows[id]? = some row →
    ∃ size, MemoryRow.create size info.type = some row

/-- The functions are those of their names, and the rows hold what was written last. -/
structure Sound (store : String → Option EnumData) (tables : RuleTables)
    (infos : List RuleRowInfo) (s : RuleState) : Prop where
  funcs : ∀ entry ∈ s.funcs, makeOperand store tables infos entry.1 = some (some entry.2)
  rows : ∀ (id : ℕ) (info : RuleRowInfo), infos[id]? = some info →
    ∀ row, s.rows[id]? = some row → info.type ≠ .emptyType →
      ∃ payload priority, Represents row payload priority

theorem sound_init {rows : List MemoryRow} (h : Created infos rows) :
    Sound store tables infos ⟨rows, []⟩ where
  funcs _ hentry := absurd hentry List.not_mem_nil
  rows id info hinfo row hrow htype := by
    obtain ⟨size, hcreate⟩ := h id info hinfo row hrow
    exact ⟨[], 0, represents_create hcreate htype⟩

/-- A query returns the function of the name, and keeps it. -/
theorem Sound.queryFunction (h : s.Sound store tables infos) {funcString : String}
    {result : Option RuleOperand}
    (hquery : s.queryFunction store tables infos funcString = some (t, result)) :
    t.Sound store tables infos ∧
      ∀ operand, result = some operand → ∃ entry ∈ t.funcs, entry = (funcString, operand) := by
  rw [RuleState.queryFunction] at hquery
  split at hquery
  · rename_i entry hfound
    obtain ⟨rfl, rfl⟩ := Prod.mk.inj (Option.some.inj hquery)
    have hname : entry.1 = funcString := by simpa using List.find?_some hfound
    refine ⟨h, fun operand hoperand => ⟨entry, List.mem_of_find?_eq_some hfound, ?_⟩⟩
    rw [← hname, ← Option.some.inj hoperand]
  · obtain ⟨made, hmade, heq⟩ := Option.map_eq_some_iff.mp hquery
    cases made with
    | none =>
      obtain ⟨rfl, rfl⟩ := Prod.mk.inj heq
      exact ⟨h, fun operand hoperand => by cases hoperand⟩
    | some made =>
      obtain ⟨rfl, rfl⟩ := Prod.mk.inj heq
      refine ⟨⟨fun entry hentry => ?_, h.rows⟩, fun operand hoperand => ?_⟩
      · rcases List.mem_append.mp hentry with hold | hnew
        · exact h.funcs entry hold
        · rw [List.mem_singleton.mp hnew]
          exact hmade
      · obtain rfl := Option.some.inj hoperand
        exact ⟨_, List.mem_append_right _ List.mem_cons_self, rfl⟩

theorem Sound.step (h : s.Sound store tables infos)
    (hstep : s.step store tables infos fresh call = some t) : t.Sound store tables infos := by
  cases call with
  | queryFunction funcString =>
    obtain ⟨⟨t', result⟩, hquery, rfl⟩ := Option.map_eq_some_iff.mp hstep
    exact (h.queryFunction hquery).1
  | row id op =>
    obtain rfl := Option.some.inj hstep
    refine ⟨h.funcs, fun id' info hinfo row hrow htype => ?_⟩
    rw [List.getElem?_modify] at hrow
    obtain ⟨old, hold, rfl⟩ := Option.map_eq_some_iff.mp hrow
    obtain ⟨payload, priority, hrep⟩ := h.rows id' info hinfo old hold htype
    split
    · exact ⟨_, _, (represents_step fresh op (s := ⟨old, []⟩) (r := ⟨payload, priority, []⟩)
        ⟨hrep, rfl, rfl⟩).1⟩
    · exact ⟨payload, priority, hrep⟩

/-! ### Reading rows -/

theorem length_content (row : MemoryRow) : (content row).length = row.dataSize := by
  rw [content, List.length_take, List.length_append, List.length_replicate]
  omega

/-- What is read of a whole row. -/
theorem readBytes_eq_content {payload : List UInt8} {priority : UInt8}
    (h : Represents row payload priority) (hpos : 0 < row.dataSize) (dst : List UInt8) :
    row.readBytes (some dst) row.dataSize = some (blit dst 0 (content row)) := by
  rw [h.readBytes_eq hpos le_rfl, content, h.stored_eq]

/-- The number of an operand of a row. -/
theorem execute_row {info : RuleRowInfo} {payload : List UInt8} {priority : UInt8} {signed : Bool}
    (hinfo : infos[id]? = some info) (hrow : s.rows[id]? = some row)
    (hrep : Represents row payload priority) (hsigned : info.type.storedSigned = some signed)
    (hpos : 1 ≤ row.dataSize) (hle : row.dataSize ≤ 8) :
    s.execute p infos (.row id) = some (.int (toSigned 4 (ofLE (content row)))) := by
  rw [execute, hinfo, hrow]
  simp only [Option.bind_eq_bind, Option.bind_some, if_neg (not_lt.mpr hle)]
  rw [readBytes_eq_content hrep hpos, Option.getD_some,
    ruleNumber_of_storedSigned _ hsigned, ofLE_blit_zeroes]
  rfl

/-- The number of an operand of a field. -/
theorem execute_field {payload data : List UInt8} {priority : UInt8} {signed : Bool} {off : ℕ}
    (hrow : s.rows[id]? = some row) (hrep : Represents row payload priority)
    (hbits : node.bits = none) (htype : node.type ≠ .bitmap)
    (hsigned : node.type.storedSigned = some signed)
    (hread : readByNode p (content row) off node node.size = some data)
    (hpos : 1 ≤ data.length) (hle : data.length ≤ 8) :
    data.length = node.size ∧
      s.execute p infos (.field id node (off + node.offset)) =
        some (.int (toSigned 4 (ofLE data))) := by
  rw [readByNode, if_neg (lt_irrefl node.size), if_neg htype] at hread
  obtain ⟨block, hblock, rfl⟩ := Option.map_eq_some_iff.mp hread
  have hlen := length_of_safeRead hblock
  obtain ⟨hfit, rfl⟩ := safeRead_eq_some hblock
  rw [length_content] at hfit
  rw [length_convertOrder, hlen] at hpos hle ⊢
  refine ⟨rfl, ?_⟩
  have hcontent : row.readBytes (some (zeroes row.dataSize)) row.dataSize =
      some (content row) := by
    rw [readBytes_eq_content hrep (by omega), blit_zero, length_content, zeroes,
      List.drop_replicate, Nat.sub_self, List.replicate_zero, List.append_nil]
  have hguard : ¬ (8 < node.size ∨ (content row).length < off + node.offset) := by
    rw [length_content]
    omega
  have hfield : node.read p ((content row).drop (off + node.offset)) =
      some (convertOrder node.bigEndian (slice (content row) (off + node.offset) node.size)) := by
    rw [BinaryNode.read, hbits]
    simp only
    rw [if_neg (by rw [List.length_drop, length_content]; omega), slice]
  rw [execute, hrow]
  simp only [Option.bind_eq_bind, Option.bind_some, hcontent, if_neg hguard, hfield,
    Option.getD_some]
  rw [ruleNumber_of_storedSigned _ hsigned, ofLE_blit_zeroes]
  rfl

/-- The number of the function that has been made for a name, whose row or field stores bytes of
an integer, a boolean or an enumeration. -/
theorem Sound.execute_eq (h : s.Sound store tables infos)
    (hbuilt : ∀ info ∈ infos, ∀ m, info.metadata = some m → m.Built) {funcString : String}
    {operand : RuleOperand} {type : TypeEnum} {bytes : List UInt8} {signed : Bool}
    (hmade : makeOperand store tables infos funcString = some (some operand))
    (hplace : tables.operandPlace funcString = some (some (id, path)))
    (hstored : s.storedBytes p infos id path = some (type, bytes))
    (hsigned : type.storedSigned = some signed) (hpos : 1 ≤ bytes.length)
    (hle : bytes.length ≤ 8) :
    s.execute p infos operand = some (.int (toSigned 4 (ofLE bytes))) := by
  obtain ⟨id', path', info, hplace', hinfo, hoperand⟩ := makeOperand_cases hmade
  obtain ⟨rfl, rfl⟩ := Prod.mk.inj (Option.some.inj (Option.some.inj (hplace'.symm.trans hplace)))
  obtain ⟨info', hinfo', hstored⟩ := Option.bind_eq_some_iff.mp hstored
  obtain rfl := Option.some.inj (hinfo.symm.trans hinfo')
  obtain ⟨row, hrow, hstored⟩ := Option.bind_eq_some_iff.mp hstored
  rcases hoperand with ⟨rfl, htype⟩ | ⟨hcomplex, m, node, nodeOffset, hm, hfound, rfl, htype⟩
  · -- a row: its type is neither `COMPLEX` nor `EMPTY_TYPE`
    have hne : info.type ≠ .complex ∧ info.type ≠ .emptyType := by
      rcases htype with hsimple | henum
      · constructor <;> intro heq <;> rw [heq] at hsimple <;> cases hsimple
      · constructor <;> intro heq <;> rw [heq] at henum <;> cases henum
    obtain ⟨payload, priority, hrep⟩ := h.rows id' info hinfo row hrow hne.2
    rw [if_neg hne.1] at hstored
    split at hstored
    · obtain ⟨rfl, rfl⟩ := Prod.mk.inj (Option.some.inj hstored)
      rw [length_content] at hpos hle
      exact execute_row hinfo hrow hrep hsigned hpos hle
    · cases hstored
  · -- a field: both sides go down the same path
    obtain ⟨payload, priority, hrep⟩ :=
      h.rows id' info hinfo row hrow (by rw [hcomplex]; exact fun heq => by cases heq)
    obtain ⟨name, parser, hname, hparser, hnode, rfl⟩ := getNodeAndOffsetByPath_eq_some hfound
    simp only [if_pos hcomplex, hm, hname, hparser, hnode, Option.bind_eq_bind,
      Option.bind_some] at hstored
    obtain ⟨data, hread, heq⟩ := Option.bind_eq_some_iff.mp hstored
    obtain ⟨rfl, rfl⟩ := Prod.mk.inj (Option.some.inj heq)
    have hbitmap : node.type ≠ .bitmap := by
      intro heq
      rw [heq] at hsigned
      cases hsigned
    have hm' : m.Built := hbuilt info (List.mem_of_getElem? hinfo) m hm
    have hbits := (hm'.of_descend (.made 0) hparser).bits_eq_none node
      (List.mem_of_find?_eq_some hnode) hbitmap
    exact (execute_field hrow hrep hbits hbitmap hsigned hread hpos hle).2

/-- **Rules read what is stored** precisely if it is a number of four signed bytes that is not
negative where it is stored in less: for a name that is queried after any calls and a function
that is executed after any calls more. -/
theorem number_eq_iff {rows : List MemoryRow} (hrows : Created infos rows)
    (hbuilt : ∀ info ∈ infos, ∀ m, info.metadata = some m → m.Built)
    {calls calls' : List RuleCall} {funcString : String} {operand : RuleOperand}
    {u : RuleState} (hrun : run (step store tables infos fresh) ⟨rows, []⟩ calls = some s)
    (hquery : s.queryFunction store tables infos funcString = some (t, some operand))
    (hrun' : run (step store tables infos fresh) t calls' = some u)
    (hplace : tables.operandPlace funcString = some (some (id, path)))
    {type : TypeEnum} {bytes : List UInt8} {signed : Bool}
    (hstored : u.storedBytes p infos id path = some (type, bytes))
    (hsigned : type.storedSigned = some signed) (hpos : 1 ≤ bytes.length)
    (hle : bytes.length ≤ 8) :
    u.execute p infos operand = some (.int (storedInteger signed bytes)) ↔
      ReadsAsInt32 bytes.length (storedInteger signed bytes) := by
  have hstep : ∀ s call t, Sound store tables infos s →
      step store tables infos fresh s call = some t → Sound store tables infos t :=
    fun _ _ _ hs ht => hs.step ht
  have hs : s.Sound store tables infos := run_invariant hrun hstep (sound_init hrows)
  obtain ⟨ht, hentry⟩ := hs.queryFunction hquery
  obtain ⟨_, hmem, rfl⟩ := hentry operand rfl
  have hu : u.Sound store tables infos := run_invariant hrun' hstep ht
  rw [hu.execute_eq hbuilt (ht.funcs _ hmem) hplace hstored hsigned hpos hle, Option.some.injEq,
    RuleNumber.int.injEq]
  exact toSigned_four_eq_iff signed hpos hle

end RuleState

end Operands

/-! ### Rows of one and of eight bytes -/

/-- A table with the rows `ia` and `ib`. -/
def sampleTables : RuleTables where
  input name := if name = "ia" then some 0 else if name = "ib" then some 1 else none
  output _ := none
  existence _ := none
  enable _ := none
  dataset _ := none

/-- The rows are of the types `INT8` and `INT64`. -/
def sampleInfos : List RuleRowInfo := [⟨.int8, "", none⟩, ⟨.int64, "", none⟩]

/-- The rows, just made. -/
def sampleRows : List MemoryRow :=
  [MemoryRow.construct 1 true .int8, MemoryRow.construct 8 true .int64]

theorem created_sampleRows : RuleState.Created sampleInfos sampleRows := by
  intro id info hinfo row hrow
  match id with
  | 0 =>
    obtain rfl := Option.some.inj hinfo
    obtain rfl := Option.some.inj hrow
    exact ⟨1, rfl⟩
  | 1 =>
    obtain rfl := Option.some.inj hinfo
    obtain rfl := Option.some.inj hrow
    exact ⟨8, rfl⟩
  | _ + 2 => cases hinfo

/-- One call on the rows. -/
def sampleStep : RuleState → RuleCall → Option RuleState :=
  RuleState.step (fun _ => none) sampleTables sampleInfos fun _ _ => 0

/-- A write of bytes to a row. -/
def sampleWrite (row : ℕ) (data : List UInt8) : RuleCall :=
  .row row (.write ⟨some data, data.length, false, 0, WriteCall.readable_some data⟩)

/-- The number of an operand that is queried after a write to its row, and the bytes that are
stored in the row then. -/
def numberAfter (row : ℕ) (funcString : String) (data : List UInt8) :
    Option (RuleNumber × TypeEnum × List UInt8) := do
  let s ← run sampleStep ⟨sampleRows, []⟩ [sampleWrite row data]
  let (t, operand) ← s.queryFunction (fun _ => none) sampleTables sampleInfos funcString
  let operand ← operand
  let number ← t.execute ⟨fun _ _ => 0⟩ sampleInfos operand
  let stored ← t.storedBytes ⟨fun _ _ => 0⟩ sampleInfos row []
  return (number, stored)

/-- A row of one byte that holds 5. -/
theorem RuleState.number_eq_iff_int8 :
    RuleState.execute ⟨fun _ _ => 0⟩ sampleInfos
        ⟨[⟨1, 1, some [5], false, 0, 0, .int8⟩, MemoryRow.construct 8 true .int64],
          [("aGetInput", .row 0)]⟩ (.row 0) = some (.int (storedInteger true [5])) ↔
      ReadsAsInt32 1 (storedInteger true [5]) :=
  RuleState.number_eq_iff created_sampleRows (by simp [sampleInfos])
    (rfl : run sampleStep ⟨sampleRows, []⟩ [sampleWrite 0 [5]] = some _)
    (by rfl : RuleState.queryFunction (fun _ => none) sampleTables sampleInfos _ "aGetInput" =
      some (_, some (.row 0)))
    (run_nil _)
    (by decide : sampleTables.operandPlace "aGetInput" = some (some (0, [])))
    (by rfl : RuleState.storedBytes ⟨fun _ _ => 0⟩ sampleInfos _ 0 [] = some (.int8, [5]))
    rfl (by decide) (by decide)

/-- A row of the type `INT8` that holds -1 reads as 255, and one of the type `INT64` that holds
`2 ^ 32` as 0. -/
theorem RuleState.number_ne_stored :
    (numberAfter 0 "aGetInput" [255] = some (.int 255, .int8, [255]) ∧
        storedInteger true [255] = -1) ∧
      numberAfter 1 "bGetInput" [0, 0, 0, 0, 1, 0, 0, 0] =
          some (.int 0, .int64, [0, 0, 0, 0, 1, 0, 0, 0]) ∧
        storedInteger true [0, 0, 0, 0, 1, 0, 0, 0] = 2 ^ 32 := by
  decide

end UtilityFramework
