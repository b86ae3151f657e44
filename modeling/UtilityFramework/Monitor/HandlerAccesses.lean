import UtilityFramework.Core.TypeNames
import UtilityFramework.Lib.Logged
import UtilityFramework.Monitor.Monitor
import UtilityFramework.Parsers.Json

/-!
# The memory that the message handler touches

`Monitor::MessageHandler` with everything it calls, as far as it reads the message, writes local
arrays and writes `m_dataQueryBuffer`; local structures and numbers are left out. `MEMCPY` and
`STRCPY` copy without looking at the size of the destination, as they do on every platform but
one. A computation that throws is aborted.

Rows and enumerations are described by texts: the names of a row, which are C strings in arrays
of `MAX_NAME` bytes, and the JSON texts of schemas. Subscribing to a row that is there succeeds.
-/

namespace UtilityFramework

open Bytes Memory Logged Text

/-- An access: `n` bytes of the message from an offset on are read, or as many of a local array
of `size` bytes or of `m_dataQueryBuffer` are written. -/
inductive Access
  | readMessage (off n : ℕ)
  | writeLocal (size off n : ℕ)
  | writeQuery (off n : ℕ)
  deriving DecidableEq

/-- `m_dataQueryBuffer.size()`. -/
def queryBufferSize : ℕ := monitorMaxDataSize

/-- `MAX_NAME`. -/
def maxName : ℕ := 256

/-- The access stays within a message of the given size, the array or the buffer. -/
def Access.InBounds (messageSize : ℕ) : Access → Prop
  | readMessage off n => off + n ≤ messageSize
  | writeLocal size off n => off + n ≤ size
  | writeQuery off n => off + n ≤ queryBufferSize

instance (messageSize : ℕ) : DecidablePred (Access.InBounds messageSize)
  | .readMessage _ _ => inferInstanceAs (Decidable (_ ≤ _))
  | .writeLocal _ _ _ => inferInstanceAs (Decidable (_ ≤ _))
  | .writeQuery _ _ => inferInstanceAs (Decidable (_ ≤ _))

/-- The names of a `row_info`. -/
structure RowInfo where
  name : List UInt8
  typeName : List UInt8
  name_lt : name.length < maxName
  typeName_lt : typeName.length < maxName

/-- A monitor with what its handler finds besides: the description of a row and its JSON text,
if it has one, by the index of the data set and the two keys, the JSON text of an enumeration,
and the rows that are registered. -/
structure MonitorHandler where
  monitor : Monitor
  info : ℕ → UInt32 → UInt32 → RowInfo
  rowJson : ℕ → UInt32 → UInt32 → Option (List UInt8)
  enumJson : List UInt8 → Option (List UInt8)
  registered : UInt32 × UInt32 → Bool

/-- The opcodes that the handler distinguishes. -/
inductive MonitorOpcode
  | getSingleDataEx
  | registerMultiSingleDataEx
  | getMultiSingleDataEx
  | unregisterMultiSingleDataEx
  | getDebugMultiSingleDataEx
  | getKeepAlive
  | updateDataEx
  | registerSingleDataEx
  | unregisterSingleDataEx
  | updateDebugStateEx
  | getDebugMode
  | getDbDataEx
  | getRows
  | stopGetRows
  | getRowSchema
  | getEnumSchema
  deriving DecidableEq

/-- The value of an opcode. -/
def MonitorOpcode.value : MonitorOpcode → UInt8
  | getSingleDataEx => 0x11
  | registerMultiSingleDataEx => 0x1c
  | getMultiSingleDataEx => 0x1e
  | unregisterMultiSingleDataEx => 0x1d
  | getDebugMultiSingleDataEx => 0x1f
  | getKeepAlive => 0x05
  | updateDataEx => 0x13
  | registerSingleDataEx => 0x18
  | unregisterSingleDataEx => 0x19
  | updateDebugStateEx => 0x17
  | getDebugMode => 0x20
  | getDbDataEx => 0x12
  | getRows => 0x21
  | stopGetRows => 0x24
  | getRowSchema => 0x22
  | getEnumSchema => 0x23

/-- All of them. -/
def MonitorOpcode.all : List MonitorOpcode :=
  [getSingleDataEx, registerMultiSingleDataEx, getMultiSingleDataEx,
    unregisterMultiSingleDataEx, getDebugMultiSingleDataEx, getKeepAlive, updateDataEx,
    registerSingleDataEx, unregisterSingleDataEx, updateDebugStateEx, getDebugMode, getDbDataEx,
    getRows, stopGetRows, getRowSchema, getEnumSchema]

/-- The opcode of a value. -/
def MonitorOpcode.ofValue? (value : UInt8) : Option MonitorOpcode :=
  all.find? fun op => op.value = value

namespace MonitorHandler

variable (h : MonitorHandler)

/-! ### Messages that are built -/

/-- The functions `BuildMonitor…Msg`: a header and the values go into an array. -/
def buildMsg (header length : ℕ) : Logged Access PUnit := do
  require (Size.add length header ≤ monitorMaxDataSize)
  record (.writeLocal (monitorMaxDataSize + header) 0 header)
  record (.writeLocal (monitorMaxDataSize + header) header length)

/-- `BuildMonitorSingleMsg`. -/
def buildMonitorSingleMsg (length : ℕ) : Logged Access PUnit :=
  buildMsg MonitorSingleDataMsgEx.size length

/-- `BuildMonitorDBMsg`. -/
def buildMonitorDBMsg (length : ℕ) : Logged Access PUnit :=
  buildMsg MonitorDBDataMsgEx.size length

/-- `BuildMonitorRowInfoMsg`. -/
def buildMonitorRowInfoMsg (length : ℕ) : Logged Access PUnit :=
  buildMsg MonitorDBDataMsgEx.size length

/-- `BuildMonitorRowSchemaMsg`. -/
def buildMonitorRowSchemaMsg (length : ℕ) : Logged Access PUnit :=
  buildMsg MonitorSingleDataMsgEx.size length

/-- `BuildMonitorEnumSchemaMsg`. -/
def buildMonitorEnumSchemaMsg (length : ℕ) : Logged Access PUnit :=
  buildMsg MonitorSingleDataMsgEx.size length

/-! ### Data -/

/-- `Row::Read` to `m_dataQueryBuffer`, which fills as many bytes as it is asked for. -/
def readRow (row : MemoryRow) (off size : ℕ) : Logged Access PUnit := do
  require (size ≤ row.maxSize ∧ 0 < size)
  record (.writeQuery off size)

/-- The data of a row, unless there are none. -/
def readData (row : MemoryRow) (off : ℕ) : Logged Access PUnit :=
  if 0 < row.dataSize then readRow row off row.dataSize else pure ⟨⟩

/-- `GetSingleData`. -/
def getSingleData (nTable nRow : UInt32) : Logged Access PUnit :=
  match h.monitor.row? nTable nRow with
  | none => abort
  | some row => do
    require (row.dataSize ≤ queryBufferSize)
    readData row 0
    buildMonitorSingleMsg row.dataSize

/-- The loop of `GetDBData`. -/
def copyRows : ℕ → List (UInt32 × MemoryRow) → Logged Access ℕ
  | copied, [] => pure copied
  | copied, e :: rows => do
    -- The sum may wrap around.
    require (Size.add e.2.dataSize copied ≤ queryBufferSize)
    if 0 < e.2.dataSize then do
      readRow e.2 copied e.2.dataSize
      copyRows (Size.add copied e.2.dataSize) rows
    else copyRows copied rows

/-- `GetDBData`. -/
def getDBData (nTable : UInt32) : Logged Access PUnit :=
  match (h.monitor.dataset? nTable).bind fun ds => ds.tryGet nTable with
  | none => abort
  | some table => copyRows 0 table.rows >>= buildMonitorDBMsg

/-- `GetDebugState`. -/
def getDebugState (nTable nRow : UInt32) : Logged Access PUnit :=
  match h.monitor.row? nTable nRow with
  | none => abort
  | some _ => do
    record (.writeLocal (monitorMaxDataSize + MonitorSingleDataMsgEx.size) 0
      MonitorSingleDataMsgEx.size)
    record (.writeLocal (monitorMaxDataSize + MonitorSingleDataMsgEx.size)
      MonitorSingleDataMsgEx.size 1)

/-- `UpdateDebugValue`; a row that refuses the data does not read them. -/
def updateDebugValue (nTable nRow : UInt32) (shLength : UInt16) (setDebugState : Bool) :
    Logged Access PUnit :=
  match h.monitor.row? nTable nRow with
  | none => abort
  | some row =>
    if setDebugState then pure ⟨⟩
    else do
      let size := Size.sub (Size.ofInt16 shLength.toNat) 9
      require (size ≤ row.maxSize ∧ size ≠ 0 ∨ row.type = .emptyType)
      record (.readMessage DeToMonitorDataMsgEx.size size)

/-! ### Registrations -/

/-- Registering a row, or ending that, unless it has been done. -/
def setRegistered (value : Bool) (nTable nRow : UInt32) : Logged Access MonitorHandler :=
  if h.registered (nTable, nRow) = value then pure h
  else
    match h.monitor.row? nTable nRow with
    | none => abort
    | some _ => pure { h with registered := Function.update h.registered (nTable, nRow) value }

/-- `RegisterSingleData`. -/
def registerSingleData (nTable nRow : UInt32) : Logged Access MonitorHandler :=
  h.setRegistered true nTable nRow

/-- `UnRegisterSingleData`. -/
def unRegisterSingleData (nTable nRow : UInt32) : Logged Access MonitorHandler :=
  h.setRegistered false nTable nRow

/-! ### Requests for several rows -/

/-- A `short`, by its bits. -/
def toShort (x : UInt16) : ℤ := if x.toNat < 2 ^ 15 then x.toNat else x.toNat - 2 ^ 16

/-- `stData.unTable` of an entry. -/
def entryTable (reader : DataReader) (i : ℕ) : UInt32 :=
  .ofNat (ofLE (load reader.buffer (3 + 8 * i) 4))

/-- `stData.unRow` of an entry. -/
def entryRow (reader : DataReader) (i : ℕ) : UInt32 :=
  .ofNat (ofLE (load reader.buffer (3 + 8 * i + 4) 4))

/-- What the loop of `HandleMultiSingleData` does with an entry. -/
def multiEntry (op : MonitorOpcode) (nTable nRow : UInt32) : Logged Access MonitorHandler :=
  match op with
  | .registerMultiSingleDataEx => h.registerSingleData nTable nRow
  | .getMultiSingleDataEx => do
    h.getSingleData nTable nRow
    pure h
  | .unregisterMultiSingleDataEx => h.unRegisterSingleData nTable nRow
  | .getDebugMultiSingleDataEx => do
    h.getDebugState nTable nRow
    pure h
  | _ => pure h

/-- The loop of `HandleMultiSingleData`: so many entries from an index on. -/
def multiLoop (reader : DataReader) (op : MonitorOpcode) :
    ℕ → ℕ → MonitorHandler → Logged Access MonitorHandler
  | 0, _, h => pure h
  | n + 1, i, h => do
    record (.readMessage (3 + 8 * i) 8)
    let h ← h.multiEntry op (entryTable reader i) (entryRow reader i)
    multiLoop reader op n (i + 1) h

/-- `HandleMultiSingleData`. -/
def handleMultiSingleData (reader : DataReader) (op : MonitorOpcode) :
    Logged Access MonitorHandler := do
  record (.readMessage 0 2)
  multiLoop reader op
    -- The length counts the opcode, which is in front of the entries.
    ((toShort (.ofNat (ofLE (load reader.buffer 0 2)))).tdiv 8).toNat 0 h

/-! ### Descriptions of rows -/

/-- Fields written one behind the other, and where they end. -/
def writeFields : ℕ → List ℕ → Logged Access ℕ
  | off, [] => pure off
  | off, n :: sizes => do
    record (.writeQuery off n)
    writeFields (off + n) sizes

/-- `type_name` in `BuildSingleRowDataMsg`: of an enumeration, the name of an integer of its
size. -/
def shownTypeName (row : MemoryRow) (info : RowInfo) : List UInt8 :=
  if row.type = .enum then
    toBytes (((TypeEnum.getTypeBySize row.dataSize false).getTypeName).getD "unknwon")
  else info.typeName

/-- `enum_name` in `BuildSingleRowDataMsg`. -/
def shownEnumName (row : MemoryRow) (info : RowInfo) : List UInt8 :=
  if row.type = .enum then info.typeName else []

/-- Copying the name of an enumeration in `BuildSingleRowDataMsg`. -/
def writeEnumName (row : MemoryRow) (info : RowInfo) : Logged Access PUnit :=
  if row.type = .enum then record (.writeLocal maxName 0 ((shownEnumName row info).length + 1))
  else pure ⟨⟩

/-- `BuildSingleRowDataMsg`. -/
def buildSingleRowDataMsg (row : MemoryRow) (info : RowInfo) (startIndex : ℕ) :
    Logged Access ℕ := do
  let typeLen := (shownTypeName row info).length
  let enumLen := (shownEnumName row info).length
  let nameLen := info.name.length
  record (.writeLocal maxName 0 (typeLen + 1))
  writeEnumName row info
  -- The name of the enumeration is not counted.
  if queryBufferSize - startIndex < 4 + 4 + typeLen + 4 + nameLen then pure 0
  else
    writeFields startIndex
      ([4, 4, typeLen, 4, nameLen] ++ if 0 < enumLen then [4, enumLen] else [4])

/-- The loop of `GetRowsForTable` over the rows of a table. -/
def sendRows (index : ℕ) (nTable : UInt32) : List (UInt32 × MemoryRow) → Logged Access PUnit
  | [] => pure ⟨⟩
  | e :: rows => do
    let msgLen ← buildSingleRowDataMsg e.2 (h.info index nTable e.1) 4
    record (.writeQuery 0 4)
    buildMonitorRowInfoMsg msgLen
    sendRows index nTable rows

/-- The rows of a table in `GetRowsForTable`, if the data set has it. -/
def sendTable (index : ℕ) (nTable : UInt32) (ds : DataSet) : Logged Access PUnit :=
  match ds.tryGet nTable with
  | none => pure ⟨⟩
  | some table => h.sendRows index nTable table.rows

/-- The loop of `GetRowsForTable` over the data sets, from an index on. -/
def sendTables (nTable : UInt32) : ℕ → List DataSet → Logged Access PUnit
  | _, [] => pure ⟨⟩
  | index, ds :: datasets => do
    h.sendTable index nTable ds
    sendTables nTable (index + 1) datasets

/-- `GetRowsForTable`. -/
def getRowsForTable (nTable : UInt32) : Logged Access PUnit :=
  h.sendTables nTable 0 h.monitor.datasets

/-! ### Schemas -/

/-- The size of a JSON text with its end, as it is sent. -/
def jsonLength (json : List UInt8) : ℕ := (json.length + 1) % 2 ^ 32

/-- Writing a JSON text and its size to `m_dataQueryBuffer`. -/
def writeJson (json : List UInt8) : Logged Access PUnit := do
  record (.writeQuery 0 4)
  -- `m_dataQueryBuffer.size()` is passed as the room, although four bytes are taken.
  record (.writeQuery 4 (jsonLength json))

/-- The JSON text of a row, in the first data set with the row. -/
def rowJson? (tableID rowID : UInt32) : Option (List UInt8) :=
  (h.monitor.datasets.zipIdx.find? fun p => (p.1.row? tableID rowID).isSome).bind fun p =>
    h.rowJson p.2 tableID rowID

/-- `GetRowsSchema`. -/
def getRowsSchema (tableID rowID : UInt32) : Logged Access PUnit :=
  match h.rowJson? tableID rowID with
  | none => pure ⟨⟩
  | some json =>
    if json = [] then pure ⟨⟩
    else do
      writeJson json
      buildMonitorRowSchemaMsg (Size.add (jsonLength json) 4)

/-- `GetEnumSchema`. -/
def getEnumSchema (enumName : List UInt8) : Logged Access PUnit :=
  match h.enumJson enumName with
  | none => pure ⟨⟩
  | some json => do
    writeJson json
    buildMonitorEnumSchemaMsg (Size.add (jsonLength json) 4)

/-- `len` in `MessageHandler`: the size of the name in a request for an enumeration. -/
def enumNameLength (shLength : UInt16) : ℕ :=
  Size.add (Size.sub (Size.ofInt16 shLength.toNat) DeToMonitorDataMsgEx.size) 2

/-- The case of `MessageHandler` for an enumeration, whose name is copied to `str`. -/
def copyEnumName (reader : DataReader) (shLength : UInt16) : Logged Access PUnit := do
  let len := enumNameLength shLength
  record (.readMessage DeToMonitorDataMsgEx.size len)
  record (.writeLocal 256 0 len)
  -- `str[len] = 0`
  record (.writeLocal 256 len 1)
  h.getEnumSchema (untilNul (load reader.buffer DeToMonitorDataMsgEx.size len))

/-! ### Messages that arrive -/

/-- `reader.Read`, for a structure of `n` bytes. -/
def readStruct (reader : DataReader) (n : ℕ) : Logged Access PUnit := do
  require (n ≤ reader.size)
  record (.readMessage 0 n)

/-- The message in `MessageHandler`. -/
def message (reader : DataReader) : DeToMonitorDataMsgEx :=
  .ofBytes (load reader.buffer 0 DeToMonitorDataMsgEx.size)

/-- The switch in `MessageHandler`, once the message has been read. -/
def handle (reader : DataReader) (msg : DeToMonitorDataMsgEx) :
    Option MonitorOpcode → Logged Access MonitorHandler
  | some .getSingleDataEx => do
    h.getSingleData msg.unTable msg.unRow
    pure h
  | some .registerMultiSingleDataEx => h.handleMultiSingleData reader .registerMultiSingleDataEx
  | some .getMultiSingleDataEx => h.handleMultiSingleData reader .getMultiSingleDataEx
  | some .unregisterMultiSingleDataEx =>
    h.handleMultiSingleData reader .unregisterMultiSingleDataEx
  | some .getDebugMultiSingleDataEx => h.handleMultiSingleData reader .getDebugMultiSingleDataEx
  | some .updateDataEx => do
    h.updateDebugValue msg.unTable msg.unRow msg.shLength false
    pure h
  | some .registerSingleDataEx => h.registerSingleData msg.unTable msg.unRow
  | some .unregisterSingleDataEx => h.unRegisterSingleData msg.unTable msg.unRow
  | some .updateDebugStateEx => do
    h.updateDebugValue msg.unTable msg.unRow msg.shLength true
    pure h
  | some .getDebugMode => do
    h.getDebugState msg.unTable msg.unRow
    pure h
  | some .getRows => do
    h.getRowsForTable msg.unTable
    pure h
  | some .getRowSchema => do
    h.getRowsSchema msg.unTable msg.unRow
    pure h
  | some .getEnumSchema => do
    h.copyEnumName reader msg.shLength
    pure h
  -- `UnRegisterTableRowsUpdates`, and opcodes that are not supported
  | _ => pure h

/-- `MessageHandler`. -/
def messageHandler (reader : DataReader) : Logged Access MonitorHandler := do
  -- the opcode, even of a message that has none
  record (.readMessage 2 1)
  match MonitorOpcode.ofValue? reader.getOpcodeExt with
  | some .getKeepAlive => pure h
  | some .getDbDataEx =>
    if 2 < reader.size then do
      readStruct reader 7
      h.getDBData (message reader).unTable
      pure h
    else pure h
  | op => do
    readStruct reader DeToMonitorDataMsgEx.size
    h.handle reader (message reader) op

end MonitorHandler

end UtilityFramework
