import UtilityFramework.Communication.VariableLengthProtocol
import UtilityFramework.Core.Types
import UtilityFramework.Database.DataSet

/-!
# The remote agent

`Database::RemoteAgent` keeps the tables of two processes in step. Each agent subscribes to
every row of the tables that its map marks as exported or imported, and sends the row when
it changes; it writes the rows it receives, answers a request for a table with all its rows,
and asks for the imported tables that it has not heard of.

A message is a packed header of 19 bytes and the data of a row. The functions that build and
take messages copy them through local buffers of fixed sizes; a copy that does not fit is a
`Failure.overflow`. An exception is a `Failure.thrown`; `MessageHandler` catches it.
-/

namespace UtilityFramework

open Bytes

/-! ### Messages -/

/-- `RA_MAX_BUFF`. -/
def raMaxBuff : ℕ := 1350

/-- `RemoteAgent::MAX_DATA_SIZE`, the maximum of `short`. -/
def raMaxDataSize : ℕ := 32767

/-- The size of the local buffer of `HandleRegisterDB`. -/
def registerBufferSize : ℕ := 2048

/-- How a function can fail: an exception, or a copy beyond a local buffer. -/
inductive Failure
  | thrown
  | overflow
  deriving DecidableEq

/-- `RemoteAgentDataMsg` with its header; the fields of type `short` and `int` by their
bits. -/
structure RemoteAgentDataMsg where
  shLength : UInt16
  byOpcode : UInt8
  unDBIndex : UInt32
  unDBEntryIndex : UInt32
  unTimeTag : UInt32
  nCellType : UInt32
  deriving DecidableEq

namespace RemoteAgentDataMsg

/-- `sizeof(RemoteAgentDataMsg)`, packed. -/
def size : ℕ := 19

/-- The bytes of the structure. -/
def bytes (m : RemoteAgentDataMsg) : List UInt8 :=
  toLE 2 m.shLength.toNat ++ [m.byOpcode] ++ toLE 4 m.unDBIndex.toNat ++
    toLE 4 m.unDBEntryIndex.toNat ++ toLE 4 m.unTimeTag.toNat ++ toLE 4 m.nCellType.toNat

/-- `reader.Read<RemoteAgentDataMsg>()`: the structure at the front of a message, which may be
longer. -/
def read (msg : List UInt8) : Option RemoteAgentDataMsg :=
  if msg.length < size then none
  else some {
    shLength := .ofNat (ofLE (slice msg 0 2))
    byOpcode := .ofNat (ofLE (slice msg 2 1))
    unDBIndex := .ofNat (ofLE (slice msg 3 4))
    unDBEntryIndex := .ofNat (ofLE (slice msg 7 4))
    unTimeTag := .ofNat (ofLE (slice msg 11 4))
    nCellType := .ofNat (ofLE (slice msg 15 4)) }

end RemoteAgentDataMsg

/-- `RemoteAgentOpcodesEnum`. -/
inductive RemoteAgentOpcode
  | keepAlive
  | dataUpdate
  | dataUpdateAndReplay
  | dbMsg
  | registerDB
  | exportedDBReplay
  deriving DecidableEq

/-- The value of an opcode. -/
def RemoteAgentOpcode.value : RemoteAgentOpcode → UInt8
  | keepAlive => 0x05
  | dataUpdate => 0x06
  | dataUpdateAndReplay => 0x07
  | dbMsg => 0x08
  | registerDB => 0x09
  | exportedDBReplay => 0x0A

/-- `convertTypeToFramework1`, as it is sent. -/
def convertTypeToFramework1 : TypeEnum → UInt32
  | .debugType => 0xFFFFFFFF
  | .unknown => 0
  | .byte => 1
  | .short => 2
  | .int32 => 3
  | .float => 4
  | .complex => 5
  | .emptyType => 6
  | .bool => 7
  | .double => 8
  | .string => 9
  | .buffer => 10
  | .pointer => 11
  | _ => 0

/-- `comm_client_channel::send`: what the channel takes of a message. -/
def commSend (maxMessageSize : ℕ) (msg : List UInt8) : List (List UInt8) :=
  if msg.length = 0 ∨ maxMessageSize < msg.length then [] else [msg]

/-- `BuildSingleMsg`: the message that is handed to the channel. `size` is cast to `int32_t`
by the callers, and back; the length field is cast to `short`, and back for the channel. -/
def buildSingleMsg (values : List UInt8) (size : ℕ) (unDB unEntry rowType : UInt32)
    (opcode : RemoteAgentOpcode) : Except Failure (List UInt8) :=
  let length := Size.ofInt32 size
  let shLength := Size.add length RemoteAgentDataMsg.size
  let stMsg : RemoteAgentDataMsg :=
    ⟨.ofNat shLength, opcode.value, unDB, unEntry, 0, rowType⟩
  if raMaxBuff < length then .error .overflow
  else .ok ((stMsg.bytes ++ values.take length).take (Size.ofInt16 shLength))

/-! ### The agent -/

/-- `table_info::exported_or_imported_flag`. -/
inductive ExportedOrImported
  | none
  | imported
  | exported
  deriving DecidableEq

/-- `table_info`, without its texts; the `int` by its bits. -/
structure TableInfo where
  externalId : UInt32
  exportedOrImportedFlag : ExportedOrImported
  isAcked : Bool
  deriving DecidableEq

/-- `RemoteAgent`, without its channel and its timer. The map is in the order of its keys.
Of the status table, `dataSynced` is the row `DATA_SYNCED_STS`. -/
structure RemoteAgent where
  dataset : DataSet
  tableInfoMap : List (UInt32 × TableInfo)
  keys_nodup : (tableInfoMap.map Prod.fst).Nodup
  forceWrite : Bool
  gotMsgFromRemoteAgentApp : Bool
  tickGetFromLastArrivedAck : UInt32
  dataSynced : Bool

/-- A change of a row that its subscribers are to be told of. -/
structure RowChange where
  table : UInt32
  entry : UInt32
  data : List UInt8
  deriving DecidableEq

/-- What an event has done: the agent after it, the messages sent, and the changes of rows
it has raised. -/
structure AgentResult where
  agent : RemoteAgent
  sent : List (List UInt8)
  raised : List RowChange
  failure : Option Failure

/-- The write a data message asks for: the row it is for, with its table, and the data. -/
structure ReceivedValue where
  table : UInt32
  info : TableInfo
  entry : UInt32
  row : MemoryRow
  data : List UInt8

namespace RemoteAgent

/-- The first entry of the map with an external id. -/
def findExternal (a : RemoteAgent) (externalId : UInt32) : Option (UInt32 × TableInfo) :=
  a.tableInfoMap.find? fun e => e.2.externalId = externalId

/-- `m_table_info_map.find`. -/
def findInfo (a : RemoteAgent) (table : UInt32) : Option TableInfo :=
  (a.tableInfoMap.find? fun e => e.1 = table).map Prod.snd

/-- A change of the entries of the map. -/
def mapInfo (a : RemoteAgent) (f : UInt32 → TableInfo → TableInfo) : RemoteAgent :=
  { a with
    tableInfoMap := a.tableInfoMap.map fun e => (e.1, f e.1 e.2)
    keys_nodup := by
      rw [List.map_map]
      exact a.keys_nodup }

/-- The opcode under which a row is sent. -/
def updateOpcode (a : RemoteAgent) : RemoteAgentOpcode :=
  if a.forceWrite then .dataUpdateAndReplay else .dataUpdate

/-- The function that the constructor subscribes to the rows of the tables that are exported
or imported: the message sent for a change. `none` for the other tables. -/
def onRowChange (a : RemoteAgent) (c : RowChange) : Option (Except Failure (List UInt8)) :=
  match a.findInfo c.table, a.dataset.row? c.table c.entry with
  | some info, some row =>
    if info.exportedOrImportedFlag = .none then none
    else some (buildSingleMsg c.data c.data.length info.externalId c.entry
      (convertTypeToFramework1 row.type) a.updateOpcode)
  | _, _ => none

/-- The body of the loop of `HandleRegisterDB`. `stack` is what its buffer holds before. -/
def registerRow (a : RemoteAgent) (stack : List UInt8) (nDB : UInt32)
    (e : UInt32 × MemoryRow) : Except Failure (List UInt8) :=
  let size := e.2.dataSize
  if size = 0 then .error .thrown
  else if registerBufferSize < size then .error .overflow
  else
    let buffer := (e.2.readBytes (some stack) size).getD stack
    buildSingleMsg buffer size nDB e.1 (convertTypeToFramework1 e.2.type) a.updateOpcode

/-- The loop of `HandleRegisterDB`: the messages sent, until it fails. -/
def registerRows (a : RemoteAgent) (stack : List UInt8) (nDB : UInt32) :
    List (UInt32 × MemoryRow) → List (List UInt8) × Option Failure
  | [] => ([], none)
  | e :: rows =>
    match a.registerRow stack nDB e with
    | .error f => ([], some f)
    | .ok msg =>
      let r := a.registerRows stack nDB rows
      (commSend raMaxDataSize msg ++ r.1, r.2)

/-- `HandleRegisterDB`. -/
def handleRegisterDB (a : RemoteAgent) (stack : List UInt8) (nDB : UInt32) :
    List (List UInt8) × Option Failure :=
  match a.findExternal nDB with
  | none => ([], none)
  | some e =>
    match a.dataset.tryGet e.1 with
    | none => ([], some .thrown)
    | some table => a.registerRows stack nDB table.rows

/-- `HandleSingleDataValue` up to its write. -/
def receiveValue (a : RemoteAgent) (msg : List UInt8) : Except Failure (Option ReceivedValue) :=
  match RemoteAgentDataMsg.read msg with
  | none => .error .thrown
  | some m =>
    match a.findExternal m.unDBIndex with
    | none => .ok none
    | some e =>
      match a.dataset.row? e.1 m.unDBEntryIndex with
      | none => .ok none
      | some row =>
        if raMaxBuff < msg.length then .error .overflow
        else .ok (some ⟨e.1, e.2, m.unDBEntryIndex, row, msg.drop RemoteAgentDataMsg.size⟩)

/-- Mark the entry of a table as acknowledged. -/
def setAcked (a : RemoteAgent) (table : UInt32) : RemoteAgent :=
  a.mapInfo fun key info => if key = table then { info with isAcked := true } else info

/-- The `Row::Write` of a value. -/
def valueCall (a : RemoteAgent) (data : List UInt8) : WriteCall :=
  ⟨some data, data.length, a.forceWrite, 0, WriteCall.readable_some data⟩

/-- The write of `HandleSingleDataValue`, and what follows it. `Row::Write` throws when the
row refuses the data. -/
def writeValue (fresh : ℕ → ℕ → UInt8) (a : RemoteAgent) (v : ReceivedValue) : AgentResult :=
  let w := v.row.writeBytes fresh (a.valueCall v.data)
  if w.result = false then ⟨a, [], [], some .thrown⟩
  else
    let b := { a with dataset := a.dataset.setRow v.table v.entry w.row }
    ⟨if v.info.exportedOrImportedFlag = .imported then b.setAcked v.table else b, [],
      if w.raised.isSome then [⟨v.table, v.entry, v.data⟩] else [], none⟩

/-- `HandleSingleDataValue`. -/
def handleSingleDataValue (fresh : ℕ → ℕ → UInt8) (a : RemoteAgent) (msg : List UInt8) :
    AgentResult :=
  match a.receiveValue msg with
  | .error f => ⟨a, [], [], some f⟩
  | .ok none => ⟨a, [], [], none⟩
  | .ok (some v) => a.writeValue fresh v

/-- `MessageHandler`, at the tick `now`. -/
def messageHandler (fresh : ℕ → ℕ → UInt8) (a : RemoteAgent) (stack : List UInt8)
    (now : UInt32) (msg : List UInt8) : AgentResult :=
  match RemoteAgentDataMsg.read msg with
  | none => ⟨a, [], [], some .thrown⟩
  | some m =>
    if m.byOpcode = RemoteAgentOpcode.keepAlive.value then
      ⟨{ a with tickGetFromLastArrivedAck := now }, [], [], none⟩
    else if m.byOpcode = RemoteAgentOpcode.registerDB.value then
      let r := a.handleRegisterDB stack m.unDBIndex
      ⟨a, r.1, [], r.2⟩
    else if m.byOpcode = RemoteAgentOpcode.dataUpdateAndReplay.value ∨
        m.byOpcode = RemoteAgentOpcode.dataUpdate.value ∨
        m.byOpcode = RemoteAgentOpcode.exportedDBReplay.value then
      a.handleSingleDataValue fresh msg
    else ⟨a, [], [], none⟩

/-! ### The periodic task -/

/-- `BuildRemoteAgentKeepAliveMsg`. -/
def keepAliveMsg : List UInt8 :=
  (RemoteAgentDataMsg.mk (.ofNat RemoteAgentDataMsg.size) RemoteAgentOpcode.keepAlive.value
    0 0 0 1).bytes

/-- `BuildRegisterMsg`. -/
def registerMsg (unDB : UInt32) : List UInt8 :=
  (RemoteAgentDataMsg.mk (.ofNat RemoteAgentDataMsg.size) RemoteAgentOpcode.registerDB.value
    unDB 0 0 0).bytes

/-- The external id of a table that is to be in step: imported, and not `-1`. -/
def importedId (a : RemoteAgent) (table : UInt32) : Option UInt32 :=
  (a.findInfo table).bind fun info =>
    if info.exportedOrImportedFlag = .imported ∧ info.externalId ≠ 0xFFFFFFFF then
      some info.externalId
    else none

/-- Whether the entry of a table is acknowledged. -/
def acked (a : RemoteAgent) (table : UInt32) : Bool :=
  match a.findInfo table with
  | some info => info.isAcked
  | none => false

/-- `SendRegistrationRequests`: the external ids asked for. The data are in step when there
are none. -/
def registrationRequests (a : RemoteAgent) : List UInt32 :=
  (a.dataset.filter fun t => !a.acked t.key).filterMap fun t => a.importedId t.key

/-- `SendRegistrationRequests`. -/
def sendRegistrationRequests (a : RemoteAgent) : AgentResult :=
  ⟨{ a with dataSynced := a.registrationRequests.isEmpty },
    a.registrationRequests.map registerMsg, [], none⟩

/-- `HandleRemoteAgentCommunicationError`. -/
def handleCommunicationError (a : RemoteAgent) : RemoteAgent :=
  { a.mapInfo fun _ info =>
      if info.exportedOrImportedFlag = .imported then { info with isAcked := false }
      else info with
    gotMsgFromRemoteAgentApp := false
    dataSynced := false }

/-- `REMOTE_AGENT_COMMUNICATION_FAILURE_TIMEOUT_IN_TICK`. -/
def communicationFailureTimeout : UInt32 := 1000

/-- `PeriodicRemoteAgentDataCollection`, at the tick `now`. -/
def periodic (a : RemoteAgent) (now : UInt32) : AgentResult :=
  if communicationFailureTimeout < now - a.tickGetFromLastArrivedAck then
    ⟨if a.gotMsgFromRemoteAgentApp then a.handleCommunicationError else a,
      [keepAliveMsg], [], none⟩
  else
    -- `HandleRemoteAgentCommunicationResume` when there was no message before
    let r := { a with gotMsgFromRemoteAgentApp := true }.sendRegistrationRequests
    { r with sent := r.sent ++ [keepAliveMsg] }

/-- `Start`: the exported tables count as acknowledged. -/
def start (a : RemoteAgent) : RemoteAgent :=
  { a.mapInfo fun _ info =>
      if info.exportedOrImportedFlag = .exported then { info with isAcked := true }
      else info with
    dataSynced := false }

end RemoteAgent

end UtilityFramework
