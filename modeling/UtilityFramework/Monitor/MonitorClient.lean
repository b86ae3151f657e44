import UtilityFramework.Monitor.Monitor

/-!
# The client of the monitor

`Database::MonitorClient`: it writes the rows it is sent, sends the data of rows, and keeps
the debug states of rows in a map, from which it decides whether to ask for a change. Left
out are its subscriptions, and the callback that is told of the connection.

Where a function copies without a check, its reads of the message are listed, and a copy
beyond `m_dataQueryBuffer` is a `Failure.overflow`.
-/

namespace UtilityFramework

open Bytes Memory

/-- `MonitorClient`, without its channel, its timer and its subscriptions. -/
structure MonitorClient where
  dataset : DataSet
  monitorVersion : UInt32
  gotMsgFromMonitorApp : Bool
  tickGetFromLastArrivedAck : UInt32
  debugStateMap : UInt32 × UInt32 → Option Bool

/-- What an event has done: the client after it, the messages sent, and how it has failed. -/
structure ClientResult where
  client : MonitorClient
  sent : List (List UInt8)
  failure : Option Failure

/-- A part of a buffer. -/
structure ByteRange where
  offset : ℕ
  size : ℕ
  deriving DecidableEq

/-- What a message for a row has done: the client after it, the parts of the message that
have been read, and how it has failed. -/
structure RowReceived where
  client : MonitorClient
  reads : List ByteRange
  failure : Option Failure

/-- How many bytes of the caller's buffer `write_bytes` compares or copies. -/
def MemoryRow.bytesRead (row : MemoryRow) (call : WriteCall) : ℕ :=
  if (call.buffer = none ∨ call.size > row.maxSize ∨ call.size = 0) ∧
      row.type ≠ .emptyType then 0
  else if call.priority < row.writePriority then 0
  else if row.type ≠ .emptyType then call.size
  else 0

namespace MonitorClient

/-! ### What the client receives -/

/-- `ReceivedSingleRow`. The length of the data is a difference of a `short` and a `size_t`. -/
def receivedSingleRow (fresh : ℕ → ℕ → UInt8) (c : MonitorClient) (reader : DataReader) :
    RowReceived :=
  match reader.read MonitorSingleDataMsgEx.size with
  | none => ⟨c, [], some .thrown⟩
  | some buffer =>
    let msg := MonitorSingleDataMsgEx.ofBytes buffer
    let header : ByteRange := ⟨0, MonitorSingleDataMsgEx.size⟩
    match c.dataset.tryGet msg.unTable with
    | none => ⟨c, [header], none⟩
    | some table =>
      match table.queryRow msg.unRow with
      | none => ⟨c, [header], none⟩
      | some row =>
        let length := Size.sub (Size.ofInt16 msg.shLength.toNat) MonitorSingleDataMsgEx.size
        if reader.size < length then ⟨c, [header], none⟩
        else
          let call := reader.writeCall MonitorSingleDataMsgEx.size length 0
          let w := row.writeBytes fresh call
          ⟨{ c with dataset := c.dataset.setRow msg.unTable msg.unRow w.row },
            [header, ⟨MonitorSingleDataMsgEx.size, row.bytesRead call⟩],
            if w.result then none else some .thrown⟩

/-- The loop of `WriteDBData`, from the row with key `i` on, for `n` further rows. The copied
bytes are those at twice the offset, which counts entries of a `uint16_t` buffer. -/
def writeRows (fresh : ℕ → ℕ → UInt8) (reader : DataReader) (nTable : UInt32) :
    ℕ → ℕ → ℕ → DataSet → DataSet × Option Failure
  | 0, _, _, ds => (ds, none)
  | n + 1, i, copied, ds =>
    match ds.row? nTable (.ofNat i) with
    | none => (ds, some .thrown)
    | some row =>
      let dataSize := row.dataSize
      if reader.size < Size.add dataSize copied then (ds, none)
      else if monitorMaxDataSize < dataSize then (ds, some .overflow)
      else
        let w := row.writeBytes fresh (reader.writeCall (2 * copied) dataSize 0)
        if w.result then
          writeRows fresh reader nTable n (i + 1) (Size.add copied dataSize)
            (ds.setRow nTable (.ofNat i) w.row)
        else (ds, some .thrown)

/-- `WriteDBData`. -/
def writeDBData (fresh : ℕ → ℕ → UInt8) (c : MonitorClient) (reader : DataReader) :
    ClientResult :=
  match reader.readTo MonitorDBDataMsgEx.size with
  | none => ⟨c, [], some .thrown⟩
  | some buffer =>
    let nTable := (MonitorDBDataMsgEx.ofBytes buffer).unDBIndex
    match c.dataset.tryGet nTable with
    | none => ⟨c, [], none⟩
    | some table =>
      let r := writeRows fresh reader nTable table.rows.length 0 MonitorDBDataMsgEx.size c.dataset
      ⟨{ c with dataset := r.1 }, [], r.2⟩

/-- `UpdateDebugState`. -/
def updateDebugState (c : MonitorClient) (reader : DataReader) : MonitorClient :=
  let msg := MonitorSingleDataMsgEx.ofBytes (load reader.buffer 0 MonitorSingleDataMsgEx.size)
  let debugState := decide (reader.buffer MonitorSingleDataMsgEx.size ≠ 0)
  { c with
    debugStateMap := Function.update c.debugStateMap (msg.unTable, msg.unRow) (some debugState) }

/-- The keep-alive branch of `MessageClientHandler`, at the tick `now`. -/
def keepAlive (c : MonitorClient) (now : UInt32) (reader : DataReader) : ClientResult :=
  match reader.readTo MonitorKeepAliveMsg.size with
  | none => ⟨c, [], some .thrown⟩
  | some buffer =>
    ⟨{ c with
        monitorVersion := (MonitorKeepAliveMsg.ofBytes buffer).unMonitorInfo
        tickGetFromLastArrivedAck := now }, [], none⟩

/-- `MessageClientHandler`, at the tick `now`. The opcodes it does not know, and those it only
prints, do nothing. -/
def messageClientHandler (fresh : ℕ → ℕ → UInt8) (c : MonitorClient) (now : UInt32)
    (reader : DataReader) : ClientResult :=
  let opcode := reader.getOpcodeExt
  if opcode = ToMonitorOpcode.getSingleDataEx.value ∨
      opcode = ToMonitorOpcode.singleMsg.value ∨
      opcode = ToMonitorOpcode.singleMsgEx.value then
    let r := c.receivedSingleRow fresh reader
    ⟨r.client, [], r.failure⟩
  else if opcode = ToMonitorOpcode.dbMsg.value ∨ opcode = ToMonitorOpcode.dbMsgEx.value then
    c.writeDBData fresh reader
  else if opcode = ToMonitorOpcode.serverKeepAliveEx.value then c.keepAlive now reader
  else if opcode = ToMonitorOpcode.debugMode.value then ⟨c.updateDebugState reader, [], none⟩
  else ⟨c, [], none⟩

/-- The keep-alive of the monitor tells the client of version 2. -/
theorem messageClientHandler_keepAliveMsg (fresh : ℕ → ℕ → UInt8) (c : MonitorClient)
    (now : UInt32) (beyond : ℕ → UInt8) :
    c.messageClientHandler fresh now (.on beyond Monitor.keepAliveMsg) =
      ⟨{ c with monitorVersion := 2, tickGetFromLastArrivedAck := now }, [], none⟩ := rfl

/-! ### What the client sends -/

/-- A request for a row, without data: its length does not count the two bytes of the
length. -/
def request (opcode : FromMonitorOpcode) (tableId entryId : UInt32) : List UInt8 :=
  (DeToMonitorDataMsgEx.mk (.ofNat (DeToMonitorDataMsgEx.size - 2)) opcode.value tableId
    entryId).bytes

/-- `SendSingleData`. A size that is too large is only printed. -/
def sendSingleData (c : MonitorClient) (tableId entryId : UInt32) (data : List UInt8) :
    ClientResult :=
  let shLength := UInt16.ofNat data.length
  let msg : DeToMonitorDataMsgEx :=
    ⟨if 1 < c.monitorVersion then shLength + .ofNat (DeToMonitorDataMsgEx.size - 2) else shLength,
      FromMonitorOpcode.updateDataEx.value, tableId, entryId⟩
  if monitorMaxDataSize < DeToMonitorDataMsgEx.size + data.length then ⟨c, [], some .overflow⟩
  else ⟨c, commSend monitorMaxDataSize (msg.bytes ++ data), none⟩

/-- The result of `DebugState`. -/
def debugStateView (c : MonitorClient) (tableId rowId : UInt32) : Bool :=
  c.gotMsgFromMonitorApp && (c.debugStateMap (tableId, rowId)).getD false

/-- What `DebugState` sends. -/
def debugStateSent (c : MonitorClient) (tableId rowId : UInt32) : List (List UInt8) :=
  if c.gotMsgFromMonitorApp then
    commSend monitorMaxDataSize (request .getDebugMode tableId rowId)
  else []

/-- `EnterDebugState`. -/
def enterDebugState (c : MonitorClient) (tableId entryId : UInt32) (debugState : Bool) :
    ClientResult :=
  if c.debugStateView tableId entryId = debugState then
    ⟨c, c.debugStateSent tableId entryId, none⟩
  else
    ⟨{ c with
        debugStateMap := Function.update c.debugStateMap (tableId, entryId) (some debugState) },
      c.debugStateSent tableId entryId ++
        commSend monitorMaxDataSize (request .updateDebugStateEx tableId entryId) ++
        commSend monitorMaxDataSize (request .getDebugMode tableId entryId), none⟩

/-- `BuildMonitorClientKeepAliveMsg`: the message. -/
def keepAliveMsg : List UInt8 := toLE 2 1 ++ [Monitor.getKeepAliveOpcode]

/-- `MONITOR_COMMUNICATION_FAILURE_TIMEOUT_IN_TICK`. -/
def communicationFailureTimeout : UInt32 := 3000

/-- `PeriodicMonitorDataCollection`, at the tick `now`. -/
def periodic (c : MonitorClient) (now : UInt32) : ClientResult :=
  let late := communicationFailureTimeout < now - c.tickGetFromLastArrivedAck
  ⟨{ c with gotMsgFromMonitorApp := !late }, [keepAliveMsg], none⟩

end MonitorClient

end UtilityFramework
