import UtilityFramework.Monitor.Messages

/-!
# The monitor

`Database::Monitor`: it answers requests for a row, a table or the debug state of a row, and
writes the rows and the write priorities it is asked to. Left out are the subscriptions to
rows and tables and the requests for schemas; their opcodes have no result here.
-/

namespace UtilityFramework

open Bytes

/-- `Monitor`, without its channel, its timer and its subscriptions. -/
structure Monitor where
  datasets : List DataSet
  gotMsgFromMonitorApp : Bool
  tickGetFromLastArrivedAck : UInt32

/-- What an event has done: the monitor after it, the messages sent, and the exception that
has been caught. -/
structure MonitorResult where
  monitor : Monitor
  sent : List (List UInt8)
  failure : Option Failure

namespace Monitor

/-! ### The rows of the data sets -/

/-- The first data set with a table. -/
def dataset? (m : Monitor) (nTable : UInt32) : Option DataSet :=
  m.datasets.find? fun ds => (ds.tryGet nTable).isSome

/-- `table[nRow]`, in the first data set with the table. -/
def row? (m : Monitor) (nTable nRow : UInt32) : Option MemoryRow :=
  (m.dataset? nTable).bind fun ds => ds.row? nTable nRow

/-- The data sets after a row of a table has become `row`, in the first with the table. -/
def setFirst (nTable nRow : UInt32) (row : MemoryRow) : List DataSet → List DataSet
  | [] => []
  | ds :: rest =>
    if (ds.tryGet nTable).isSome then ds.setRow nTable nRow row :: rest
    else ds :: setFirst nTable nRow row rest

/-- The monitor after a row has become `row`. -/
def setRow (m : Monitor) (nTable nRow : UInt32) (row : MemoryRow) : Monitor :=
  { m with datasets := setFirst nTable nRow row m.datasets }

/-- A row of a list of data sets, in the first with the table. -/
def rowIn (datasets : List DataSet) (nTable nRow : UInt32) : Option MemoryRow :=
  (datasets.find? fun ds => (ds.tryGet nTable).isSome).bind fun ds => ds.row? nTable nRow

theorem rowIn_cons (ds : DataSet) (rest : List DataSet) (nTable nRow : UInt32) :
    rowIn (ds :: rest) nTable nRow =
      if (ds.tryGet nTable).isSome then ds.row? nTable nRow else rowIn rest nTable nRow := by
  rw [rowIn, List.find?_cons]
  split_ifs with hhas
  · rw [hhas]
    rfl
  · rw [Bool.not_eq_true] at hhas
    rw [hhas]
    rfl

/-- The rows of a list of data sets after one of them has been set. -/
theorem rowIn_setFirst (nTable nRow : UInt32) (row : MemoryRow) (datasets : List DataSet)
    (nTable' nRow' : UInt32) :
    rowIn (setFirst nTable nRow row datasets) nTable' nRow' =
      if nTable' = nTable ∧ nRow' = nRow then (rowIn datasets nTable nRow).map fun _ => row
      else rowIn datasets nTable' nRow' := by
  induction datasets with
  | nil => simp [setFirst, rowIn]
  | cons ds rest ih =>
    have hsome : ((ds.setRow nTable nRow row).tryGet nTable').isSome =
        (ds.tryGet nTable').isSome := by
      rw [DataSet.tryGet_setRow, Option.isSome_map]
    rw [rowIn_cons, rowIn_cons]
    by_cases hhas : (ds.tryGet nTable).isSome = true
    · rw [setFirst, if_pos hhas, if_pos hhas, rowIn_cons, hsome]
      by_cases hhas' : (ds.tryGet nTable').isSome = true
      · rw [if_pos hhas', if_pos hhas', DataSet.row?_setRow]
      · have hne : ¬(nTable' = nTable ∧ nRow' = nRow) := fun h => hhas' (h.1 ▸ hhas)
        rw [if_neg hhas', if_neg hhas', if_neg hne]
    · rw [setFirst, if_neg hhas, if_neg hhas, rowIn_cons]
      by_cases hhas' : (ds.tryGet nTable').isSome = true
      · have hne : ¬(nTable' = nTable ∧ nRow' = nRow) := fun h => hhas (h.1 ▸ hhas')
        rw [if_pos hhas', if_pos hhas', if_neg hne]
      · rw [if_neg hhas', if_neg hhas', ih]

theorem row?_setRow (m : Monitor) (nTable nRow : UInt32) (row : MemoryRow)
    (nTable' nRow' : UInt32) :
    (m.setRow nTable nRow row).row? nTable' nRow' =
      if nTable' = nTable ∧ nRow' = nRow then (m.row? nTable nRow).map fun _ => row
      else m.row? nTable' nRow' :=
  rowIn_setFirst nTable nRow row m.datasets nTable' nRow'

/-! ### Messages with data -/

/-- `BuildMonitorSingleMsg`: what the channel takes. `Length` is the size of the values. -/
def buildMonitorSingleMsg (values : List UInt8) (nTable nRow : UInt32) (opcode : UInt8)
    (now : UInt32) : Except Failure (List (List UInt8)) :=
  let messageLength := Size.add values.length MonitorSingleDataMsgEx.size
  if monitorMaxDataSize < messageLength then .error .thrown
  else
    let stMsg : MonitorSingleDataMsgEx := ⟨.ofNat messageLength, opcode, now, nTable, nRow⟩
    .ok (commSend monitorMaxDataSize
      ((stMsg.bytes ++ values).take (Size.ofInt16 messageLength)))

/-- `BuildMonitorDBMsg`. The table's number is cut to a byte. -/
def buildMonitorDBMsg (values : List UInt8) (unDB now : UInt32) :
    Except Failure (List (List UInt8)) :=
  let messageLength := Size.add values.length MonitorDBDataMsgEx.size
  if monitorMaxDataSize < messageLength then .error .thrown
  else
    let stMsg : MonitorDBDataMsgEx :=
      ⟨.ofNat messageLength, ToMonitorOpcode.dbMsg.value, now, unDB.toUInt8.toUInt32⟩
    .ok (commSend monitorMaxDataSize
      ((stMsg.bytes ++ values).take (Size.ofInt16 messageLength)))

/-- `GetSingleData`; `query` is what `m_dataQueryBuffer` holds before. -/
def getSingleData (m : Monitor) (query : List UInt8) (nTable nRow now : UInt32) :
    Except Failure (List (List UInt8)) :=
  match m.row? nTable nRow with
  | none => .error .thrown
  | some row =>
    let dataSize := row.dataSize
    if query.length < dataSize then .error .thrown
    else
      let buffer := if 0 < dataSize then (row.readBytes (some query) dataSize).getD query
        else query
      buildMonitorSingleMsg (buffer.take dataSize) nTable nRow ToMonitorOpcode.singleMsgEx.value
        now

/-- The loop of `GetDBData`: the buffer after the rows have been copied behind the bytes
copied before, and the number of all bytes copied. -/
def copyRows (buffer : List UInt8) (copied : ℕ) :
    List (UInt32 × MemoryRow) → Except Failure (List UInt8 × ℕ)
  | [] => .ok (buffer, copied)
  | e :: rows =>
    let dataSize := e.2.dataSize
    if buffer.length < Size.add dataSize copied then .error .thrown
    else if 0 < dataSize then
      if buffer.length < copied + dataSize then .error .overflow
      else
        match e.2.readBytes (some (buffer.drop copied)) dataSize with
        | none => .error .thrown
        | some window =>
          copyRows (buffer.take copied ++ window) (Size.add copied dataSize) rows
    else copyRows buffer copied rows

/-- `GetDBData`. -/
def getDBData (m : Monitor) (query : List UInt8) (nTable now : UInt32) :
    Except Failure (List (List UInt8)) :=
  match (m.dataset? nTable).bind fun ds => ds.tryGet nTable with
  | none => .error .thrown
  | some table =>
    match copyRows query 0 table.rows with
    | .error f => .error f
    | .ok (buffer, copied) => buildMonitorDBMsg (buffer.take copied) nTable now

/-! ### The debug state -/

/-- The call of `Row::Write` in `UpdateDebugValue`: the data behind the header, as many bytes
as the length field says without the nine bytes of the header it counts. -/
def updateCall (reader : DataReader) (shLength : UInt16) : WriteCall :=
  reader.writeCall DeToMonitorDataMsgEx.size (Size.sub (Size.ofInt16 shLength.toNat) 9)
    highestPriority

/-- The write priority after a request to change the debug state. -/
def toggled (row : MemoryRow) : MemoryRow :=
  if row.writePriority = highestPriority then row.setWritePriority lowestPriority
  else row.setWritePriority highestPriority

/-- `UpdateDebugValue`. -/
def updateDebugValue (fresh : ℕ → ℕ → UInt8) (m : Monitor) (nTable nRow : UInt32)
    (reader : DataReader) (shLength : UInt16) (setDebugState : Bool) : MonitorResult :=
  match m.row? nTable nRow with
  | none => ⟨m, [], some .thrown⟩
  | some row =>
    if setDebugState then ⟨m.setRow nTable nRow (toggled row), [], none⟩
    else
      let w := row.writeBytes fresh (updateCall reader shLength)
      if w.result then ⟨m.setRow nTable nRow w.row, [], none⟩ else ⟨m, [], some .thrown⟩

/-- The message of `GetDebugState` for a row. -/
def debugStateMsg (row : MemoryRow) (nTable nRow now : UInt32) : List UInt8 :=
  (MonitorSingleDataMsgEx.mk (.ofNat (1 + MonitorSingleDataMsgEx.size))
    ToMonitorOpcode.debugMode.value now nTable nRow).bytes ++
      [if row.writePriority = highestPriority then 1 else 0]

/-- `GetDebugState`. -/
def getDebugState (m : Monitor) (nTable nRow now : UInt32) : MonitorResult :=
  match m.row? nTable nRow with
  | none => ⟨m, [], some .thrown⟩
  | some row => ⟨m, commSend monitorMaxDataSize (debugStateMsg row nTable nRow now), none⟩

/-! ### Events -/

/-- What a request that changes nothing has done. -/
def answer (m : Monitor) (r : Except Failure (List (List UInt8))) : MonitorResult :=
  match r with
  | .ok sent => ⟨m, sent, none⟩
  | .error f => ⟨m, [], some f⟩

/-- `MONITOR_GET_KEEP_ALIVE_OPCODE`. -/
def getKeepAliveOpcode : UInt8 := 0x05

/-- `MessageHandler`, at the tick `now`. `query` is what `m_dataQueryBuffer` holds. -/
def messageHandler (fresh : ℕ → ℕ → UInt8) (m : Monitor) (query : List UInt8) (now : UInt32)
    (reader : DataReader) : Option MonitorResult :=
  let opcode := reader.getOpcodeExt
  if opcode = getKeepAliveOpcode then
    some ⟨{ m with tickGetFromLastArrivedAck := now }, [], none⟩
  else if opcode = FromMonitorOpcode.getDbDataEx.value then
    if reader.size ≤ 2 then some ⟨m, [], none⟩
    else
      -- `DeToMonitorGetDataMsgEx`, of which only the table is used
      match reader.read 7 with
      | none => some ⟨m, [], some .thrown⟩
      | some buffer =>
        some (m.answer (m.getDBData query (.ofNat (ofLE (slice buffer 3 4))) now))
  else
    match reader.read DeToMonitorDataMsgEx.size with
    | none => some ⟨m, [], some .thrown⟩
    | some buffer =>
      let msg := DeToMonitorDataMsgEx.ofBytes buffer
      if opcode = FromMonitorOpcode.getSingleDataEx.value then
        some (m.answer (m.getSingleData query msg.unTable msg.unRow now))
      else if opcode = FromMonitorOpcode.updateDataEx.value then
        some (m.updateDebugValue fresh msg.unTable msg.unRow reader msg.shLength false)
      else if opcode = FromMonitorOpcode.updateDebugStateEx.value then
        some (m.updateDebugValue fresh msg.unTable msg.unRow reader msg.shLength true)
      else if opcode = FromMonitorOpcode.getDebugMode.value then
        some (m.getDebugState msg.unTable msg.unRow now)
      else none

/-- What `MessageHandler` does with a request for a row. -/
def handle (fresh : ℕ → ℕ → UInt8) (m : Monitor) (query : List UInt8) (now : UInt32)
    (reader : DataReader) (msg : DeToMonitorDataMsgEx) : FromMonitorOpcode → MonitorResult
  | .getSingleDataEx => m.answer (m.getSingleData query msg.unTable msg.unRow now)
  | .getDbDataEx => m.answer (m.getDBData query msg.unTable now)
  | .updateDataEx => m.updateDebugValue fresh msg.unTable msg.unRow reader msg.shLength false
  | .updateDebugStateEx =>
    m.updateDebugValue fresh msg.unTable msg.unRow reader msg.shLength true
  | .getDebugMode => m.getDebugState msg.unTable msg.unRow now

theorem messageHandler_eq {fresh : ℕ → ℕ → UInt8} {m : Monitor} {query : List UInt8}
    {now : UInt32} {reader : DataReader} {msg : DeToMonitorDataMsgEx} {data : List UInt8}
    (hreader : reader.Holds (msg.bytes ++ data)) (op : FromMonitorOpcode)
    (hop : msg.byOpcode = op.value) (hne : op ≠ .getDbDataEx) :
    m.messageHandler fresh query now reader = some (m.handle fresh query now reader msg op) := by
  have hsize := hreader.size_eq
  rw [List.length_append, DeToMonitorDataMsgEx.length_bytes] at hsize
  have hopcode : reader.getOpcodeExt = op.value := hreader.buffer_eq (congrArg some hop)
  have hfront := hreader.load_front
  rw [DeToMonitorDataMsgEx.length_bytes] at hfront
  have hread : reader.read DeToMonitorDataMsgEx.size = some msg.bytes := by
    rw [DataReader.read, if_neg (by omega), hfront]
  simp only [messageHandler, hopcode, hread, DeToMonitorDataMsgEx.ofBytes_bytes]
  cases op with
  | getDbDataEx => exact absurd rfl hne
  | getSingleDataEx => rfl
  | updateDataEx => rfl
  | updateDebugStateEx => rfl
  | getDebugMode => rfl

/-- `BuildMonitorKeepAliveMsg`: the message. -/
def keepAliveMsg : List UInt8 :=
  (MonitorKeepAliveMsg.mk (.ofNat MonitorKeepAliveMsg.size)
    ToMonitorOpcode.serverKeepAliveEx.value 2).bytes

/-- `MONITOR_COMMUNICATION_FAILURE_TIMEOUT_IN_TICK`. -/
def communicationFailureTimeout : UInt32 := 3000

/-- `PeriodicMonitorDataCollection`, at the tick `now`. -/
def periodic (m : Monitor) (now : UInt32) : MonitorResult :=
  let late := communicationFailureTimeout < now - m.tickGetFromLastArrivedAck
  ⟨{ m with gotMsgFromMonitorApp := !late }, if late then [] else [keepAliveMsg], none⟩

end Monitor

end UtilityFramework
