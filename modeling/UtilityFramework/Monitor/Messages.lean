import UtilityFramework.Lib.Memory
import UtilityFramework.Remote.DataMessages

/-!
# The messages of the monitor

A `Monitor` serves the rows of data sets to a `MonitorClient`. Each of their messages begins
with a packed structure: a length, an opcode, and the numbers of a table and a row. A
receiver is handed a `DataReader`, a pointer and a size, and reads the structure from there.
-/

namespace UtilityFramework

open Bytes Memory

/-! ### The reader of a message -/

/-- The call of `Row::Write` for these bytes, with its report forced. -/
def WriteCall.forced (data : List UInt8) (priority : UInt8) : WriteCall :=
  ⟨some data, data.length, true, priority, WriteCall.readable_some data⟩

/-- `Communication::DataReader`: the memory behind the pointer, and the size of the message in
it. -/
structure DataReader where
  buffer : ℕ → UInt8
  size : ℕ

namespace DataReader

/-- A reader on a message, in memory that holds `beyond` behind it. -/
def on (beyond : ℕ → UInt8) (msg : List UInt8) : DataReader := ⟨store beyond 0 msg, msg.length⟩

/-- `T& Read<T>()`, for a structure of `n` bytes: its bytes. -/
def read (reader : DataReader) (n : ℕ) : Option (List UInt8) :=
  if reader.size < n then none else some (load reader.buffer 0 n)

/-- `void Read<T>(T&)`, for a structure of `n` bytes: its bytes. -/
def readTo (reader : DataReader) (n : ℕ) : Option (List UInt8) :=
  if reader.size ≠ n then none else some (load reader.buffer 0 n)

/-- The call of `Row::Write`, with its report forced, for bytes of the buffer. -/
def writeCall (reader : DataReader) (off length : ℕ) (priority : UInt8) : WriteCall where
  buffer := some (load reader.buffer off length)
  size := length
  forceReport := true
  priority := priority
  readable _ h := by
    cases h
    exact length_load _ _ _

/-- The reader is on this message; whatever is in the memory behind it. -/
structure Holds (reader : DataReader) (msg : List UInt8) : Prop where
  size_eq : reader.size = msg.length
  load_eq : load reader.buffer 0 msg.length = msg

variable {reader : DataReader} {msg front data : List UInt8}

theorem holds_on (beyond : ℕ → UInt8) (msg : List UInt8) : (on beyond msg).Holds msg :=
  ⟨rfl, load_store beyond 0 msg⟩

/-- A byte of the message, in the memory behind the pointer. -/
theorem Holds.buffer_eq (h : reader.Holds msg) {i : ℕ} {x : UInt8} (hi : msg[i]? = some x) :
    reader.buffer i = x := by
  have hload := getElem?_load reader.buffer 0 msg.length i
  obtain ⟨hlt, -⟩ := List.getElem?_eq_some_iff.mp hi
  rw [h.load_eq, hi, if_pos hlt, Nat.zero_add, Option.some.injEq] at hload
  exact hload.symm

/-- The bytes of a structure at the front of the message. -/
theorem Holds.load_front (h : reader.Holds (front ++ data)) :
    load reader.buffer 0 front.length = front := by
  have hwindow := take_drop_load reader.buffer 0 (n := (front ++ data).length) (i := 0)
    (k := front.length) (by rw [List.length_append]; omega)
  rwa [h.load_eq, List.drop_zero, List.take_left, zero_add, eq_comm] at hwindow

/-- The bytes behind it. -/
theorem Holds.load_drop (h : reader.Holds (front ++ data)) :
    load reader.buffer front.length data.length = data := by
  have hwindow := take_drop_load reader.buffer 0 (n := (front ++ data).length)
    (i := front.length) (k := data.length) (by rw [List.length_append])
  rwa [h.load_eq, List.drop_left, List.take_length, zero_add, eq_comm] at hwindow

/-- Writing the bytes behind the first ones. -/
theorem Holds.writeCall (h : reader.Holds (front ++ data)) (priority : UInt8) :
    reader.writeCall front.length data.length priority = .forced data priority := by
  rw [DataReader.writeCall, WriteCall.forced, WriteCall.mk.injEq]
  exact ⟨congrArg some h.load_drop, rfl, rfl, rfl⟩

end DataReader

/-! ### The structures -/

/-- `MAX_DATA_SIZE`, the maximum of `short`. -/
def monitorMaxDataSize : ℕ := 32767

/-- `HIGHEST_PRIORITY`. -/
def highestPriority : UInt8 := 255

/-- `LOWEST_PRIORITY`. -/
def lowestPriority : UInt8 := 0

/-- `DeToMonitorDataMsgEx`; the `short` by its bits. -/
structure DeToMonitorDataMsgEx where
  shLength : UInt16
  byOpcode : UInt8
  unTable : UInt32
  unRow : UInt32
  deriving DecidableEq

namespace DeToMonitorDataMsgEx

/-- `sizeof(DeToMonitorDataMsgEx)`, packed. -/
def size : ℕ := 11

/-- The bytes of the structure. -/
def bytes (m : DeToMonitorDataMsgEx) : List UInt8 :=
  toLE 2 m.shLength.toNat ++ [m.byOpcode] ++ toLE 4 m.unTable.toNat ++ toLE 4 m.unRow.toNat

/-- The structure at the front of a buffer. -/
def ofBytes (buffer : List UInt8) : DeToMonitorDataMsgEx where
  shLength := .ofNat (ofLE (slice buffer 0 2))
  byOpcode := .ofNat (ofLE (slice buffer 2 1))
  unTable := .ofNat (ofLE (slice buffer 3 4))
  unRow := .ofNat (ofLE (slice buffer 7 4))

@[simp] theorem length_bytes (m : DeToMonitorDataMsgEx) : m.bytes.length = size := by
  simp [bytes, size]

theorem ofBytes_bytes (m : DeToMonitorDataMsgEx) : ofBytes m.bytes = m := by
  obtain ⟨shLength, byOpcode, unTable, unRow⟩ := m
  rw [ofBytes]
  congr 1
  · exact ofNat_ofLE_toLE_16 shLength
  · show UInt8.ofNat (byOpcode.toNat + 256 * 0) = byOpcode
    simp
  · exact ofNat_ofLE_toLE_32 unTable
  · exact ofNat_ofLE_toLE_32 unRow

end DeToMonitorDataMsgEx

/-- `MonitorSingleDataMsgEx`, with its header. -/
structure MonitorSingleDataMsgEx where
  shLength : UInt16
  byOpcode : UInt8
  unTimeTag : UInt32
  unTable : UInt32
  unRow : UInt32
  deriving DecidableEq

namespace MonitorSingleDataMsgEx

/-- `sizeof(MonitorSingleDataMsgEx)`, packed. -/
def size : ℕ := 15

/-- The bytes of the structure. -/
def bytes (m : MonitorSingleDataMsgEx) : List UInt8 :=
  toLE 2 m.shLength.toNat ++ [m.byOpcode] ++ toLE 4 m.unTimeTag.toNat ++
    toLE 4 m.unTable.toNat ++ toLE 4 m.unRow.toNat

/-- The structure at the front of a buffer. -/
def ofBytes (buffer : List UInt8) : MonitorSingleDataMsgEx where
  shLength := .ofNat (ofLE (slice buffer 0 2))
  byOpcode := .ofNat (ofLE (slice buffer 2 1))
  unTimeTag := .ofNat (ofLE (slice buffer 3 4))
  unTable := .ofNat (ofLE (slice buffer 7 4))
  unRow := .ofNat (ofLE (slice buffer 11 4))

@[simp] theorem length_bytes (m : MonitorSingleDataMsgEx) : m.bytes.length = size := by
  simp [bytes, size]

theorem ofBytes_bytes_append (m : MonitorSingleDataMsgEx) (data : List UInt8) :
    ofBytes (m.bytes ++ data) = m := by
  obtain ⟨shLength, byOpcode, unTimeTag, unTable, unRow⟩ := m
  rw [ofBytes]
  congr 1
  · exact ofNat_ofLE_toLE_16 shLength
  · show UInt8.ofNat (byOpcode.toNat + 256 * 0) = byOpcode
    simp
  · exact ofNat_ofLE_toLE_32 unTimeTag
  · exact ofNat_ofLE_toLE_32 unTable
  · exact ofNat_ofLE_toLE_32 unRow

theorem ofBytes_bytes (m : MonitorSingleDataMsgEx) : ofBytes m.bytes = m := by
  have h := ofBytes_bytes_append m []
  rwa [List.append_nil] at h

end MonitorSingleDataMsgEx

/-- `MonitorDBDataMsgEx`, with its header. -/
structure MonitorDBDataMsgEx where
  shLength : UInt16
  byOpcode : UInt8
  unTimeTag : UInt32
  unDBIndex : UInt32
  deriving DecidableEq

namespace MonitorDBDataMsgEx

/-- `sizeof(MonitorDBDataMsgEx)`, packed. -/
def size : ℕ := 11

/-- The bytes of the structure. -/
def bytes (m : MonitorDBDataMsgEx) : List UInt8 :=
  toLE 2 m.shLength.toNat ++ [m.byOpcode] ++ toLE 4 m.unTimeTag.toNat ++
    toLE 4 m.unDBIndex.toNat

/-- The structure at the front of a buffer. -/
def ofBytes (buffer : List UInt8) : MonitorDBDataMsgEx where
  shLength := .ofNat (ofLE (slice buffer 0 2))
  byOpcode := .ofNat (ofLE (slice buffer 2 1))
  unTimeTag := .ofNat (ofLE (slice buffer 3 4))
  unDBIndex := .ofNat (ofLE (slice buffer 7 4))

@[simp] theorem length_bytes (m : MonitorDBDataMsgEx) : m.bytes.length = size := by
  simp [bytes, size]

end MonitorDBDataMsgEx

/-- `MonitorKeepAliveMsg`, with its header. -/
structure MonitorKeepAliveMsg where
  shLength : UInt16
  byOpcode : UInt8
  unMonitorInfo : UInt32
  deriving DecidableEq

namespace MonitorKeepAliveMsg

/-- `sizeof(MonitorKeepAliveMsg)`, packed. -/
def size : ℕ := 7

/-- The bytes of the structure. -/
def bytes (m : MonitorKeepAliveMsg) : List UInt8 :=
  toLE 2 m.shLength.toNat ++ [m.byOpcode] ++ toLE 4 m.unMonitorInfo.toNat

/-- The structure at the front of a buffer. -/
def ofBytes (buffer : List UInt8) : MonitorKeepAliveMsg where
  shLength := .ofNat (ofLE (slice buffer 0 2))
  byOpcode := .ofNat (ofLE (slice buffer 2 1))
  unMonitorInfo := .ofNat (ofLE (slice buffer 3 4))

end MonitorKeepAliveMsg

/-! ### Opcodes and channels -/

/-- The opcodes of `ToMonitorOpcodesEnum` that the client distinguishes, and
`MONITOR_GET_SINGLE_DATA_EX`, which it takes for one of them. -/
inductive ToMonitorOpcode
  | getSingleDataEx
  | serverKeepAliveEx
  | singleMsg
  | singleMsgEx
  | dbMsg
  | dbMsgEx
  | debugMode
  deriving DecidableEq

/-- The value of an opcode. -/
def ToMonitorOpcode.value : ToMonitorOpcode → UInt8
  | getSingleDataEx => 0x11
  | serverKeepAliveEx => 0x15
  | singleMsg => 0x08
  | singleMsgEx => 0x18
  | dbMsg => 0x09
  | dbMsgEx => 0x19
  | debugMode => 0x20

/-- The opcodes of `FromMonitorOpcodesEnum` for the data and the priority of a row. -/
inductive FromMonitorOpcode
  | getSingleDataEx
  | getDbDataEx
  | updateDataEx
  | updateDebugStateEx
  | getDebugMode
  deriving DecidableEq

/-- The value of an opcode. -/
def FromMonitorOpcode.value : FromMonitorOpcode → UInt8
  | getSingleDataEx => 0x11
  | getDbDataEx => 0x12
  | updateDataEx => 0x13
  | updateDebugStateEx => 0x17
  | getDebugMode => 0x20

/-- `GetOpcodeExt`. -/
def DataReader.getOpcodeExt (reader : DataReader) : UInt8 := reader.buffer 2

/-- The channel of `Monitor`: the length of a message does not count its two bytes. -/
def monitorFrame : FrameFormat := ⟨2, 0, 0, false, .ofNat monitorMaxDataSize, .little⟩

/-- The channel of `MonitorClient`: the length of a message is that of the whole. -/
def monitorClientFrame : FrameFormat := ⟨2, 0, 0, true, .ofNat monitorMaxDataSize, .little⟩

/-! ### What the channel of the monitor delivers -/

/-- The front of a stream is a frame if it has the size its length field gives. -/
theorem wellFormed_take {stream : List UInt8} {n : ℕ} (hn : 2 ≤ n) (hlen : n ≤ stream.length)
    (hmax : n ≤ monitorMaxDataSize) (htotal : n = monitorFrame.total (ofLE (stream.take 2))) :
    monitorFrame.WellFormed (stream.take n) := by
  have hlength : (stream.take n).length = n := List.length_take_of_le hlen
  have hfield : monitorFrame.lengthField (stream.take n) = ofLE (stream.take 2) := by
    change ofLE ((stream.take n).take 2) = _
    rw [List.take_take, Nat.min_eq_left hn]
  refine ⟨?_, ?_, ?_⟩
  · rwa [hlength]
  · rwa [hlength, hfield]
  · rwa [hlength]

/-- The length field in a header that has been read. -/
theorem toNat_readDataSize_header {header : List UInt8} (hlen : header.length = 2)
    (buffer : ℕ → UInt8) :
    (monitorFrame.create.readDataSize (store buffer 0 header)).toNat = ofLE header := by
  have hload := load_store buffer 0 header
  rw [hlen] at hload
  rw [FrameFormat.toNat_readDataSize _ (by decide)]
  exact congrArg ofLE hload

theorem payloadSize_monitorFrame (v : UInt64) : monitorFrame.create.payloadSize v = v :=
  UInt64.add_zero v

/-- The size of a message with this length field. -/
theorem toNat_add_headerSize {v : UInt64} (hv : v.toNat < 256 ^ 2) :
    (v + monitorFrame.create.headerSize).toNat = v.toNat + 2 := by
  have htwo : monitorFrame.create.headerSize.toNat = 2 := rfl
  rw [UInt64.toNat_add, htwo]
  exact Nat.mod_eq_of_lt (by omega)

/-- A call that returns a message has found a frame at the front of the stream. -/
theorem exists_frame_of_recieve {buffer : ℕ → UInt8} {stream : List UInt8} {size : ℕ}
    (hpos : 0 < size)
    (h : (monitorFrame.create.recieve streamPort buffer stream).returned = some size) :
    ∃ m rest, stream = m ++ rest ∧ monitorFrame.WellFormed m := by
  have hfirst : 2 ≤ stream.length := by
    by_contra hnot
    have hport : streamPort stream monitorFrame.create.headerSize.toNat = none := if_neg hnot
    rw [VariableLengthProtocol.recieve, hport] at h
    cases h
  have hheader : (stream.take 2).length = 2 := List.length_take_of_le hfirst
  have hport : streamPort stream monitorFrame.create.headerSize.toNat =
      some (stream.take 2, stream.drop 2) := if_pos hfirst
  have hread := toNat_readDataSize_header hheader buffer
  have hlt := ofLE_lt (stream.take 2)
  have hne : stream.take 2 ≠ [] := by
    intro hnil
    rw [hnil] at hheader
    cases hheader
  rw [VariableLengthProtocol.recieve, hport] at h
  dsimp only at h
  generalize monitorFrame.create.readDataSize (store buffer 0 (stream.take 2)) = v at hread h
  rw [if_neg hne, payloadSize_monitorFrame] at h
  rw [← hread, hheader] at hlt
  have hsum := toNat_add_headerSize hlt
  by_cases hzero : v = 0
  · rw [hzero] at hread
    exact ⟨_, _, (List.take_append_drop 2 stream).symm,
      wellFormed_take le_rfl hfirst (by decide) (by rw [← hread]; rfl)⟩
  have hvpos : 0 < v.toNat := Nat.pos_of_ne_zero fun h0 => hzero (UInt64.toNat_inj.mp h0)
  rw [if_neg hzero] at h
  by_cases hmax : monitorFrame.create.maxDataSize < v + monitorFrame.create.headerSize
  · rw [if_pos hmax] at h
    exact absurd (Option.some.inj h) hpos.ne
  have hmax' : v.toNat + 2 ≤ monitorMaxDataSize := by
    rw [UInt64.lt_iff_toNat_lt, hsum] at hmax
    exact Nat.le_of_not_lt hmax
  refine ⟨_, _, (List.take_append_drop (v.toNat + 2) stream).symm,
    wellFormed_take (by omega) ?_ hmax' ?_⟩
  · by_contra hshort
    -- the port waits for the rest of the message
    have hrest : streamPort (stream.drop 2) v.toNat = none := by
      rw [streamPort, if_neg]
      rw [List.length_drop]
      omega
    have hall : ¬ (stream.take 2).length = (v + monitorFrame.create.placeOfDataSize +
        monitorFrame.create.sizeOfDataSize).toNat := by
      rw [UInt64.add_assoc, ← VariableLengthProtocol.headerSize, hsum, hheader]
      omega
    rw [if_neg hmax, if_neg hall, hrest] at h
    cases h
  · rw [FrameFormat.total, if_neg (by omega), if_neg (by decide), ← hread]
    exact Nat.add_comm _ 2

/-- Every message that the protocol delivers is well-formed. -/
theorem wellFormed_of_recieve {buffer : ℕ → UInt8} {stream : List UInt8} {size : ℕ}
    (hpos : 0 < size)
    (h : (monitorFrame.create.recieve streamPort buffer stream).returned = some size) :
    monitorFrame.WellFormed
      (load (monitorFrame.create.recieve streamPort buffer stream).buffer 0 size) := by
  obtain ⟨m, rest, rfl, hm⟩ := exists_frame_of_recieve hpos h
  obtain ⟨hreturned, hload, -⟩ := hm.recieve (by decide) buffer rest
  obtain rfl := Option.some.inj (h.symm.trans hreturned)
  rwa [hload]

end UtilityFramework
