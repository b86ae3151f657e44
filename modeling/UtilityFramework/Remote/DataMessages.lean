import UtilityFramework.Remote.RemoteAgent

/-!
# Data messages of the remote agent

What a data message is made of, how it is taken apart, and how large the data of a row may be
for all the copies on the way to fit.
-/

namespace UtilityFramework

open Bytes

/-! ### The header -/

theorem ofNat_ofLE_toLE_16 (x : UInt16) : UInt16.ofNat (ofLE (toLE 2 x.toNat)) = x := by
  apply UInt16.toNat_inj.mp
  rw [UInt16.toNat_ofNat', ofLE_toLE]
  have := x.toNat_lt
  omega

theorem ofNat_ofLE_toLE_32 (x : UInt32) : UInt32.ofNat (ofLE (toLE 4 x.toNat)) = x := by
  apply UInt32.toNat_inj.mp
  rw [UInt32.toNat_ofNat', ofLE_toLE]
  have := x.toNat_lt
  omega

namespace RemoteAgentDataMsg

@[simp] theorem length_bytes (m : RemoteAgentDataMsg) : m.bytes.length = size := by
  simp [bytes, size]

/-- Reading the structure back, whatever follows it. -/
theorem read_bytes_append (m : RemoteAgentDataMsg) (data : List UInt8) :
    read (m.bytes ++ data) = some m := by
  have hlen : ¬(m.bytes ++ data).length < size := by
    rw [List.length_append, length_bytes]
    omega
  rw [read, if_neg hlen, Option.some.injEq]
  obtain ⟨shLength, byOpcode, unDBIndex, unDBEntryIndex, unTimeTag, nCellType⟩ := m
  congr 1
  · exact ofNat_ofLE_toLE_16 shLength
  · show UInt8.ofNat (byOpcode.toNat + 256 * 0) = byOpcode
    simp
  · exact ofNat_ofLE_toLE_32 unDBIndex
  · exact ofNat_ofLE_toLE_32 unDBEntryIndex
  · exact ofNat_ofLE_toLE_32 unTimeTag
  · exact ofNat_ofLE_toLE_32 nCellType

end RemoteAgentDataMsg

/-! ### Building a message -/

/-- The header of a data message for `n` bytes. -/
def dataHeader (n : ℕ) (unDB unEntry rowType : UInt32) (opcode : RemoteAgentOpcode) :
    RemoteAgentDataMsg :=
  ⟨.ofNat (Size.add n RemoteAgentDataMsg.size), opcode.value, unDB, unEntry, 0, rowType⟩

section Build

variable (values : List UInt8) {size : ℕ} (unDB unEntry rowType : UInt32)
  (opcode : RemoteAgentOpcode)

/-- `BuildSingleMsg` copies the values whole or not at all, and nothing of the message is cut
off when its length is cast to `short`. -/
theorem buildSingleMsg_eq (size : ℕ) :
    buildSingleMsg values size unDB unEntry rowType opcode =
      if raMaxBuff < Size.ofInt32 size then .error .overflow
      else .ok ((dataHeader (Size.ofInt32 size) unDB unEntry rowType opcode).bytes ++
        values.take (Size.ofInt32 size)) := by
  simp only [buildSingleMsg]
  generalize Size.ofInt32 size = n
  split_ifs with h
  · rfl
  · rw [raMaxBuff] at h
    have hadd : Size.add n RemoteAgentDataMsg.size = n + 19 :=
      Size.add_of_lt (by rw [RemoteAgentDataMsg.size, Size.modulus]; omega)
    have hbytes : ((dataHeader n unDB unEntry rowType opcode).bytes ++
        values.take n).length ≤ n + 19 := by
      rw [List.length_append, RemoteAgentDataMsg.length_bytes, List.length_take,
        RemoteAgentDataMsg.size]
      omega
    rw [dataHeader, hadd] at hbytes ⊢
    rw [Size.ofInt16_of_lt (by omega), List.take_of_length_le hbytes]

theorem buildSingleMsg_of_le (h : size ≤ raMaxBuff) :
    buildSingleMsg values size unDB unEntry rowType opcode =
      .ok ((dataHeader size unDB unEntry rowType opcode).bytes ++ values.take size) := by
  have hsize : Size.ofInt32 size = size :=
    Size.ofInt32_of_lt (by rw [raMaxBuff] at h; omega)
  rw [buildSingleMsg_eq, hsize, if_neg (Nat.not_lt.mpr h)]

/-- The length field of a message is its length, as a frame of the channel. -/
def remoteAgentFrame : FrameFormat := ⟨2, 0, 0, true, .ofNat raMaxDataSize, .little⟩

theorem length_dataMsg (n : ℕ) (data : List UInt8) :
    ((dataHeader n unDB unEntry rowType opcode).bytes ++ data).length =
      RemoteAgentDataMsg.size + data.length := by
  rw [List.length_append, RemoteAgentDataMsg.length_bytes]

theorem lengthField_dataMsg {data : List UInt8} (h : data.length ≤ raMaxBuff) :
    remoteAgentFrame.lengthField
        ((dataHeader data.length unDB unEntry rowType opcode).bytes ++ data) =
      RemoteAgentDataMsg.size + data.length := by
  rw [raMaxBuff] at h
  show ofLE (toLE 2 (dataHeader data.length unDB unEntry rowType opcode).shLength.toNat) = _
  rw [ofLE_toLE, dataHeader, RemoteAgentDataMsg.size, Size.add_of_lt
    (by rw [Size.modulus]; omega), UInt16.toNat_ofNat']
  omega

/-- A data message is one of the frames into which the channel of the receiver cuts its
stream. -/
theorem wellFormed_dataMsg {data : List UInt8} (h : data.length ≤ raMaxBuff) :
    remoteAgentFrame.WellFormed
      ((dataHeader data.length unDB unEntry rowType opcode).bytes ++ data) := by
  have hlen := length_dataMsg unDB unEntry rowType opcode data.length data
  have hfield := lengthField_dataMsg unDB unEntry rowType opcode h
  have hhead : remoteAgentFrame.header = 2 := rfl
  have hmax : remoteAgentFrame.maxDataSize.toNat = 32767 := rfl
  rw [RemoteAgentDataMsg.size] at hlen hfield
  rw [raMaxBuff] at h
  refine ⟨?_, ?_, ?_⟩
  · omega
  · rw [hfield, hlen, FrameFormat.total, if_neg (by omega)]
    rfl
  · omega

end Build

/-! ### Taking a message apart -/

namespace RemoteAgent

variable {a : RemoteAgent} {externalId entry table : UInt32} {info : TableInfo}
  {row : MemoryRow}

/-- A data message for a row the agent has: its data are for the row if the message, with its
header, fits the buffer of the receiver. -/
theorem receiveValue_dataMsg (hext : a.findExternal externalId = some (table, info))
    (hrow : a.dataset.row? table entry = some row) (n : ℕ) (rowType : UInt32)
    (opcode : RemoteAgentOpcode) (data : List UInt8) :
    a.receiveValue ((dataHeader n externalId entry rowType opcode).bytes ++ data) =
      if raMaxBuff < RemoteAgentDataMsg.size + data.length then .error .overflow
      else .ok (some ⟨table, info, entry, row, data⟩) := by
  have hdb : (dataHeader n externalId entry rowType opcode).unDBIndex = externalId := rfl
  have hentry : (dataHeader n externalId entry rowType opcode).unDBEntryIndex = entry := rfl
  have hlen := RemoteAgentDataMsg.length_bytes (dataHeader n externalId entry rowType opcode)
  rw [receiveValue, RemoteAgentDataMsg.read_bytes_append]
  simp only [hdb, hext, hentry, hrow, List.length_append, hlen]
  rw [← hlen, List.drop_left]

/-! ### From one agent to the other -/

/-- What the sender has made of a row arrives: a message is handed to the channel whole, with
its own length in its length field, and `HandleSingleDataValue` takes exactly the data `v`
from it. -/
def Arrives (receiver : RemoteAgent) (sent : Except Failure (List UInt8))
    (v : ReceivedValue) : Prop :=
  ∃ msg, sent = .ok msg ∧ commSend raMaxDataSize msg = [msg] ∧
    remoteAgentFrame.lengthField msg = msg.length ∧ receiver.receiveValue msg = .ok (some v)

variable {receiver : RemoteAgent}

/-- Data of any size go through `BuildSingleMsg` and `HandleSingleDataValue` precisely when,
with their header, they fit the buffer of the receiver. -/
theorem arrives_buildSingleMsg_iff (hext : receiver.findExternal externalId = some (table, info))
    (hrow : receiver.dataset.row? table entry = some row) {values : List UInt8} {size : ℕ}
    (rowType : UInt32) (opcode : RemoteAgentOpcode) (hsize : size ≤ values.length) :
    receiver.Arrives (buildSingleMsg values size externalId entry rowType opcode)
        ⟨table, info, entry, row, values.take size⟩ ↔
      RemoteAgentDataMsg.size + size ≤ raMaxBuff := by
  constructor
  · rintro ⟨msg, hmsg, -, -, hrecv⟩
    rw [buildSingleMsg_eq] at hmsg
    split_ifs at hmsg with hover
    obtain rfl : _ = msg := by simpa using hmsg
    rw [receiveValue_dataMsg hext hrow] at hrecv
    split_ifs at hrecv with hfit
    -- the data are those taken out, so that nothing was lost when the size was cast
    have hdata : values.take (Size.ofInt32 size) = values.take size := by
      simpa using hrecv
    have hlen := congrArg List.length hdata
    rw [List.length_take, List.length_take, Nat.min_eq_left hsize] at hlen
    rw [List.length_take] at hfit
    omega
  · intro h
    have hle : size ≤ raMaxBuff := by omega
    have htake : (values.take size).length = size := by
      rw [List.length_take, Nat.min_eq_left hsize]
    have hlen := length_dataMsg externalId entry rowType opcode size (values.take size)
    have hfield := lengthField_dataMsg externalId entry rowType opcode
      (le_of_eq_of_le htake hle)
    rw [htake] at hlen hfield
    refine ⟨_, buildSingleMsg_of_le _ _ _ _ _ hle, ?_, ?_, ?_⟩
    · rw [raMaxBuff, RemoteAgentDataMsg.size] at h
      rw [commSend, hlen, raMaxDataSize, RemoteAgentDataMsg.size, if_neg (by omega)]
    · rw [hfield, hlen]
    · rw [receiveValue_dataMsg hext hrow, if_neg (by rw [htake]; omega)]

end RemoteAgent

/-- Data as they are read from a row of size `n`: with zeros up to the size. -/
def padded (n : ℕ) (data : List UInt8) : List UInt8 := (data ++ List.replicate n 0).take n

/-- A row as it is read in full. -/
def MemoryRow.full (row : MemoryRow) : List UInt8 := padded row.dataSize row.stored

namespace RemoteAgent

section Sizes

variable (sender : RemoteAgent) (entry : UInt32) {row : MemoryRow}

/-- The buffer of `HandleRegisterDB` holds the row as it is read in full. -/
theorem registerRow_eq {payload : List UInt8} {priority : UInt8}
    (hrep : Represents row payload priority) (hpos : 0 < row.dataSize)
    (hle : row.dataSize ≤ registerBufferSize) (stack : List UInt8) (nDB : UInt32) :
    ∃ buffer, row.dataSize ≤ buffer.length ∧ buffer.take row.dataSize = row.full ∧
      sender.registerRow stack nDB (entry, row) =
        buildSingleMsg buffer row.dataSize nDB entry (convertTypeToFramework1 row.type)
          sender.updateOpcode := by
  have hread := hrep.readBytes_eq hpos (le_refl _) stack
  have hfull : ((payload ++ List.replicate row.dataSize 0).take row.dataSize) = row.full := by
    rw [MemoryRow.full, padded, hrep.stored_eq]
  have hlen : row.full.length = row.dataSize := by
    rw [MemoryRow.full, padded, List.length_take, List.length_append, List.length_replicate]
    omega
  rw [hfull] at hread
  refine ⟨blit stack 0 row.full, ?_, ?_, ?_⟩
  · rw [blit_zero, List.length_append]
    omega
  · rw [blit_zero, ← hlen, List.take_left]
  · simp only [registerRow, hread, Option.getD_some]
    rw [if_neg (by omega), if_neg (by omega)]

end Sizes

/-- **Which rows arrive.** Whether a row is sent because it has changed or because its table
has been asked for, it arrives at an agent that has the row under the same external id
precisely when its data, with the header, fit `RA_MAX_BUFF` bytes: the change, in the first
case, and the whole row in the second. -/
theorem arrives_iff (sender receiver : RemoteAgent) (stack : List UInt8)
    (externalId entry table : UInt32) (info : TableInfo) (row : MemoryRow)
    (hext : receiver.findExternal externalId = some (table, info))
    (hrow : receiver.dataset.row? table entry = some row) :
    (∀ data own sinfo srow, sender.findInfo own = some sinfo →
        sinfo.exportedOrImportedFlag ≠ .none → sinfo.externalId = externalId →
        sender.dataset.row? own entry = some srow →
        ∃ sent, sender.onRowChange ⟨own, entry, data⟩ = some sent ∧
          (receiver.Arrives sent ⟨table, info, entry, row, data⟩ ↔
            data.length ≤ raMaxBuff - RemoteAgentDataMsg.size)) ∧
      ∀ srow payload priority, Represents srow payload priority → 0 < srow.dataSize →
        (receiver.Arrives (sender.registerRow stack externalId (entry, srow))
            ⟨table, info, entry, row, srow.full⟩ ↔
          srow.dataSize ≤ raMaxBuff - RemoteAgentDataMsg.size) := by
  have hnum : raMaxBuff - RemoteAgentDataMsg.size = 1331 := rfl
  have hbuff : raMaxBuff = 1350 := rfl
  have hhead : RemoteAgentDataMsg.size = 19 := rfl
  constructor
  · intro data own sinfo srow hinfo hflag hid hsrow
    refine ⟨buildSingleMsg data data.length sinfo.externalId entry
      (convertTypeToFramework1 srow.type) sender.updateOpcode, ?_, ?_⟩
    · simp only [onRowChange, hinfo, hsrow, if_neg hflag]
    have h := arrives_buildSingleMsg_iff hext hrow (convertTypeToFramework1 srow.type)
      sender.updateOpcode (le_refl data.length)
    rw [List.take_length] at h
    rw [hid, h]
    omega
  · intro srow payload priority hrep hpos
    by_cases hle : srow.dataSize ≤ registerBufferSize
    · obtain ⟨buffer, hlen, htake, heq⟩ :=
        registerRow_eq sender entry hrep hpos hle stack externalId
      have h := arrives_buildSingleMsg_iff hext hrow (convertTypeToFramework1 srow.type)
        sender.updateOpcode hlen
      rw [heq, ← htake, h]
      omega
    · -- the copy does not fit the buffer of `HandleRegisterDB`
      have hover : sender.registerRow stack externalId (entry, srow) = .error .overflow := by
        simp only [registerRow]
        rw [if_neg (by omega), if_pos (by omega)]
      have hreg : registerBufferSize = 2048 := rfl
      refine iff_of_false ?_ (by omega)
      rintro ⟨msg, hmsg, -⟩
      rw [hover] at hmsg
      exact absurd hmsg (by simp)

/-- An agent with one table of one row, under the external id `7`. -/
def single (flag : ExportedOrImported) (size : ℕ) : RemoteAgent where
  dataset := [⟨1, [(0, MemoryRow.construct size true .buffer)], by simp⟩]
  tableInfoMap := [(1, ⟨7, flag, false⟩)]
  keys_nodup := by simp
  forceWrite := false
  gotMsgFromRemoteAgentApp := false
  tickGetFromLastArrivedAck := 0
  dataSynced := false

/-- The row of `single`, as `memory_row::create` makes it. -/
theorem represents_construct {size : ℕ} (hpos : 0 < size) (hsize : size ≠ unboundedRowSize) :
    Represents (MemoryRow.construct size true .buffer) [] 0 := by
  have hcreate : MemoryRow.create size .buffer =
      some (MemoryRow.construct size true .buffer) := by
    rw [MemoryRow.create, if_neg (by omega), if_pos hsize]
  exact represents_create hcreate (by decide)

/-- A row of four bytes arrives when it is asked for. -/
theorem arrives_four :
    (single .imported 4).Arrives
      ((single .exported 4).registerRow [] 7 (0, MemoryRow.construct 4 true .buffer))
      ⟨1, ⟨7, .imported, false⟩, 0, MemoryRow.construct 4 true .buffer,
        (MemoryRow.construct 4 true .buffer).full⟩ :=
  ((arrives_iff (single .exported 4) (single .imported 4) [] 7 0 1 _ _ rfl rfl).2 _ [] 0
    (represents_construct (by decide) (by decide)) (by decide)).mpr (by decide)

/-- A change of 1332 bytes is sent, and overflows the buffer of the receiver. -/
theorem overflow_1332 :
    ∃ msg, (single .exported 1332).onRowChange ⟨1, 0, List.replicate 1332 0⟩ = some (.ok msg) ∧
      (single .imported 1332).handleSingleDataValue (fun _ _ => 0) msg =
        ⟨single .imported 1332, [], [], some .overflow⟩ := by
  have hlen : (List.replicate 1332 (0 : UInt8)).length = 1332 := List.length_replicate
  have hsent : (single .exported 1332).onRowChange ⟨1, 0, List.replicate 1332 0⟩ =
      some (buildSingleMsg (List.replicate 1332 0) (List.replicate 1332 (0 : UInt8)).length 7 0
        10 .dataUpdate) := rfl
  have hrecv : (single .imported 1332).receiveValue
      ((dataHeader 1332 7 0 10 .dataUpdate).bytes ++ List.replicate 1332 0) = .error .overflow := by
    rw [receiveValue_dataMsg rfl rfl, hlen]
    rfl
  rw [hsent, hlen, buildSingleMsg_of_le _ _ _ _ _ (by decide),
    List.take_of_length_le (le_of_eq hlen)]
  exact ⟨_, rfl, by rw [handleSingleDataValue, hrecv]⟩

end RemoteAgent

end UtilityFramework
