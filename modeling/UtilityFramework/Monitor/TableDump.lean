import UtilityFramework.Monitor.SingleRow

/-!
# Table dumps

`GetDBData` sends the rows of a table as they are read in full, one behind the other in the
order of the container. `WriteDBData` reads the header of the message with the overload of
`Read` that asks for a message of exactly the size of the header; it throws for every message
with data, and changes no row for any message.
-/

namespace UtilityFramework

open Bytes Memory

/-! ### What is sent -/

/-- The buffer of the row holds the bytes that are valid. -/
def MemoryRow.Filled (row : MemoryRow) : Prop := row.currentSize = row.stored.length

instance (row : MemoryRow) : Decidable row.Filled :=
  inferInstanceAs (Decidable (row.currentSize = row.stored.length))

/-- The rows of a table as they are read in full, one behind the other. -/
def rowsData (rows : List (UInt32 × MemoryRow)) : List UInt8 :=
  rows.flatMap fun e => e.2.full

@[simp] theorem MemoryRow.length_full (row : MemoryRow) : row.full.length = row.dataSize := by
  rw [full, padded, List.length_take, List.length_append, List.length_replicate]
  omega

namespace Monitor

/-- The loop of `GetDBData` puts the rows behind what has been copied before. -/
theorem copyRows_eq {rows : List (UInt32 × MemoryRow)} (hfilled : ∀ e ∈ rows, e.2.Filled)
    (buffer : List UInt8) (copied : ℕ) (hmax : buffer.length < Size.modulus)
    (hfit : copied + (rowsData rows).length ≤ buffer.length) :
    ∃ buffer', copyRows buffer copied rows = .ok (buffer', copied + (rowsData rows).length) ∧
      buffer'.take (copied + (rowsData rows).length) = buffer.take copied ++ rowsData rows := by
  induction rows generalizing buffer copied with
  | nil => exact ⟨buffer, rfl, by simp [rowsData]⟩
  | cons e rows ih =>
    have hdata : rowsData (e :: rows) = e.2.full ++ rowsData rows := List.flatMap_cons
    have hlen : (rowsData (e :: rows)).length = e.2.dataSize + (rowsData rows).length := by
      rw [hdata, List.length_append, MemoryRow.length_full]
    have hfilled' : ∀ e' ∈ rows, e'.2.Filled := fun e' he' =>
      hfilled e' (List.mem_cons_of_mem e he')
    rw [hlen] at hfit ⊢
    have hadd : Size.add e.2.dataSize copied = e.2.dataSize + copied :=
      Size.add_of_lt (by omega)
    have hguard : ¬buffer.length < Size.add e.2.dataSize copied := by omega
    by_cases hpos : 0 < e.2.dataSize
    · have hread := MemoryRow.readBytes_of_filled (hfilled e List.mem_cons_self) hpos
        (le_refl _) (buffer.drop copied)
      rw [← padded, ← MemoryRow.full] at hread
      set window := blit (buffer.drop copied) 0 e.2.full with hwindow
      have hfull := e.2.length_full
      have hsplit : buffer.take copied ++ window =
          (buffer.take copied ++ e.2.full) ++ buffer.drop (copied + e.2.dataSize) := by
        rw [hwindow, blit_zero, List.drop_drop, hfull, List.append_assoc]
      have hfront : (buffer.take copied ++ e.2.full).length = copied + e.2.dataSize := by
        rw [List.length_append, List.length_take, hfull]
        omega
      have hlen' : (buffer.take copied ++ window).length = buffer.length := by
        rw [hsplit, List.length_append, hfront, List.length_drop]
        omega
      obtain ⟨buffer', hcopy, htake⟩ := ih hfilled' (buffer.take copied ++ window)
        (copied + e.2.dataSize) (by omega) (by omega)
      rw [← Nat.add_assoc]
      refine ⟨buffer', ?_, ?_⟩
      · simp only [copyRows]
        rw [if_neg hguard, if_pos hpos, if_neg (by omega), hread]
        simp only [Size.add_of_lt (show copied + e.2.dataSize < Size.modulus by omega), hcopy]
      · rw [htake, hsplit, ← hfront, List.take_left, hdata, List.append_assoc]
    · have hzero : e.2.dataSize = 0 := by omega
      have hnil : e.2.full = [] := List.length_eq_zero_iff.mp (e.2.length_full.trans hzero)
      rw [hzero, Nat.zero_add] at hfit ⊢
      obtain ⟨buffer', hcopy, htake⟩ := ih hfilled' buffer copied hmax hfit
      refine ⟨buffer', ?_, ?_⟩
      · simp only [copyRows]
        rw [if_neg hguard, if_neg hpos, hcopy]
      · rw [htake, hdata, hnil, List.nil_append]

/-- The header of a dump of `n` bytes; the table's number is cut to a byte. -/
def dumpHeader (n : ℕ) (nTable now : UInt32) : MonitorDBDataMsgEx :=
  ⟨.ofNat (n + MonitorDBDataMsgEx.size), ToMonitorOpcode.dbMsg.value, now,
    nTable.toUInt8.toUInt32⟩

/-- What `BuildMonitorDBMsg` makes of data that fit a `short` with their header. -/
theorem buildMonitorDBMsg_of_le {values : List UInt8} (nTable now : UInt32)
    (hle : values.length + MonitorDBDataMsgEx.size ≤ monitorMaxDataSize) :
    buildMonitorDBMsg values nTable now =
      .ok [(dumpHeader values.length nTable now).bytes ++ values] := by
  have hheader : MonitorDBDataMsgEx.size = 11 := rfl
  have hmax : monitorMaxDataSize = 32767 := rfl
  have hadd : Size.add values.length MonitorDBDataMsgEx.size =
      values.length + MonitorDBDataMsgEx.size :=
    Size.add_of_lt (by rw [Size.modulus]; omega)
  have hmsg : ((dumpHeader values.length nTable now).bytes ++ values).length =
      values.length + MonitorDBDataMsgEx.size := by
    rw [List.length_append, MonitorDBDataMsgEx.length_bytes, Nat.add_comm]
  simp only [buildMonitorDBMsg, hadd]
  rw [if_neg (by omega), Size.ofInt16_of_lt (by omega), ← dumpHeader, ← hmsg, List.take_length,
    commSend, if_neg (by omega)]

/-- The dump of a table whose rows fit one message. -/
theorem getDBData_eq {m : Monitor} {query : List UInt8} {nTable now : UInt32}
    {table : DataTable} (hquery : query.length = monitorMaxDataSize)
    (htable : ((m.dataset? nTable).bind fun ds => ds.tryGet nTable) = some table)
    (hfilled : ∀ e ∈ table.rows, e.2.Filled)
    (hfit : (rowsData table.rows).length + MonitorDBDataMsgEx.size ≤ monitorMaxDataSize) :
    m.getDBData query nTable now =
      .ok [(dumpHeader (rowsData table.rows).length nTable now).bytes ++
        rowsData table.rows] := by
  have hmax : monitorMaxDataSize = 32767 := rfl
  obtain ⟨buffer', hcopy, htake⟩ := copyRows_eq hfilled query 0
    (by rw [Size.modulus]; omega) (by omega)
  rw [Nat.zero_add] at hcopy htake
  rw [List.take_zero, List.nil_append] at htake
  simp only [getDBData, htable, hcopy, htake]
  exact buildMonitorDBMsg_of_le nTable now hfit

end Monitor

/-! ### What is received -/

namespace MonitorClient

variable {fresh : ℕ → ℕ → UInt8}

/-- A row that is set to what it is. -/
theorem row?_setRow_self {ds : DataSet} {table key : UInt32} {row : MemoryRow}
    (h : ds.row? table key = some row) (table' key' : UInt32) :
    (ds.setRow table key row).row? table' key' = ds.row? table' key' := by
  rw [DataSet.row?_setRow, h]
  split_ifs with hkey
  · rw [hkey.1, hkey.2, h]
    rfl
  · rfl

/-- Writing nothing is refused, or changes nothing. -/
theorem writeBytes_zero (fresh : ℕ → ℕ → UInt8) (row : MemoryRow) (call : WriteCall)
    (hsize : call.size = 0) : (row.writeBytes fresh call).row = row := by
  have hreserve : row.reserve fresh call.size = row := if_neg (by omega)
  by_cases hty : row.type = .emptyType
  · rw [MemoryRow.writeBytes, if_neg fun h => h.2 hty]
    by_cases hprio : call.priority < row.writePriority
    · rw [if_pos hprio]
    · rw [if_neg hprio]
      dsimp only
      rw [if_neg fun h => h.2 hty]
      exact hreserve
  · rw [MemoryRow.writeBytes, if_pos ⟨Or.inr (Or.inr hsize), hty⟩]

/-- A message that is no longer than its header changes no row. -/
theorem row?_writeRows (reader : DataReader) (hsize : reader.size ≤ MonitorDBDataMsgEx.size)
    (nTable : UInt32) (n i : ℕ) (ds : DataSet) (table key : UInt32) :
    (writeRows fresh reader nTable n i MonitorDBDataMsgEx.size ds).1.row? table key =
      ds.row? table key := by
  have hheader : MonitorDBDataMsgEx.size = 11 := rfl
  have hmax : monitorMaxDataSize = 32767 := rfl
  induction n generalizing i ds with
  | zero => rfl
  | succ n ih =>
    cases hrow : ds.row? nTable (.ofNat i) with
    | none => simp only [writeRows, hrow]
    | some row =>
      simp only [writeRows, hrow]
      split_ifs with hlong hover hresult
      · rfl
      · rfl
      · -- only a row of no bytes passes both checks
        have hzero : row.dataSize = 0 := by
          rw [Size.add_of_lt (by rw [Size.modulus]; omega)] at hlong
          omega
        have hself := writeBytes_zero fresh row
          (reader.writeCall (2 * MonitorDBDataMsgEx.size) row.dataSize 0) hzero
        have hadd : Size.add MonitorDBDataMsgEx.size 0 = MonitorDBDataMsgEx.size :=
          Size.add_of_lt (by rw [Size.modulus]; omega)
        rw [hself, hzero, hadd, ih, row?_setRow_self hrow]
      · rfl

/-- `WriteDBData` changes no row, whatever the message. -/
theorem row?_writeDBData (fresh : ℕ → ℕ → UInt8) (c : MonitorClient) (reader : DataReader)
    (table key : UInt32) :
    (c.writeDBData fresh reader).client.dataset.row? table key = c.dataset.row? table key := by
  by_cases hsize : reader.size ≠ MonitorDBDataMsgEx.size
  · have hread : reader.readTo MonitorDBDataMsgEx.size = none := if_pos hsize
    simp only [writeDBData, hread]
  · have hread : reader.readTo MonitorDBDataMsgEx.size =
        some (load reader.buffer 0 MonitorDBDataMsgEx.size) := if_neg hsize
    simp only [writeDBData, hread]
    split
    · rfl
    · exact row?_writeRows reader (by omega) _ _ _ _ _ _

/-- The rows of a table at the client, as they are read in full, are those of the monitor. -/
def RowsAgree (m : Monitor) (c : MonitorClient) (nTable : UInt32) : Prop :=
  ∀ key, (c.dataset.row? nTable key).map MemoryRow.full = (m.row? nTable key).map MemoryRow.full

/-- **What a dump of a table achieves.** For a table whose rows fit one message, `GetDBData`
sends the rows behind the header. Whatever client receives them, its rows are those of the
monitor afterwards precisely if they were before; if there are data, `WriteDBData` throws. -/
theorem rowsAgree_writeDBData_iff (fresh : ℕ → ℕ → UInt8) (m : Monitor) (c : MonitorClient)
    (query : List UInt8) (nTable now : UInt32) (table : DataTable)
    (hquery : query.length = monitorMaxDataSize)
    (htable : ((m.dataset? nTable).bind fun ds => ds.tryGet nTable) = some table)
    (hfilled : ∀ e ∈ table.rows, e.2.Filled)
    (hfit : (rowsData table.rows).length + MonitorDBDataMsgEx.size ≤ monitorMaxDataSize) :
    ∃ msg, m.getDBData query nTable now = .ok [msg] ∧
      msg.drop MonitorDBDataMsgEx.size = rowsData table.rows ∧
      ∀ reader : DataReader, reader.Holds msg →
        (RowsAgree m (c.writeDBData fresh reader).client nTable ↔ RowsAgree m c nTable) ∧
          (rowsData table.rows ≠ [] → (c.writeDBData fresh reader).failure = some .thrown) := by
  refine ⟨_, Monitor.getDBData_eq hquery htable hfilled hfit, ?_, fun reader hreader => ⟨?_, ?_⟩⟩
  · rw [← MonitorDBDataMsgEx.length_bytes, List.drop_left]
  · refine forall_congr' fun key => ?_
    rw [row?_writeDBData]
  · intro hdata
    have hpos := List.length_pos_iff.mpr hdata
    have hsize := hreader.size_eq
    rw [List.length_append, MonitorDBDataMsgEx.length_bytes] at hsize
    have hread : reader.readTo MonitorDBDataMsgEx.size = none := if_pos (by omega)
    simp only [writeDBData, hread]

/-- A row of four bytes that holds these. -/
def rowOf (data : List UInt8) : MemoryRow :=
  { MemoryRow.construct 4 true .buffer with buffer := some data, currentSize := 4 }

/-- A monitor with one row of four bytes. -/
def oneRow (data : List UInt8) : Monitor where
  datasets := [[⟨0, [(0, rowOf data)], by simp⟩]]
  gotMsgFromMonitorApp := true
  tickGetFromLastArrivedAck := 0

/-- The client has the row, and does not take the dump. -/
theorem dump_thrown :
    ∃ msg, (oneRow [1, 2, 3, 4]).getDBData (List.replicate monitorMaxDataSize 0) 0 0 =
        .ok [msg] ∧
      let r := fourBytes.writeDBData (fun _ _ => 0) (.on (fun _ => 0) msg)
      r.failure = some .thrown ∧
        (r.client.dataset.row? 0 0).map MemoryRow.full = some [0, 0, 0, 0] ∧
        ((oneRow [1, 2, 3, 4]).row? 0 0).map MemoryRow.full = some [1, 2, 3, 4] ∧
        ¬RowsAgree (oneRow [1, 2, 3, 4]) r.client 0 := by
  have hmsg := @Monitor.getDBData_eq (oneRow [1, 2, 3, 4]) (List.replicate monitorMaxDataSize 0)
    0 0 _ List.length_replicate rfl (by decide) (by decide)
  refine ⟨_, hmsg, rfl, rfl, rfl, fun h => ?_⟩
  exact absurd (h 0) (by decide)

/-- A row of zeros is the same on both sides, with and without the dump. -/
theorem rowsAgree_zeros :
    ∃ msg, (oneRow [0, 0, 0, 0]).getDBData (List.replicate monitorMaxDataSize 0) 0 0 =
        .ok [msg] ∧
      RowsAgree (oneRow [0, 0, 0, 0])
        (fourBytes.writeDBData (fun _ _ => 0) (.on (fun _ => 0) msg)).client 0 := by
  obtain ⟨msg, hmsg, -, hrecv⟩ := rowsAgree_writeDBData_iff (fun _ _ => 0) (oneRow [0, 0, 0, 0])
    fourBytes (List.replicate monitorMaxDataSize 0) 0 0 _ List.length_replicate rfl (by decide)
    (by decide)
  refine ⟨msg, hmsg, (hrecv _ (DataReader.holds_on _ _)).1.mpr fun key => ?_⟩
  by_cases hkey : key = 0
  · subst hkey
    rfl
  · have hclient : fourBytes.dataset.row? 0 key = none := by
      simp [fourBytes, DataSet.row?, DataSet.tryGet, DataTable.queryRow, Ne.symm hkey]
    have hserver : (oneRow [0, 0, 0, 0]).row? 0 key = none := by
      simp [oneRow, Monitor.row?, Monitor.dataset?, DataSet.row?, DataSet.tryGet,
        DataTable.queryRow, Ne.symm hkey]
    rw [hclient, hserver]

end MonitorClient

end UtilityFramework
