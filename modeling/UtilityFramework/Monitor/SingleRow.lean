import UtilityFramework.Monitor.MonitorClient

/-!
# Messages with a single row

`ReceivedSingleRow` takes the length of the data from the message. It compares it with the
size of the message without the header that comes before the data, so that a length field
that overstates the message by up to the size of the header lets it read behind the end.
What `BuildMonitorSingleMsg` builds states its own length, and arrives as it was sent.
-/

namespace UtilityFramework

open Bytes Memory

/-! ### The length of the data -/

/-- The length field, with its sign. -/
def MonitorSingleDataMsgEx.signedLength (m : MonitorSingleDataMsgEx) : ℤ :=
  if m.shLength.toNat < 2 ^ 15 then m.shLength.toNat else m.shLength.toNat - 2 ^ 16

/-- The length of the data is that of the message less the header, and very large when there
is no room for the header. -/
theorem sub_ofInt16_shLength (m : MonitorSingleDataMsgEx) :
    (15 ≤ m.signedLength →
        (Size.sub (Size.ofInt16 m.shLength.toNat) 15 : ℤ) = m.signedLength - 15) ∧
      (m.signedLength < 15 → 2 ^ 63 ≤ Size.sub (Size.ofInt16 m.shLength.toNat) 15) := by
  have hlt := m.shLength.toNat_lt
  rw [MonitorSingleDataMsgEx.signedLength, Size.ofInt16, Size.sub, Size.modulus]
  constructor
  · intro h
    split_ifs at h ⊢ <;> omega
  · intro h
    split_ifs at h ⊢ <;> omega

namespace MemoryRow

/-- What a row reads of the caller's buffer: the data it takes, if it is no empty row. -/
theorem bytesRead_eq (row : MemoryRow) {call : WriteCall} (hbuf : call.buffer ≠ none) :
    row.bytesRead call =
      if row.type ≠ .emptyType ∧ call.Accepted row.dataSize row.writePriority then call.size
      else 0 := by
  have hacc : call.Accepted row.dataSize row.writePriority ↔
      0 < call.size ∧ call.size ≤ row.maxSize ∧ ¬call.priority < row.writePriority := by
    rw [WriteCall.Accepted, and_iff_right hbuf, UInt8.not_lt]
    rfl
  rw [bytesRead]
  by_cases hty : row.type = .emptyType
  · simp [hty]
  · simp only [hacc]
    by_cases hsize : call.size > row.maxSize ∨ call.size = 0
    · rw [if_pos ⟨Or.inr hsize, hty⟩, if_neg (by omega)]
    · rw [if_neg fun h => hsize (h.1.resolve_left hbuf)]
      by_cases hprio : call.priority < row.writePriority
      · rw [if_pos hprio, if_neg fun h => h.2.2.2 hprio]
      · rw [if_neg hprio, if_pos hty, if_pos ⟨hty, by omega, by omega, hprio⟩]

end MemoryRow

namespace MonitorClient

variable {fresh : ℕ → ℕ → UInt8} {c : MonitorClient} {reader : DataReader}

/-- Everything that has been read is in a message of this size. -/
def ReadsInside (r : RowReceived) (size : ℕ) : Prop :=
  ∀ range ∈ r.reads, range.offset + range.size ≤ size

instance (r : RowReceived) (size : ℕ) : Decidable (ReadsInside r size) :=
  inferInstanceAs (Decidable (∀ range ∈ r.reads, range.offset + range.size ≤ size))

/-- The message has its header, its length field overstates its size by no more than the size
of the header, and it is for a row that takes as many bytes as this leaves for the data. -/
def Overstated (c : MonitorClient) (reader : DataReader) : Prop :=
  MonitorSingleDataMsgEx.size ≤ reader.size ∧
    let m := MonitorSingleDataMsgEx.ofBytes (load reader.buffer 0 MonitorSingleDataMsgEx.size)
    reader.size < m.signedLength ∧ m.signedLength ≤ reader.size + MonitorSingleDataMsgEx.size ∧
      ∃ row, c.dataset.row? m.unTable m.unRow = some row ∧ row.type ≠ .emptyType ∧
        m.signedLength ≤ row.dataSize + MonitorSingleDataMsgEx.size ∧ row.writePriority = 0

/-- `ReceivedSingleRow`, for a message with its header and a row that is known. -/
theorem receivedSingleRow_of_row (fresh : ℕ → ℕ → UInt8) (c : MonitorClient)
    {m : MonitorSingleDataMsgEx} {row : MemoryRow} {length : ℕ}
    (hsize : MonitorSingleDataMsgEx.size ≤ reader.size)
    (hm : MonitorSingleDataMsgEx.ofBytes
      (load reader.buffer 0 MonitorSingleDataMsgEx.size) = m)
    (hrow : c.dataset.row? m.unTable m.unRow = some row)
    (hlength : Size.sub (Size.ofInt16 m.shLength.toNat) MonitorSingleDataMsgEx.size = length) :
    c.receivedSingleRow fresh reader =
      if reader.size < length then ⟨c, [⟨0, MonitorSingleDataMsgEx.size⟩], none⟩
      else
        ⟨{ c with
            dataset := c.dataset.setRow m.unTable m.unRow (row.writeBytes fresh
              (reader.writeCall MonitorSingleDataMsgEx.size length 0)).row },
          [⟨0, MonitorSingleDataMsgEx.size⟩, ⟨MonitorSingleDataMsgEx.size,
            row.bytesRead (reader.writeCall MonitorSingleDataMsgEx.size length 0)⟩],
          if (row.writeBytes fresh
            (reader.writeCall MonitorSingleDataMsgEx.size length 0)).result then none
          else some .thrown⟩ := by
  rw [DataSet.row?, Option.bind_eq_some_iff] at hrow
  obtain ⟨table, htable, hrow⟩ := hrow
  have hread : reader.read MonitorSingleDataMsgEx.size =
      some (load reader.buffer 0 MonitorSingleDataMsgEx.size) := if_neg (by omega)
  simp only [receivedSingleRow, hread, hm, htable, hrow, hlength]

/-- `ReceivedSingleRow`, for a message with its header and a row that is not known. -/
theorem receivedSingleRow_of_no_row (fresh : ℕ → ℕ → UInt8) (c : MonitorClient)
    {m : MonitorSingleDataMsgEx} (hsize : MonitorSingleDataMsgEx.size ≤ reader.size)
    (hm : MonitorSingleDataMsgEx.ofBytes
      (load reader.buffer 0 MonitorSingleDataMsgEx.size) = m)
    (hrow : c.dataset.row? m.unTable m.unRow = none) :
    c.receivedSingleRow fresh reader = ⟨c, [⟨0, MonitorSingleDataMsgEx.size⟩], none⟩ := by
  have hread : reader.read MonitorSingleDataMsgEx.size =
      some (load reader.buffer 0 MonitorSingleDataMsgEx.size) := if_neg (by omega)
  cases htable : c.dataset.tryGet m.unTable with
  | none => simp only [receivedSingleRow, hread, hm, htable]
  | some table =>
    rw [DataSet.row?, htable, Option.bind_some] at hrow
    simp only [receivedSingleRow, hread, hm, htable, hrow]

/-- After the header, the reads are inside if the data are. -/
theorem readsInside_cons {size : ℕ} {reads : List ByteRange} {f : Option Failure}
    (hsize : MonitorSingleDataMsgEx.size ≤ size) :
    ReadsInside ⟨c, ⟨0, MonitorSingleDataMsgEx.size⟩ :: reads, f⟩ size ↔
      ∀ range ∈ reads, range.offset + range.size ≤ size := by
  simp [ReadsInside, hsize]

/-- The reads of `ReceivedSingleRow` stay in the message, unless it overstates its size. -/
theorem readsInside_iff (fresh : ℕ → ℕ → UInt8) (c : MonitorClient)
    (hsize : reader.size < 2 ^ 63) :
    ReadsInside (c.receivedSingleRow fresh reader) reader.size ↔ ¬c.Overstated reader := by
  have hheader : MonitorSingleDataMsgEx.size = 15 := rfl
  by_cases hread : reader.size < MonitorSingleDataMsgEx.size
  · have hnone : reader.read MonitorSingleDataMsgEx.size = none := if_pos hread
    refine iff_of_true ?_ fun h => absurd h.1 (by omega)
    simp only [receivedSingleRow, hnone]
    exact fun range h => absurd h List.not_mem_nil
  · generalize hm : MonitorSingleDataMsgEx.ofBytes
      (load reader.buffer 0 MonitorSingleDataMsgEx.size) = m
    have hover : c.Overstated reader ↔ reader.size < m.signedLength ∧
        m.signedLength ≤ reader.size + 15 ∧
        ∃ row, c.dataset.row? m.unTable m.unRow = some row ∧ row.type ≠ .emptyType ∧
          m.signedLength ≤ row.dataSize + 15 ∧ row.writePriority = 0 := by
      rw [Overstated, and_iff_right (by omega), hm]
      exact Iff.rfl
    rw [hover]
    cases hrow : c.dataset.row? m.unTable m.unRow with
    | none =>
      rw [receivedSingleRow_of_no_row fresh c (by omega) hm hrow]
      refine iff_of_true ?_ (by simp)
      exact (readsInside_cons (by omega)).mpr fun range h => absurd h List.not_mem_nil
    | some row =>
      obtain ⟨hlong, hshort⟩ := sub_ofInt16_shLength m
      generalize hlength : Size.sub (Size.ofInt16 m.shLength.toNat) 15 = length at hlong hshort
      rw [receivedSingleRow_of_row fresh c (by omega) hm hrow hlength, hheader]
      have hread : row.bytesRead (reader.writeCall 15 length 0) =
          if row.type ≠ .emptyType ∧ 0 < length ∧ length ≤ row.dataSize ∧
            row.writePriority = 0 then length else 0 := by
        rw [MemoryRow.bytesRead_eq row (by simp [DataReader.writeCall])]
        simp [WriteCall.Accepted, DataReader.writeCall]
      by_cases hlength : reader.size < length
      · rw [if_pos hlength]
        refine iff_of_true ?_ (by omega)
        exact (readsInside_cons (by omega)).mpr fun range h => absurd h List.not_mem_nil
      · rw [if_neg hlength, ← hheader, readsInside_cons (by omega)]
        simp only [List.mem_singleton, forall_eq, Option.some.injEq, exists_eq_left']
        rw [hheader, hread]
        -- the data are taken whole, and reach beyond the message, or not at all
        by_cases htake : row.type ≠ .emptyType ∧ row.writePriority = 0
        · simp only [htake.1, htake.2, ne_eq, not_false_eq_true, true_and, and_true]
          split_ifs <;> omega
        · rw [if_neg fun h => htake ⟨h.1, h.2.2.2⟩]
          exact iff_of_true (by omega) fun h => htake ⟨h.2.2.1, h.2.2.2.2⟩

end MonitorClient

/-! ### What `BuildMonitorSingleMsg` builds -/

section Build

variable {values : List UInt8} {nTable nRow now : UInt32} {opcode : UInt8}

/-- The header of a message for `n` bytes of data. -/
def singleHeader (n : ℕ) (opcode : UInt8) (now nTable nRow : UInt32) : MonitorSingleDataMsgEx :=
  ⟨.ofNat (n + MonitorSingleDataMsgEx.size), opcode, now, nTable, nRow⟩

/-- What is accepted fits a `short` with its header, and is handed to the channel whole. -/
theorem buildMonitorSingleMsg_eq (nTable nRow now : UInt32) (opcode : UInt8)
    (hlen : values.length < 2 ^ 63) :
    Monitor.buildMonitorSingleMsg values nTable nRow opcode now =
      if monitorMaxDataSize < values.length + MonitorSingleDataMsgEx.size then .error .thrown
      else .ok [(singleHeader values.length opcode now nTable nRow).bytes ++ values] := by
  have hadd : Size.add values.length MonitorSingleDataMsgEx.size =
      values.length + MonitorSingleDataMsgEx.size :=
    Size.add_of_lt (by rw [MonitorSingleDataMsgEx.size, Size.modulus]; omega)
  have hheader : MonitorSingleDataMsgEx.size = 15 := rfl
  have hmax : monitorMaxDataSize = 32767 := rfl
  simp only [Monitor.buildMonitorSingleMsg, hadd]
  split_ifs with hle
  · rfl
  · have hmsg : ((singleHeader values.length opcode now nTable nRow).bytes ++ values).length =
        values.length + MonitorSingleDataMsgEx.size := by
      rw [List.length_append, MonitorSingleDataMsgEx.length_bytes, Nat.add_comm]
    rw [Size.ofInt16_of_lt (by omega), ← singleHeader, ← hmsg, List.take_length, commSend,
      if_neg (by omega)]

/-- The length that `ReceivedSingleRow` takes from it is that of the data. -/
theorem sub_ofInt16_singleHeader (n : ℕ) (opcode : UInt8) (now nTable nRow : UInt32)
    (hle : n + MonitorSingleDataMsgEx.size ≤ monitorMaxDataSize) :
    (singleHeader n opcode now nTable nRow).signedLength = n + MonitorSingleDataMsgEx.size ∧
      Size.sub (Size.ofInt16 (singleHeader n opcode now nTable nRow).shLength.toNat)
        MonitorSingleDataMsgEx.size = n := by
  have hheader : MonitorSingleDataMsgEx.size = 15 := rfl
  have hmax : monitorMaxDataSize = 32767 := rfl
  rw [hheader, hmax] at hle
  have hfield : (singleHeader n opcode now nTable nRow).shLength.toNat = n + 15 := by
    rw [singleHeader, hheader, UInt16.toNat_ofNat']
    omega
  rw [MonitorSingleDataMsgEx.signedLength, hfield, hheader, if_pos (by omega),
    Size.ofInt16_of_lt (by omega), Size.sub_of_le (by omega) (by rw [Size.modulus]; omega),
    Nat.add_sub_cancel]
  exact ⟨by push_cast; rfl, rfl⟩

/-- The message is a frame of the client's channel. -/
theorem wellFormed_singleMsg (hle : values.length + MonitorSingleDataMsgEx.size ≤
    monitorMaxDataSize) : monitorClientFrame.WellFormed
      ((singleHeader values.length opcode now nTable nRow).bytes ++ values) := by
  have hheader : MonitorSingleDataMsgEx.size = 15 := rfl
  have hmax : monitorMaxDataSize = 32767 := rfl
  have hlen : ((singleHeader values.length opcode now nTable nRow).bytes ++ values).length =
      values.length + 15 := by
    rw [List.length_append, MonitorSingleDataMsgEx.length_bytes, hheader, Nat.add_comm]
  have hfield : monitorClientFrame.lengthField
      ((singleHeader values.length opcode now nTable nRow).bytes ++ values) =
        values.length + 15 := by
    show ofLE (toLE 2 (singleHeader values.length opcode now nTable nRow).shLength.toNat) = _
    rw [ofLE_toLE, singleHeader, hheader, UInt16.toNat_ofNat']
    omega
  refine ⟨?_, ?_, ?_⟩
  · show 2 ≤ _
    omega
  · rw [hfield, hlen, FrameFormat.total, if_neg (by omega)]
    rfl
  · show _ ≤ 32767
    omega

end Build

namespace MonitorClient

/-- **Which messages for a row are safe.** Whatever message `ReceivedSingleRow` is handed, it
reads only bytes inside precisely if the message does not overstate its size by up to the
size of the header for a row that takes the data. What `BuildMonitorSingleMsg` accepts is one
message that the client's channel takes, and if it arrives, the data are written to the row with
the same numbers, exactly, and nothing else is read. -/
theorem receivedSingleRow_spec (fresh : ℕ → ℕ → UInt8) (c : MonitorClient) (reader : DataReader)
    (hsize : reader.size < 2 ^ 63) :
    (ReadsInside (c.receivedSingleRow fresh reader) reader.size ↔ ¬c.Overstated reader) ∧
      ∀ values nTable nRow opcode now sent, values.length < 2 ^ 63 →
        Monitor.buildMonitorSingleMsg values nTable nRow opcode now = .ok sent →
        ∃ msg, sent = [msg] ∧ monitorClientFrame.WellFormed msg ∧
          ∀ row, reader.Holds msg → c.dataset.row? nTable nRow = some row →
            ReadsInside (c.receivedSingleRow fresh reader) reader.size ∧
              (c.receivedSingleRow fresh reader).client =
                { c with
                  dataset := c.dataset.setRow nTable nRow
                    (row.writeBytes fresh (.forced values 0)).row } ∧
              ∀ payload, Represents row payload 0 → 0 < values.length →
                values.length ≤ row.dataSize →
                Represents (row.writeBytes fresh (.forced values 0)).row values 0 := by
  refine ⟨readsInside_iff fresh c hsize, ?_⟩
  intro values nTable nRow opcode now sent hvalues hbuild
  rw [buildMonitorSingleMsg_eq nTable nRow now opcode hvalues] at hbuild
  split_ifs at hbuild with hmax
  have hle := Nat.le_of_not_lt hmax
  refine ⟨_, (Except.ok.inj hbuild).symm, wellFormed_singleMsg hle, fun row hmsg hrow => ?_⟩
  obtain ⟨hsigned, hlength⟩ :=
    sub_ofInt16_singleHeader values.length opcode now nTable nRow hle
  have hsize' := hmsg.size_eq
  rw [List.length_append, MonitorSingleDataMsgEx.length_bytes] at hsize'
  have hfront := hmsg.load_front
  have hcall := hmsg.writeCall 0
  rw [MonitorSingleDataMsgEx.length_bytes] at hfront hcall
  have hread := (congrArg MonitorSingleDataMsgEx.ofBytes hfront).trans
    (MonitorSingleDataMsgEx.ofBytes_bytes _)
  refine ⟨(readsInside_iff fresh c hsize).mpr fun hover => ?_, ?_, fun payload hrep hpos hfit => ?_⟩
  · have hlt := hover.2.1
    rw [hread, hsigned] at hlt
    omega
  · rw [receivedSingleRow_of_row fresh c (by omega) hread hrow hlength, hcall, if_neg (by omega)]
    rfl
  · have hacc : (WriteCall.forced values 0).Accepted row.dataSize 0 :=
      ⟨by simp [WriteCall.forced], hpos, hfit, UInt8.le_refl _⟩
    exact (hrep.writeBytes fresh hacc).1

/-- A client with one row of four bytes. -/
def fourBytes : MonitorClient where
  dataset := [⟨0, [(0, MemoryRow.construct 4 true .buffer)], by decide⟩]
  monitorVersion := 0
  gotMsgFromMonitorApp := false
  tickGetFromLastArrivedAck := 0
  debugStateMap _ := none

/-- A header alone that announces one byte of data. -/
def overstatedMsg : List UInt8 :=
  (singleHeader 1 ToMonitorOpcode.singleMsgEx.value 0 0 0).bytes

/-- The byte behind the message is written to the row. -/
theorem reads_beyond :
    let r := fourBytes.receivedSingleRow (fun _ _ => 0) (.on (fun _ => 0xEE) overstatedMsg)
    ¬ReadsInside r overstatedMsg.length ∧
      (r.client.dataset.row? 0 0).map MemoryRow.stored = some [0xEE] := by
  decide

/-- Three bytes that the monitor sends. -/
def threeBytesMsg : List UInt8 :=
  (singleHeader 3 ToMonitorOpcode.singleMsgEx.value 0 0 0).bytes ++ [1, 2, 3]

/-- Nothing behind them is read. -/
theorem receivedSingleRow_three :
    ReadsInside (fourBytes.receivedSingleRow (fun _ _ => 0) (.on (fun _ => 0xEE) threeBytesMsg))
      threeBytesMsg.length := by
  have hspec := receivedSingleRow_spec (fun _ _ => 0) fourBytes
    (.on (fun _ => 0xEE) threeBytesMsg) (by decide)
  have hbuild := @buildMonitorSingleMsg_eq [1, 2, 3] 0 0 0
    ToMonitorOpcode.singleMsgEx.value (by decide)
  rw [if_neg (by decide)] at hbuild
  obtain ⟨msg, hsent, -, hreceived⟩ := hspec.2 [1, 2, 3] 0 0 ToMonitorOpcode.singleMsgEx.value 0
    [threeBytesMsg] (by decide) hbuild
  obtain rfl := List.singleton_inj.mp hsent
  exact (hreceived (MemoryRow.construct 4 true .buffer) (DataReader.holds_on _ _) rfl).1

end MonitorClient

end UtilityFramework
