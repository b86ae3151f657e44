import UtilityFramework.Communication.VariableLengthProtocol
import UtilityFramework.Monitor.HandlerAccesses

/-!
# The message handler stays within its memory

For every message that the protocol delivers (`wellFormed_of_recieve`), whether an access of the
handler leaves the message, a local array or `m_dataQueryBuffer` is decided by the message and the
rows alone (`messageHandler_inBounds_iff`). Five kinds of messages can do so:

* one whose length field is 0, which has no opcode;
* a request for several rows whose length is a multiple of eight, if all entries before the last
  are served, since the last one ends a byte behind the message;
* a request for a table in which the sizes of rows wrap around;
* a request for the schema of a row or an enumeration whose JSON text does not fit the buffer;
* a request for an enumeration whose name has 256 bytes or more.
-/

namespace UtilityFramework

open Bytes Memory Logged Text

namespace MonitorHandler

/-! ### The condition -/

/-- Each row that seems to fit behind those copied before does so: no sum of sizes wraps
around to a small number. -/
def RowsFit : ℕ → List (UInt32 × MemoryRow) → Prop
  | _, [] => True
  | copied, e :: rows => Size.add e.2.dataSize copied ≤ queryBufferSize →
      copied + e.2.dataSize ≤ queryBufferSize ∧ RowsFit (copied + e.2.dataSize) rows

/-- A JSON text fits the buffer, with its end and its size. -/
def JsonFits (json : List UInt8) : Prop := 4 + jsonLength json ≤ queryBufferSize

variable (h : MonitorHandler)

/-- The row of an entry is served: the entries behind it are looked at. -/
def Serves (op : MonitorOpcode) (nTable nRow : UInt32) : Prop :=
  match op with
  | .registerMultiSingleDataEx =>
    h.registered (nTable, nRow) = true ∨ (h.monitor.row? nTable nRow).isSome
  | .getMultiSingleDataEx => ∃ row ∈ h.monitor.row? nTable nRow,
      row.dataSize + MonitorSingleDataMsgEx.size ≤ monitorMaxDataSize
  | .unregisterMultiSingleDataEx =>
    h.registered (nTable, nRow) = false ∨ (h.monitor.row? nTable nRow).isSome
  | .getDebugMultiSingleDataEx => (h.monitor.row? nTable nRow).isSome
  | _ => True

/-- The last entry ends within the message, or it is not looked at. -/
def EntriesEnd (reader : DataReader) (op : MonitorOpcode) : Prop :=
  ¬ 8 ∣ reader.size - 2 ∨
    ∃ i, i + 1 < (reader.size - 2) / 8 ∧ ¬ h.Serves op (entryTable reader i) (entryRow reader i)

/-- The condition on a request that has been read, and the rows. -/
def HarmlessRequest (reader : DataReader) : Option MonitorOpcode → Prop
  | some .registerMultiSingleDataEx => h.EntriesEnd reader .registerMultiSingleDataEx
  | some .getMultiSingleDataEx => h.EntriesEnd reader .getMultiSingleDataEx
  | some .unregisterMultiSingleDataEx => h.EntriesEnd reader .unregisterMultiSingleDataEx
  | some .getDebugMultiSingleDataEx => h.EntriesEnd reader .getDebugMultiSingleDataEx
  | some .getRowSchema => ∀ json,
      h.rowJson? (message reader).unTable (message reader).unRow = some json → json ≠ [] →
        JsonFits json
  | some .getEnumSchema => reader.size - 11 < 256 ∧ ∀ json,
      h.enumJson (untilNul (load reader.buffer 11 (reader.size - 11))) = some json →
        JsonFits json
  | _ => True

/-- The condition on a message and the rows. -/
def Harmless (reader : DataReader) : Prop :=
  2 < reader.size ∧
    match MonitorOpcode.ofValue? reader.getOpcodeExt with
    | some .getDbDataEx => 7 ≤ reader.size → ∀ table,
        ((h.monitor.dataset? (message reader).unTable).bind fun ds =>
          ds.tryGet (message reader).unTable) = some table → RowsFit 0 table.rows
    | op => DeToMonitorDataMsgEx.size ≤ reader.size → h.HarmlessRequest reader op

section Parts

variable {h} {n : ℕ}

/-! ### Messages that are built, and rows that are read -/

theorem lt_of_le_queryBufferSize {length : ℕ} (h : length ≤ queryBufferSize) :
    length < 2 ^ 63 := h.trans_lt (by decide)

/-- Sizes that fit the buffer do not wrap around. -/
theorem add_of_fits {copied size : ℕ} (hfits : copied + size ≤ queryBufferSize) :
    Size.add size copied = copied + size := by
  have hlt := lt_of_le_queryBufferSize hfits
  rw [Size.add_of_lt (by rw [Size.modulus]; omega), Nat.add_comm]

theorem inBounds_buildMsg {header length : ℕ} (hheader : header ≤ 15)
    (hlength : length < 2 ^ 63) : (buildMsg header length).All (Access.InBounds n) := by
  rw [buildMsg, all_require_bind]
  intro hfits
  rw [Size.add_of_lt (by rw [Size.modulus]; omega)] at hfits
  rw [all_record_bind, all_record]
  constructor
  · change 0 + header ≤ monitorMaxDataSize + header
    omega
  · change header + length ≤ monitorMaxDataSize + header
    omega

theorem inBounds_readRow {row : MemoryRow} {off size : ℕ} :
    (readRow row off size).All (Access.InBounds n) ↔
      (size ≤ row.maxSize ∧ 0 < size → off + size ≤ queryBufferSize) := by
  rw [readRow, all_require_bind, all_record]
  rfl

theorem inBounds_readData {row : MemoryRow} {off : ℕ}
    (hfits : off + row.dataSize ≤ queryBufferSize) :
    (readData row off).All (Access.InBounds n) := by
  rw [readData]
  split_ifs
  · exact inBounds_readRow.mpr fun _ => hfits
  · exact (all_pure _).mpr trivial

/-- The data of a row are read. -/
theorem result_readData (row : MemoryRow) (off : ℕ) : (readData row off).result = some ⟨⟩ := by
  rw [readData]
  split_ifs with hpos
  · rw [readRow, require, if_pos ⟨le_refl _, hpos⟩]
    rfl
  · rfl

/-- A request for a row stays within the memory. -/
theorem inBounds_getSingleData (nTable nRow : UInt32) :
    (h.getSingleData nTable nRow).All (Access.InBounds n) := by
  rw [getSingleData]
  split
  · exact all_abort.mpr trivial
  · rename_i row hrow
    rw [all_require_bind]
    intro hsize
    rw [all_bind]
    refine ⟨inBounds_readData (by rwa [Nat.zero_add]), fun _ _ => ?_⟩
    exact inBounds_buildMsg le_rfl (lt_of_le_queryBufferSize hsize)

/-- A request for a row returns. -/
theorem isSome_getSingleData (nTable nRow : UInt32) :
    (h.getSingleData nTable nRow).result.isSome ↔ ∃ row ∈ h.monitor.row? nTable nRow,
      row.dataSize + MonitorSingleDataMsgEx.size ≤ monitorMaxDataSize := by
  rw [getSingleData]
  cases hrow : h.monitor.row? nTable nRow with
  | none => exact iff_of_false (by rintro ⟨⟩) (by rintro ⟨row, ⟨⟩, -⟩)
  | some row =>
    change (require (row.dataSize ≤ queryBufferSize) >>= _).result.isSome ↔ _
    rw [isSome_require_bind, result_bind, result_readData]
    change _ ∧ (require (Size.add row.dataSize MonitorSingleDataMsgEx.size ≤ monitorMaxDataSize) >>=
      _).result.isSome ↔ _
    rw [isSome_require_bind]
    constructor
    · rintro ⟨hsize, hfits, -⟩
      rw [queryBufferSize, monitorMaxDataSize] at hsize
      rw [Size.add_of_lt (by rw [MonitorSingleDataMsgEx.size, Size.modulus]; omega)] at hfits
      exact ⟨row, rfl, hfits⟩
    · rintro ⟨row', hrow', hfits⟩
      obtain rfl := Option.some.inj hrow'
      rw [MonitorSingleDataMsgEx.size, monitorMaxDataSize] at hfits
      have hadd : Size.add row.dataSize MonitorSingleDataMsgEx.size = row.dataSize + 15 :=
        Size.add_of_lt (by rw [MonitorSingleDataMsgEx.size, Size.modulus]; omega)
      refine ⟨?_, ?_, rfl⟩
      · rw [queryBufferSize, monitorMaxDataSize]
        omega
      · rwa [hadd, monitorMaxDataSize]

theorem inBounds_getDebugState (nTable nRow : UInt32) :
    (h.getDebugState nTable nRow).All (Access.InBounds n) := by
  rw [getDebugState]
  split
  · exact all_abort.mpr trivial
  · rw [all_record_bind, all_record]
    exact ⟨Nat.le_add_left _ _, Nat.le_of_ble_eq_true rfl⟩

theorem isSome_getDebugState (nTable nRow : UInt32) :
    (h.getDebugState nTable nRow).result.isSome ↔ (h.monitor.row? nTable nRow).isSome := by
  rw [getDebugState]
  cases h.monitor.row? nTable nRow with
  | none => rfl
  | some row => rfl

/-! ### A table -/

/-- A row that fits is copied, and the rows behind it follow. -/
theorem copyRows_of_fits {e : UInt32 × MemoryRow} {copied : ℕ}
    (hfits : copied + e.2.dataSize ≤ queryBufferSize) (rows : List (UInt32 × MemoryRow)) :
    ((copyRows copied (e :: rows)).All (Access.InBounds n) ↔
        (copyRows (copied + e.2.dataSize) rows).All (Access.InBounds n)) ∧
      (copyRows copied (e :: rows)).result = (copyRows (copied + e.2.dataSize) rows).result := by
  have hsum : Size.add e.2.dataSize copied ≤ queryBufferSize := by rwa [add_of_fits hfits]
  rw [copyRows, all_require_bind, result_bind, require, if_pos hsum]
  change (_ → _ ↔ _) ∧ _
  rw [forall_prop_of_true hsum]
  change _ ∧ Logged.result (if _ then _ else _) = _
  split_ifs with hpos
  · have hread : (readRow e.2 copied e.2.dataSize).result = some ⟨⟩ := by
      rw [readRow, require, if_pos ⟨le_refl _, hpos⟩]
      rfl
    have hnext : Size.add copied e.2.dataSize = copied + e.2.dataSize := by
      rw [add_of_fits (by rwa [Nat.add_comm]), Nat.add_comm]
    rw [all_bind, result_bind, hread, inBounds_readRow, hnext]
    refine ⟨⟨fun hall => hall.2 ⟨⟩ rfl, fun hall => ⟨fun _ => hfits, fun _ _ => hall⟩⟩, rfl⟩
  · have hzero : e.2.dataSize = 0 := Nat.eq_zero_of_not_pos hpos
    rw [hzero]
    exact ⟨Iff.rfl, rfl⟩

/-- The rows of a table are copied within the buffer precisely if each that seems to fit does. -/
theorem inBounds_copyRows (rows : List (UInt32 × MemoryRow)) {copied : ℕ}
    (hcopied : copied ≤ queryBufferSize) :
    ((copyRows copied rows).All (Access.InBounds n) ↔ RowsFit copied rows) ∧
      (RowsFit copied rows →
        ∀ total, (copyRows copied rows).result = some total → total ≤ queryBufferSize) := by
  induction rows generalizing copied with
  | nil =>
    refine ⟨iff_of_true ((all_pure _).mpr trivial) trivial, fun _ total ht => ?_⟩
    obtain rfl := Option.some.inj ht
    exact hcopied
  | cons e rows ih =>
    by_cases hfits : copied + e.2.dataSize ≤ queryBufferSize
    · obtain ⟨hall, hresult⟩ := copyRows_of_fits (n := n) hfits rows
      obtain ⟨ihall, ihresult⟩ := ih hfits
      have hsum : Size.add e.2.dataSize copied ≤ queryBufferSize := by rwa [add_of_fits hfits]
      have hrows : RowsFit copied (e :: rows) ↔ RowsFit (copied + e.2.dataSize) rows := by
        rw [RowsFit]
        exact ⟨fun hrows => (hrows hsum).2, fun hrows _ => ⟨hfits, hrows⟩⟩
      rw [hall, hresult, hrows]
      exact ⟨ihall, ihresult⟩
    -- The row does not fit. If the test lets it pass, it is copied nevertheless.
    · have hpos : 0 < e.2.dataSize := by omega
      rw [copyRows, RowsFit, all_require_bind, if_pos hpos]
      by_cases hsum : Size.add e.2.dataSize copied ≤ queryBufferSize
      · refine ⟨iff_of_false (fun hall => ?_) fun hrows => hfits (hrows hsum).1,
          fun hrows => absurd (hrows hsum).1 hfits⟩
        rw [all_bind, inBounds_readRow] at hall
        exact hfits ((hall hsum).1 ⟨le_refl _, hpos⟩)
      · refine ⟨iff_of_true (fun h => absurd h hsum) fun h => absurd h hsum,
          fun _ total ht => ?_⟩
        rw [result_bind, require, if_neg hsum] at ht
        cases ht

/-- **A request for a table.** -/
theorem inBounds_getDBData (nTable : UInt32) :
    (h.getDBData nTable).All (Access.InBounds n) ↔ ∀ table,
      ((h.monitor.dataset? nTable).bind fun ds => ds.tryGet nTable) = some table →
        RowsFit 0 table.rows := by
  rw [getDBData]
  cases (h.monitor.dataset? nTable).bind fun ds => ds.tryGet nTable with
  | none => exact iff_of_true (all_abort.mpr trivial) (by rintro table ⟨⟩)
  | some table =>
    obtain ⟨hall, hresult⟩ := inBounds_copyRows (n := n) table.rows (Nat.zero_le _)
    dsimp only
    rw [all_bind, hall]
    constructor
    · rintro ⟨hrows, -⟩ table' htable'
      obtain rfl := Option.some.inj htable'
      exact hrows
    · intro hrows
      refine ⟨hrows table rfl, fun total ht => ?_⟩
      have hle := hresult (hrows table rfl) total ht
      exact inBounds_buildMsg (Nat.le_of_ble_eq_true rfl) (lt_of_le_queryBufferSize hle)

/-! ### Requests for several rows -/

/-- The handler goes on as before, but for registrations of rows that are there. -/
def Continues (h h' : MonitorHandler) : Prop :=
  h'.monitor = h.monitor ∧ ∀ nTable nRow, h.monitor.row? nTable nRow = none →
    h'.registered (nTable, nRow) = h.registered (nTable, nRow)

theorem Continues.serves {h' : MonitorHandler} (hc : Continues h h') (op : MonitorOpcode)
    (nTable nRow : UInt32) : h'.Serves op nTable nRow ↔ h.Serves op nTable nRow := by
  obtain ⟨hmonitor, hregistered⟩ := hc
  cases hrow : h.monitor.row? nTable nRow with
  | none =>
    have heq := hregistered nTable nRow hrow
    cases op <;> simp only [Serves, hmonitor, heq]
  | some row => cases op <;> simp [Serves, hmonitor, hrow]

theorem setRegistered_spec (value : Bool) (nTable nRow : UInt32) :
    (h.setRegistered value nTable nRow).All (Access.InBounds n) ∧
      ((h.setRegistered value nTable nRow).result.isSome ↔
        h.registered (nTable, nRow) = value ∨ (h.monitor.row? nTable nRow).isSome) ∧
      ∀ h', (h.setRegistered value nTable nRow).result = some h' → Continues h h' := by
  rw [setRegistered]
  by_cases hvalue : h.registered (nTable, nRow) = value
  · rw [if_pos hvalue]
    refine ⟨(all_pure _).mpr trivial, iff_of_true rfl (.inl hvalue), fun h' heq => ?_⟩
    obtain rfl := Option.some.inj heq
    exact ⟨rfl, fun _ _ _ => rfl⟩
  rw [if_neg hvalue]
  cases hrow : h.monitor.row? nTable nRow with
  | none =>
    refine ⟨all_abort.mpr trivial, iff_of_false (by rintro ⟨⟩) ?_, by rintro h' ⟨⟩⟩
    rintro (heq | hsome)
    · exact hvalue heq
    · cases hsome
  | some row =>
    refine ⟨(all_pure _).mpr trivial, iff_of_true rfl (.inr rfl), fun h' heq => ?_⟩
    obtain rfl := Option.some.inj heq
    refine ⟨rfl, fun nTable' nRow' hnone => Function.update_of_ne ?_ _ _⟩
    rintro ⟨⟩
    rw [hrow] at hnone
    cases hnone

/-- A request that changes nothing. -/
theorem same_spec {x : Logged Access PUnit} (hx : x.All (Access.InBounds n)) :
    (x >>= fun _ => pure h).All (Access.InBounds n) ∧
      ((x >>= fun _ => pure h).result.isSome ↔ x.result.isSome) ∧
      ∀ h', (x >>= fun _ => pure h).result = some h' → Continues h h' := by
  rw [all_bind_pure, result_bind]
  refine ⟨hx, ?_, fun h' heq => ?_⟩
  · cases x.result with
    | none => rfl
    | some u => rfl
  · obtain ⟨u, -, hu⟩ := Option.bind_eq_some_iff.mp heq
    obtain rfl := Option.some.inj hu
    exact ⟨rfl, fun _ _ _ => rfl⟩

/-- An entry stays within the memory; it is served or throws. -/
theorem multiEntry_spec (op : MonitorOpcode) (nTable nRow : UInt32) :
    (h.multiEntry op nTable nRow).All (Access.InBounds n) ∧
      ((h.multiEntry op nTable nRow).result.isSome ↔ h.Serves op nTable nRow) ∧
      ∀ h', (h.multiEntry op nTable nRow).result = some h' → Continues h h' := by
  have hnothing : (pure h : Logged Access MonitorHandler).All (Access.InBounds n) ∧
      ((pure h : Logged Access MonitorHandler).result.isSome ↔ True) ∧
      ∀ h', (pure h : Logged Access MonitorHandler).result = some h' → Continues h h' := by
    refine ⟨(all_pure _).mpr trivial, iff_of_true rfl trivial, fun h' heq => ?_⟩
    obtain rfl := Option.some.inj heq
    exact ⟨rfl, fun _ _ _ => rfl⟩
  rw [multiEntry.eq_def, Serves.eq_def]
  split
  · exact setRegistered_spec true nTable nRow
  · obtain ⟨hall, hsome, hcontinues⟩ :=
      same_spec (h := h) (n := n) (inBounds_getSingleData nTable nRow)
    exact ⟨hall, hsome.trans (isSome_getSingleData nTable nRow), hcontinues⟩
  · exact setRegistered_spec false nTable nRow
  · obtain ⟨hall, hsome, hcontinues⟩ :=
      same_spec (h := h) (n := n) (inBounds_getDebugState nTable nRow)
    exact ⟨hall, hsome.trans (isSome_getDebugState nTable nRow), hcontinues⟩
  · cases op with
    | registerMultiSingleDataEx => contradiction
    | getMultiSingleDataEx => contradiction
    | unregisterMultiSingleDataEx => contradiction
    | getDebugMultiSingleDataEx => contradiction
    | _ => exact hnothing

/-- **The loop over the entries** stays within the message precisely if each entry ends there
that is reached because all entries before it are served. -/
theorem inBounds_multiLoop (reader : DataReader) (op : MonitorOpcode) (count i : ℕ) :
    (multiLoop reader op count i h).All (Access.InBounds n) ↔ ∀ j, j < count →
      (∀ k, k < j → h.Serves op (entryTable reader (i + k)) (entryRow reader (i + k))) →
        3 + 8 * (i + j) + 8 ≤ n := by
  induction count generalizing i h with
  | zero => exact iff_of_true ((all_pure _).mpr trivial) fun _ hj => absurd hj (Nat.not_lt_zero _)
  | succ count ih =>
    obtain ⟨hentry, hserves, hcontinues⟩ :=
      multiEntry_spec (h := h) (n := n) op (entryTable reader i) (entryRow reader i)
    have hindex (k : ℕ) : i + 1 + k = i + (k + 1) := Nat.add_right_comm i 1 k
    rw [multiLoop, all_record_bind, all_bind, and_iff_right hentry]
    constructor
    -- The first entry is served, so that the loop goes on and the others follow by induction.
    · rintro ⟨hfirst, hrest⟩ (_ | j) hj hbefore
      · exact hfirst
      · obtain ⟨h', hh'⟩ := Option.isSome_iff_exists.mp (hserves.mpr (hbefore 0 j.succ_pos))
        have hlast := (ih (i + 1)).mp (hrest h' hh') j (Nat.lt_of_succ_lt_succ hj) fun k hk => by
          rw [(hcontinues h' hh').serves, hindex]
          exact hbefore (k + 1) (Nat.succ_lt_succ hk)
        rwa [hindex] at hlast
    · intro hends
      refine ⟨hends 0 count.succ_pos fun k hk => absurd hk k.not_lt_zero, fun h' hh' => ?_⟩
      refine (ih (i + 1)).mpr fun j hj hbefore => ?_
      rw [hindex]
      refine hends (j + 1) (Nat.succ_lt_succ hj) fun k hk => ?_
      cases k with
      | zero => exact hserves.mp (Option.isSome_iff_exists.mpr ⟨h', hh'⟩)
      | succ k =>
        have hk' := hbefore k (Nat.lt_of_succ_lt_succ hk)
        rwa [(hcontinues h' hh').serves, hindex] at hk'

/-- `shNumOfMultiData`. -/
theorem toNat_tdiv_toShort {L : ℕ} (hL : L < 2 ^ 15) :
    ((toShort (.ofNat L)).tdiv 8).toNat = L / 8 := by
  have hmod : L % 2 ^ 16 = L := Nat.mod_eq_of_lt (by omega)
  rw [toShort, UInt16.toNat_ofNat', hmod, if_pos hL]
  rfl

/-- **A request for several rows** stays within the memory precisely if its entries do. -/
theorem inBounds_handleMultiSingleData {reader : DataReader} {L : ℕ} (op : MonitorOpcode)
    (hsize : reader.size = L + 2) (h8 : 8 ≤ L) (hL : L < 2 ^ 15)
    (hfield : ofLE (load reader.buffer 0 2) = L) :
    (h.handleMultiSingleData reader op).All (Access.InBounds reader.size) ↔
      h.EntriesEnd reader op := by
  have hfirst : Access.InBounds reader.size (.readMessage 0 2) := by
    change 0 + 2 ≤ reader.size
    omega
  rw [handleMultiSingleData, all_record_bind, and_iff_right hfirst, hfield,
    toNat_tdiv_toShort hL, inBounds_multiLoop, EntriesEnd, hsize, Nat.add_sub_cancel]
  simp only [Nat.zero_add]
  constructor
  · intro hends
    by_contra hnot
    obtain ⟨hdvd, hserves⟩ := not_or.mp hnot
    -- All entries are reached, also the last one, which ends at `3 + L`.
    have hpos : 0 < L / 8 := Nat.div_pos h8 (Nat.le_of_ble_eq_true rfl)
    have hlast := hends (L / 8 - 1) (Nat.sub_one_lt_of_lt hpos) fun k hk => by
      by_contra hk'
      exact hserves ⟨k, by omega, hk'⟩
    omega
  · rintro (hdvd | ⟨i, hi, hserves⟩) j hj hbefore
    · omega
    -- No entry behind one that is not served is reached.
    · have hji : j ≤ i := by
        by_contra hlt
        exact hserves (hbefore i (Nat.lt_of_not_le hlt))
      omega

/-! ### Descriptions of rows -/

theorem inBounds_writeFields (sizes : List ℕ) {off : ℕ}
    (hfits : off + sizes.sum ≤ queryBufferSize) :
    (writeFields off sizes).All (Access.InBounds n) ∧
      (writeFields off sizes).result = some (off + sizes.sum) := by
  induction sizes generalizing off with
  | nil => exact ⟨(all_pure _).mpr trivial, rfl⟩
  | cons size sizes ih =>
    rw [List.sum_cons, ← Nat.add_assoc] at hfits ⊢
    obtain ⟨hall, hresult⟩ := ih hfits
    rw [writeFields, all_record_bind]
    exact ⟨⟨(Nat.le_add_right _ _).trans hfits, hall⟩, hresult⟩

theorem length_shownTypeName (row : MemoryRow) (info : RowInfo) :
    (shownTypeName row info).length < maxName := by
  have hnames (type : TypeEnum) :
      (toBytes (type.getTypeName.getD "unknwon")).length < maxName := by
    cases type <;> decide
  rw [shownTypeName]
  split_ifs
  · exact hnames _
  · exact info.typeName_lt

theorem length_shownEnumName (row : MemoryRow) (info : RowInfo) :
    (shownEnumName row info).length < maxName := by
  rw [shownEnumName]
  split_ifs
  · exact info.typeName_lt
  · exact Nat.le_of_ble_eq_true rfl

theorem inBounds_writeEnumName (row : MemoryRow) (info : RowInfo) :
    (writeEnumName row info).All (Access.InBounds n) := by
  rw [writeEnumName]
  split_ifs
  · refine (all_record _).mpr ?_
    change 0 + _ ≤ maxName
    rw [Nat.zero_add]
    exact length_shownEnumName row info
  · exact (all_pure _).mpr trivial

/-- The description of a row stays within the memory, and so does its size. -/
theorem buildSingleRowDataMsg_spec (row : MemoryRow) (info : RowInfo) :
    (buildSingleRowDataMsg row info 4).All (Access.InBounds n) ∧
      ∀ msgLen, (buildSingleRowDataMsg row info 4).result = some msgLen →
        msgLen ≤ queryBufferSize := by
  have htype := length_shownTypeName row info
  have henum := length_shownEnumName row info
  have hname := info.name_lt
  have hlocal :
      Access.InBounds n (.writeLocal maxName 0 ((shownTypeName row info).length + 1)) := by
    change 0 + _ ≤ maxName
    rwa [Nat.zero_add]
  set typeLen := (shownTypeName row info).length
  set enumLen := (shownEnumName row info).length
  -- All three names together are much shorter than the buffer.
  have hfits : 4 + ([4, 4, typeLen, 4, info.name.length] ++
      if 0 < enumLen then [4, enumLen] else [4]).sum ≤ queryBufferSize := by
    rw [maxName] at htype henum hname
    rw [queryBufferSize, monitorMaxDataSize, List.sum_append]
    split_ifs <;> simp only [List.sum_cons, List.sum_nil] <;> omega
  obtain ⟨hall, hresult⟩ := inBounds_writeFields (n := n) _ hfits
  rw [buildSingleRowDataMsg, all_record_bind, all_bind, and_iff_right hlocal,
    and_iff_right (inBounds_writeEnumName row info), result_bind, result_record, Option.bind_some,
    result_bind]
  constructor
  · intro u _
    split
    · exact (all_pure _).mpr trivial
    · exact hall
  · intro msgLen hmsgLen
    obtain ⟨u, -, hu⟩ := Option.bind_eq_some_iff.mp hmsgLen
    split at hu
    · obtain rfl := Option.some.inj hu
      exact Nat.zero_le _
    · obtain rfl := Option.some.inj (hresult.symm.trans hu)
      exact hfits

theorem inBounds_sendRows (index : ℕ) (nTable : UInt32) (rows : List (UInt32 × MemoryRow)) :
    (h.sendRows index nTable rows).All (Access.InBounds n) := by
  induction rows with
  | nil => exact (all_pure _).mpr trivial
  | cons e rows ih =>
    obtain ⟨hall, hmsgLen⟩ :=
      buildSingleRowDataMsg_spec (n := n) e.2 (h.info index nTable e.1)
    rw [sendRows, all_bind, and_iff_right hall]
    intro msgLen hresult
    have hlt := lt_of_le_queryBufferSize (hmsgLen msgLen hresult)
    have hmsg : (buildMsg MonitorDBDataMsgEx.size msgLen).All (Access.InBounds n) :=
      inBounds_buildMsg (Nat.le_of_ble_eq_true rfl) hlt
    rw [all_record_bind, all_bind]
    exact ⟨Nat.le_of_ble_eq_true rfl, hmsg, fun _ _ => ih⟩

/-- A request for the rows of a table stays within the memory. -/
theorem inBounds_getRowsForTable (nTable : UInt32) :
    (h.getRowsForTable nTable).All (Access.InBounds n) := by
  have htable (index : ℕ) (ds : DataSet) :
      (h.sendTable index nTable ds).All (Access.InBounds n) := by
    rw [sendTable]
    split
    · exact (all_pure _).mpr trivial
    · exact inBounds_sendRows index nTable _
  have htables (datasets : List DataSet) :
      ∀ index, (h.sendTables nTable index datasets).All (Access.InBounds n) := by
    induction datasets with
    | nil => exact fun _ => (all_pure _).mpr trivial
    | cons ds datasets ih =>
      intro index
      rw [sendTables, all_bind]
      exact ⟨htable index ds, fun _ _ => ih (index + 1)⟩
  exact htables _ 0

/-! ### Schemas -/

theorem inBounds_writeJson (json : List UInt8) :
    (writeJson json).All (Access.InBounds n) ↔ JsonFits json := by
  have hfirst : Access.InBounds n (.writeQuery 0 4) := Nat.le_of_ble_eq_true rfl
  rw [writeJson, all_record_bind, and_iff_right hfirst, all_record]
  rfl

/-- A schema is written and sent. -/
theorem inBounds_sendJson (json : List UInt8) :
    (writeJson json >>= fun _ =>
      buildMsg MonitorSingleDataMsgEx.size (Size.add (jsonLength json) 4)).All
        (Access.InBounds n) ↔ JsonFits json := by
  have hlength : jsonLength json < 2 ^ 32 := Nat.mod_lt _ (Nat.le_of_ble_eq_true rfl)
  rw [all_bind, inBounds_writeJson]
  refine and_iff_left fun _ _ => inBounds_buildMsg le_rfl ?_
  rw [Size.add_of_lt (by rw [Size.modulus]; omega)]
  omega

/-- **A request for the schema of a row.** -/
theorem inBounds_getRowsSchema (tableID rowID : UInt32) :
    (h.getRowsSchema tableID rowID).All (Access.InBounds n) ↔
      ∀ json, h.rowJson? tableID rowID = some json → json ≠ [] → JsonFits json := by
  rw [getRowsSchema]
  cases h.rowJson? tableID rowID with
  | none => exact iff_of_true ((all_pure _).mpr trivial) (by rintro json ⟨⟩)
  | some json =>
    change (if json = [] then _ else _ : Logged Access PUnit).All _ ↔ _
    split_ifs with hempty
    · refine iff_of_true ((all_pure _).mpr trivial) fun json' heq hne => absurd ?_ hne
      rw [← Option.some.inj heq, hempty]
    · refine (inBounds_sendJson json).trans ⟨fun hfits json' heq _ => ?_, fun hfits =>
        hfits json rfl hempty⟩
      rwa [← Option.some.inj heq]

/-- **A request for the schema of an enumeration.** -/
theorem inBounds_getEnumSchema (enumName : List UInt8) :
    (h.getEnumSchema enumName).All (Access.InBounds n) ↔
      ∀ json, h.enumJson enumName = some json → JsonFits json := by
  rw [getEnumSchema]
  cases h.enumJson enumName with
  | none => exact iff_of_true ((all_pure _).mpr trivial) (by rintro json ⟨⟩)
  | some json =>
    refine (inBounds_sendJson json).trans ⟨fun hfits json' heq => ?_, fun hfits => hfits json rfl⟩
    rwa [← Option.some.inj heq]

theorem enumNameLength_eq {shLength : UInt16} {L : ℕ} (hlength : shLength.toNat = L)
    (h9 : 9 ≤ L) (hL : L < 2 ^ 15) : enumNameLength shLength = L - 9 := by
  -- The difference may wrap around, but the sum does so again.
  have hsum : L + (Size.modulus - 11) + 2 = (L - 9) + Size.modulus := by
    rw [Size.modulus]
    omega
  rw [enumNameLength, hlength, Size.ofInt16_of_lt hL, Size.add, Size.sub,
    DeToMonitorDataMsgEx.size, Nat.mod_add_mod, hsum, Nat.add_mod_right, Nat.mod_eq_of_lt]
  rw [Size.modulus]
  omega

/-- The name of an enumeration is copied within its array precisely if it is shorter. -/
theorem inBounds_copyEnumName {reader : DataReader} {shLength : UInt16} {L : ℕ}
    (hsize : reader.size = L + 2) (hlength : shLength.toNat = L) (h9 : 9 ≤ L)
    (hL : L < 2 ^ 15) :
    (h.copyEnumName reader shLength).All (Access.InBounds reader.size) ↔
      reader.size - 11 < 256 ∧ ∀ json,
        h.enumJson (untilNul (load reader.buffer 11 (reader.size - 11))) = some json →
          JsonFits json := by
  have hname : enumNameLength shLength = reader.size - 11 := by
    rw [enumNameLength_eq hlength h9 hL]
    omega
  have hmessage : Access.InBounds reader.size
      (.readMessage DeToMonitorDataMsgEx.size (reader.size - 11)) := by
    change 11 + (reader.size - 11) ≤ reader.size
    omega
  rw [copyEnumName, hname, all_record_bind, and_iff_right hmessage, all_record_bind,
    all_record_bind, inBounds_getEnumSchema, ← and_assoc]
  refine and_congr_left fun _ => ?_
  constructor
  · exact fun hstr => hstr.2
  · exact fun hlt => ⟨by rw [Access.InBounds, Nat.zero_add]; exact hlt.le, hlt⟩

/-! ### Updates -/

theorem inBounds_updateDebugValue {reader : DataReader} {shLength : UInt16} {L : ℕ}
    (nTable nRow : UInt32) (setDebugState : Bool)
    (hsize : reader.size = L + 2) (hlength : shLength.toNat = L) (h9 : 9 ≤ L)
    (hL : L < 2 ^ 15) :
    (h.updateDebugValue nTable nRow shLength setDebugState).All
      (Access.InBounds reader.size) := by
  rw [updateDebugValue]
  split
  · exact all_abort.mpr trivial
  · split_ifs
    · exact (all_pure _).mpr trivial
    · dsimp only
      rw [hlength, Size.ofInt16_of_lt hL, Size.sub_of_le h9 (by rw [Size.modulus]; omega),
        all_require_bind, all_record]
      intro _
      change 11 + (L - 9) ≤ reader.size
      omega

/-! ### Messages that arrive -/

theorem inBounds_readStruct_bind {α : Type} (reader : DataReader) (size : ℕ)
    (f : PUnit → Logged Access α) :
    (readStruct reader size >>= f).All (Access.InBounds reader.size) ↔
      (size ≤ reader.size → (f ⟨⟩).All (Access.InBounds reader.size)) := by
  by_cases hsize : size ≤ reader.size
  · have hread : readStruct reader size = record (.readMessage 0 size) := by
      rw [readStruct, require, if_pos hsize]
      rfl
    have hfirst : Access.InBounds reader.size (.readMessage 0 size) := by
      change 0 + size ≤ reader.size
      omega
    rw [hread, all_record_bind, and_iff_right hfirst, forall_prop_of_true hsize]
  · have hread : readStruct reader size = abort := by
      rw [readStruct, require, if_neg hsize]
      rfl
    rw [hread, all_bind]
    exact iff_of_true ⟨all_abort.mpr trivial, by rintro u ⟨⟩⟩ fun hle => absurd hle hsize

/-- A message has no length, or its size and its length field agree. -/
theorem size_of_wellFormed {msg : List UInt8} {reader : DataReader}
    (hmsg : monitorFrame.WellFormed msg) (hreader : reader.Holds msg) :
    reader.size = 2 ∨ ∃ L, 0 < L ∧ L < 2 ^ 15 ∧ reader.size = L + 2 ∧
      ofLE (load reader.buffer 0 2) = L := by
  have hmax : msg.length ≤ 32767 := hmsg.le_max
  have hheader : 2 ≤ msg.length := hmsg.header_le
  have hfield : ofLE (load reader.buffer 0 2) = monitorFrame.lengthField msg := by
    have htake := take_drop_load reader.buffer 0 (n := msg.length) (i := 0) (k := 2) hheader
    rw [hreader.load_eq] at htake
    exact congrArg ofLE htake.symm
  have hlength : reader.size = monitorFrame.total (monitorFrame.lengthField msg) :=
    hreader.size_eq.trans hmsg.length_eq
  rcases Nat.eq_zero_or_pos (monitorFrame.lengthField msg) with hzero | hpos
  · rw [hzero] at hlength
    exact .inl hlength
  · have hsize : reader.size = monitorFrame.lengthField msg + 2 := by
      rw [hlength, FrameFormat.total, if_neg hpos.ne', if_neg (by decide)]
      exact Nat.add_comm 2 _
    refine .inr ⟨_, hpos, ?_, hsize, hfield⟩
    have hle := hreader.size_eq.trans_le hmax
    omega

theorem toNat_shLength_message (reader : DataReader) :
    (message reader).shLength.toNat = ofLE (load reader.buffer 0 2) := by
  have hslice : slice (load reader.buffer 0 11) 0 2 = load reader.buffer 0 2 :=
    take_drop_load reader.buffer 0 (Nat.le_of_ble_eq_true rfl)
  have hlt := ofLE_lt (load reader.buffer 0 2)
  rw [length_load] at hlt
  rw [message, DeToMonitorDataMsgEx.ofBytes, DeToMonitorDataMsgEx.size, hslice,
    UInt16.toNat_ofNat']
  exact Nat.mod_eq_of_lt hlt

theorem inBounds_handle {reader : DataReader} {L : ℕ} (hsize : reader.size = L + 2)
    (h9 : 9 ≤ L) (hL : L < 2 ^ 15) (hfield : ofLE (load reader.buffer 0 2) = L)
    (op : Option MonitorOpcode) :
    (h.handle reader (message reader) op).All (Access.InBounds reader.size) ↔
      h.HarmlessRequest reader op := by
  have hlength := (toNat_shLength_message reader).trans hfield
  have h8 : 8 ≤ L := Nat.le_of_succ_le h9
  cases op with
  | none => exact iff_of_true ((all_pure _).mpr trivial) trivial
  | some op =>
    cases op with
    | getSingleDataEx =>
      exact iff_of_true ((all_bind_pure _ _).mpr (inBounds_getSingleData _ _)) trivial
    | registerMultiSingleDataEx => exact inBounds_handleMultiSingleData _ hsize h8 hL hfield
    | getMultiSingleDataEx => exact inBounds_handleMultiSingleData _ hsize h8 hL hfield
    | unregisterMultiSingleDataEx => exact inBounds_handleMultiSingleData _ hsize h8 hL hfield
    | getDebugMultiSingleDataEx => exact inBounds_handleMultiSingleData _ hsize h8 hL hfield
    | updateDataEx =>
      have hwrite := inBounds_updateDebugValue (h := h) (message reader).unTable
        (message reader).unRow false hsize hlength h9 hL
      exact iff_of_true ((all_bind_pure _ _).mpr hwrite) trivial
    | registerSingleDataEx => exact iff_of_true (setRegistered_spec true _ _).1 trivial
    | unregisterSingleDataEx => exact iff_of_true (setRegistered_spec false _ _).1 trivial
    | updateDebugStateEx =>
      have hstate := inBounds_updateDebugValue (h := h) (message reader).unTable
        (message reader).unRow true hsize hlength h9 hL
      exact iff_of_true ((all_bind_pure _ _).mpr hstate) trivial
    | getDebugMode =>
      exact iff_of_true ((all_bind_pure _ _).mpr (inBounds_getDebugState _ _)) trivial
    | getRows =>
      exact iff_of_true ((all_bind_pure _ _).mpr (inBounds_getRowsForTable _)) trivial
    | getRowSchema => exact (all_bind_pure _ _).trans (inBounds_getRowsSchema _ _)
    | getEnumSchema => exact (all_bind_pure _ _).trans (inBounds_copyEnumName hsize hlength h9 hL)
    | _ => exact iff_of_true ((all_pure _).mpr trivial) trivial

end Parts

/-- **The message handler stays within its memory** on a message that the protocol delivers
precisely if the message is harmless. -/
theorem messageHandler_inBounds_iff {msg : List UInt8} {reader : DataReader}
    (hmsg : monitorFrame.WellFormed msg) (hreader : reader.Holds msg) :
    (h.messageHandler reader).All (Access.InBounds msg.length) ↔ h.Harmless reader := by
  rw [← hreader.size_eq, messageHandler, all_record_bind, Harmless]
  rcases size_of_wellFormed hmsg hreader with htwo | ⟨L, hpos, hL, hsize, hfield⟩
  · rw [htwo]
    exact iff_of_false (fun hall => absurd hall.1 (by decide)) fun hharmless =>
      absurd hharmless.1 (by decide)
  refine and_congr Iff.rfl ?_
  have hrequest (op : Option MonitorOpcode) :
      (readStruct reader DeToMonitorDataMsgEx.size >>= fun _ =>
        h.handle reader (message reader) op).All (Access.InBounds reader.size) ↔
      (DeToMonitorDataMsgEx.size ≤ reader.size → h.HarmlessRequest reader op) := by
    rw [inBounds_readStruct_bind]
    refine forall_congr' fun hle => inBounds_handle hsize ?_ hL hfield op
    rw [DeToMonitorDataMsgEx.size] at hle
    omega
  cases MonitorOpcode.ofValue? reader.getOpcodeExt with
  | none => exact hrequest none
  | some op =>
    cases op with
    | getKeepAlive => exact iff_of_true ((all_pure _).mpr trivial) fun _ => trivial
    | getDbDataEx =>
      have hopcode : 2 < reader.size := by omega
      change (if 2 < reader.size then _ else _ : Logged Access MonitorHandler).All _ ↔ _
      rw [if_pos hopcode, inBounds_readStruct_bind, all_bind_pure, inBounds_getDBData]
    | _ => exact hrequest _

/-- A monitor without data sets that knows one enumeration. -/
def sampleHandler : MonitorHandler where
  monitor := ⟨[], false, 0⟩
  info _ _ _ := ⟨[], [], by decide, by decide⟩
  rowJson _ _ _ := none
  enumJson name := if name = toBytes "Mode" then some (toBytes "\x7b\x7d") else none
  registered _ := false

/-- A request for the schema of an enumeration. -/
def enumSchemaRequest (name : List UInt8) : List UInt8 :=
  toLE 2 (9 + name.length) ++ [MonitorOpcode.getEnumSchema.value] ++ List.replicate 8 0 ++ name

theorem messageHandler_inBounds_iff_sample :
    (sampleHandler.messageHandler (.on (fun _ => 7) (enumSchemaRequest (toBytes "Mode")))).All
      (Access.InBounds 15) := by
  have hmsg : monitorFrame.WellFormed (enumSchemaRequest (toBytes "Mode")) := by decide
  refine (sampleHandler.messageHandler_inBounds_iff hmsg (DataReader.holds_on _ _)).mpr
    ⟨by decide, fun _ => ⟨by decide, ?_⟩⟩
  intro json hjson
  obtain rfl : toBytes "\x7b\x7d" = json := Option.some.inj hjson
  exact Nat.le_of_ble_eq_true rfl

/-- The end of a name of 256 bytes is written behind its array. -/
theorem enum_name_leaves_array :
    ¬∀ (h : MonitorHandler) (msg : List UInt8) (reader : DataReader),
      monitorFrame.WellFormed msg → reader.Holds msg →
        (h.messageHandler reader).All (Access.InBounds msg.length) := by
  intro hall
  have hin := hall sampleHandler (enumSchemaRequest (List.replicate 256 97))
    (.on (fun _ => 7) (enumSchemaRequest (List.replicate 256 97))) (by decide +kernel)
    (DataReader.holds_on _ _) (.writeLocal 256 256 1) (by decide +kernel)
  exact absurd hin (by decide)

end MonitorHandler

end UtilityFramework
