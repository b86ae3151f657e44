import UtilityFramework.Remote.Ownership

/-!
# What an agent sends and accepts

The external ids of an agent are settled when it is made (`SameIds`). A data message that it
sends carries a change, or a row of a table that it has been asked for; one that it writes to
a row is for the table of its external id; and it asks for the tables that it imports.
-/

namespace UtilityFramework

/-! ### The external ids of an agent -/

namespace RemoteAgent

variable {a b : RemoteAgent} {fresh : ℕ → ℕ → UInt8}

/-- The table that messages with an external id are written to. -/
def tableOf (a : RemoteAgent) (externalId : UInt32) : Option UInt32 :=
  (a.findExternal externalId).map Prod.fst

/-- The external id under which the changes of a table are sent. -/
def sentId (a : RemoteAgent) (table : UInt32) : Option UInt32 :=
  (a.findInfo table).bind fun info =>
    if info.exportedOrImportedFlag = .none then none else some info.externalId

/-- Two states of one agent: the tables have kept their flags and external ids. -/
structure SameIds (a b : RemoteAgent) : Prop where
  tableOf_eq : b.tableOf = a.tableOf
  sentId_eq : b.sentId = a.sentId
  importedId_eq : b.importedId = a.importedId

theorem sameIds_mapInfo {f : UInt32 → TableInfo → TableInfo}
    (hflag : ∀ k i, (f k i).exportedOrImportedFlag = i.exportedOrImportedFlag)
    (hid : ∀ k i, (f k i).externalId = i.externalId) : SameIds a (a.mapInfo f) where
  tableOf_eq := by
    funext externalId
    simp only [tableOf, findExternal, mapInfo, List.find?_map, Function.comp_def, hid,
      Option.map_map]
  sentId_eq := by
    funext table
    rw [sentId, sentId, findInfo_mapInfo]
    cases a.findInfo table with
    | none => rfl
    | some info => simp only [Option.map_some, Option.bind_some, hflag, hid]
  importedId_eq := funext fun table => importedId_mapInfo hflag hid table

theorem sameIds_setAcked (a : RemoteAgent) (table : UInt32) : SameIds a (a.setAcked table) :=
  sameIds_mapInfo (fun k i => by split <;> rfl) (fun k i => by split <;> rfl)

theorem sameIds_handleCommunicationError (a : RemoteAgent) :
    SameIds a a.handleCommunicationError := by
  have h := sameIds_mapInfo (a := a) (f := fun _ info =>
    if info.exportedOrImportedFlag = .imported then { info with isAcked := false } else info)
    (fun k i => by split <;> rfl) (fun k i => by split <;> rfl)
  exact ⟨h.tableOf_eq, h.sentId_eq, h.importedId_eq⟩

theorem sameIds_start (a : RemoteAgent) : SameIds a a.start := by
  have h := sameIds_mapInfo (a := a) (f := fun _ info =>
    if info.exportedOrImportedFlag = .exported then { info with isAcked := true } else info)
    (fun k i => by split <;> rfl) (fun k i => by split <;> rfl)
  exact ⟨h.tableOf_eq, h.sentId_eq, h.importedId_eq⟩

theorem sameIds_messageHandler (fresh : ℕ → ℕ → UInt8) (a : RemoteAgent) (stack : List UInt8)
    (now : UInt32) (msg : List UInt8) :
    SameIds a (a.messageHandler fresh stack now msg).agent := by
  rcases messageHandler_cases fresh a stack now msg with
    ⟨v, -, hres, -, heq⟩ | ⟨-, ⟨⟨tick, heq⟩, -, -⟩⟩
  · rw [heq, writeValue, if_neg (by simp [hres])]
    dsimp only
    split
    · have h := sameIds_setAcked a v.table
      exact ⟨h.tableOf_eq, h.sentId_eq, h.importedId_eq⟩
    · exact ⟨rfl, rfl, rfl⟩
  · rw [heq]
    exact ⟨rfl, rfl, rfl⟩

theorem sameIds_periodic (a : RemoteAgent) (now : UInt32) :
    SameIds a (a.periodic now).agent := by
  cases htime : a.timedOut now with
  | false =>
    rw [periodic_of_inTime htime]
    exact ⟨rfl, rfl, rfl⟩
  | true =>
    rw [periodic_of_timedOut htime]
    split
    · exact sameIds_handleCommunicationError a
    · exact ⟨rfl, rfl, rfl⟩

/-! ### The messages of an agent -/

/-- The data message of a row carries the row. -/
theorem isData_dataMsg {n : ℕ} {unDB unEntry rowType externalId entry : UInt32}
    {opcode : RemoteAgentOpcode} {data data' : List UInt8}
    (h : IsData ((dataHeader n unDB unEntry rowType opcode).bytes ++ data) externalId entry
      data') : unDB = externalId ∧ unEntry = entry ∧ data = data' := by
  obtain ⟨m, hm, -, hdb, hentry, hdata⟩ := h
  rw [RemoteAgentDataMsg.read_bytes_append, Option.some.injEq] at hm
  subst hm
  rw [← RemoteAgentDataMsg.length_bytes (dataHeader n unDB unEntry rowType opcode),
    List.drop_left] at hdata
  exact ⟨hdb, hentry, hdata⟩

/-- The messages of the periodic task are no data messages. -/
theorem not_isData_of_opcode {m : RemoteAgentDataMsg} (hop : isDataOpcode m.byOpcode = false)
    (externalId entry : UInt32) (data : List UInt8) : ¬IsData m.bytes externalId entry data := by
  rintro ⟨m', hm, hop', -⟩
  have hread := RemoteAgentDataMsg.read_bytes_append m []
  rw [List.append_nil, hm, Option.some.injEq] at hread
  rw [hread, hop] at hop'
  exact absurd hop' (by decide)

/-- What `onRowChange` sends for a change is a message with all its data. -/
theorem onRowChange_ok {c : RowChange} {msg : List UInt8} {externalId entry : UInt32}
    {data : List UInt8} (h : a.onRowChange c = some (.ok msg))
    (hdata : IsData msg externalId entry data) :
    a.sentId c.table = some externalId ∧ c.entry = entry ∧
      (c.data.length < 2 ^ 31 → c.data = data) := by
  rw [onRowChange] at h
  split at h
  · rename_i info row hinfo hrow
    split_ifs at h with hflag
    rw [Option.some.injEq, buildSingleMsg_eq] at h
    split_ifs at h with hover
    rw [Except.ok.injEq] at h
    subst h
    obtain ⟨hid, hentry, rfl⟩ := isData_dataMsg hdata
    refine ⟨?_, hentry, fun hlt => ?_⟩
    · simp only [sentId, hinfo, Option.bind_some, if_neg hflag, hid]
    · rw [Size.ofInt32_of_lt hlt, List.take_length]
  · exact absurd h (by simp)

/-- What is sent for a table that has been asked for are its rows. -/
theorem mem_registerRows {stack : List UInt8} {nDB : UInt32} {rows : List (UInt32 × MemoryRow)}
    {msg : List UInt8} (h : msg ∈ (a.registerRows stack nDB rows).1) :
    ∃ e ∈ rows, a.registerRow stack nDB e = .ok msg := by
  induction rows with
  | nil => exact absurd h List.not_mem_nil
  | cons e rows ih =>
    rw [registerRows] at h
    cases hrow : a.registerRow stack nDB e with
    | error f =>
      rw [hrow] at h
      exact absurd h List.not_mem_nil
    | ok msg' =>
      simp only [hrow, List.mem_append] at h
      rcases h with h | h
      · rw [commSend] at h
        split_ifs at h
        · exact absurd h List.not_mem_nil
        · rw [List.mem_singleton] at h
          exact ⟨e, List.mem_cons_self, h ▸ hrow⟩
      · obtain ⟨e', he', hmsg⟩ := ih h
        exact ⟨e', List.mem_cons_of_mem e he', hmsg⟩

/-- A message sent for a row that has been asked for is one for the row. -/
theorem registerRow_keys {stack : List UInt8} {nDB : UInt32} {e : UInt32 × MemoryRow}
    {msg : List UInt8} {externalId entry : UInt32} {data : List UInt8}
    (h : a.registerRow stack nDB e = .ok msg) (hdata : IsData msg externalId entry data) :
    nDB = externalId ∧ e.1 = entry := by
  simp only [registerRow] at h
  split_ifs at h
  rw [buildSingleMsg_eq] at h
  split_ifs at h
  rw [Except.ok.injEq] at h
  subst h
  obtain ⟨hid, hentry, -⟩ := isData_dataMsg hdata
  exact ⟨hid, hentry⟩

/-- Its data are the row as it is read in full. -/
theorem registerRow_data {stack : List UInt8} {nDB entry : UInt32} {row : MemoryRow}
    {msg : List UInt8} {externalId entry' : UInt32} {data : List UInt8} (hsound : row.Sound)
    (htype : row.type ≠ .emptyType) (h : a.registerRow stack nDB (entry, row) = .ok msg)
    (hdata : IsData msg externalId entry' data) :
    row.full = data ∧ data.length < 2 ^ 31 := by
  obtain ⟨payload, hrep⟩ := hsound htype
  have hrow := h
  simp only [registerRow] at hrow
  split_ifs at hrow with hpos hle
  have hle' : row.dataSize < 2 ^ 31 := by
    rw [registerBufferSize] at hle
    omega
  obtain ⟨buffer, hlen, htake, heq⟩ :=
    registerRow_eq a entry hrep (by omega) (by omega) stack nDB
  rw [heq, buildSingleMsg_eq, Size.ofInt32_of_lt hle'] at h
  split_ifs at h
  rw [Except.ok.injEq] at h
  subst h
  obtain ⟨-, -, hd⟩ := isData_dataMsg hdata
  refine ⟨htake.symm.trans hd, ?_⟩
  rw [← hd, List.length_take]
  omega

/-- A message that asks for the table of an external id. -/
def IsRequest (msg : List UInt8) (externalId : UInt32) : Prop :=
  ∃ m, RemoteAgentDataMsg.read msg = some m ∧
    m.byOpcode = RemoteAgentOpcode.registerDB.value ∧ m.unDBIndex = externalId

/-- The messages for rows ask for no table. -/
theorem not_isRequest_buildSingleMsg {values : List UInt8} {size : ℕ}
    {unDB unEntry rowType : UInt32} {msg : List UInt8}
    (h : buildSingleMsg values size unDB unEntry rowType a.updateOpcode = .ok msg)
    (externalId : UInt32) : ¬IsRequest msg externalId := by
  rintro ⟨m, hm, hop, -⟩
  rw [buildSingleMsg_eq] at h
  split_ifs at h
  rw [Except.ok.injEq] at h
  subst h
  rw [RemoteAgentDataMsg.read_bytes_append, Option.some.injEq] at hm
  subst hm
  have hval : a.updateOpcode.value = RemoteAgentOpcode.registerDB.value := hop
  rw [updateOpcode] at hval
  split_ifs at hval <;> exact absurd hval (by decide)

theorem not_isRequest_onRowChange {c : RowChange} {msg : List UInt8}
    (h : a.onRowChange c = some (.ok msg)) (externalId : UInt32) :
    ¬IsRequest msg externalId := by
  rw [onRowChange] at h
  split at h
  · split_ifs at h
    rw [Option.some.injEq] at h
    exact not_isRequest_buildSingleMsg h externalId
  · exact absurd h (by simp)

theorem read_bytes (m : RemoteAgentDataMsg) : RemoteAgentDataMsg.read m.bytes = some m := by
  have h := RemoteAgentDataMsg.read_bytes_append m []
  rwa [List.append_nil] at h

/-- What the periodic task sends: no data, and requests for the imported tables only. -/
theorem mem_sent_periodic {now : UInt32} {msg : List UInt8} (h : msg ∈ (a.periodic now).sent)
    (externalId : UInt32) :
    (∀ entry data, ¬IsData msg externalId entry data) ∧
      (IsRequest msg externalId → ∃ table, a.importedId table = some externalId) := by
  have hkeep : (∀ entry data, ¬IsData keepAliveMsg externalId entry data) ∧
      (IsRequest keepAliveMsg externalId → ∃ table, a.importedId table = some externalId) := by
    refine ⟨not_isData_of_opcode (by decide) externalId, ?_⟩
    rintro ⟨m, hm, hop, -⟩
    rw [keepAliveMsg, read_bytes, Option.some.injEq] at hm
    subst hm
    exact absurd hop (by decide)
  by_cases htime : communicationFailureTimeout < now - a.tickGetFromLastArrivedAck
  · rw [periodic, if_pos htime, List.mem_singleton] at h
    exact h ▸ hkeep
  · rw [periodic, if_neg htime] at h
    rcases List.mem_append.mp h with h | h
    · obtain ⟨id, hid, rfl⟩ := List.mem_map.mp h
      obtain ⟨t, -, ht⟩ := List.mem_filterMap.mp hid
      refine ⟨not_isData_of_opcode rfl externalId, ?_⟩
      rintro ⟨m, hm, -, hdb⟩
      rw [registerMsg, read_bytes, Option.some.injEq] at hm
      subst hm
      exact ⟨t.key, ht.trans (congrArg some hdb)⟩
    · rw [List.mem_singleton] at h
      exact h ▸ hkeep

/-- A table is found under one external id. -/
theorem tableOf_inj {x y table : UInt32} (hx : a.tableOf x = some table)
    (hy : a.tableOf y = some table) : x = y := by
  obtain ⟨⟨t, info⟩, hfx, rfl⟩ := Option.map_eq_some_iff.mp hx
  obtain ⟨⟨t', info'⟩, hfy, heq⟩ := Option.map_eq_some_iff.mp hy
  have hkey : t' = t := heq
  subst hkey
  have hidx : info.externalId = x := by simpa using List.find?_some hfx
  have hidy : info'.externalId = y := by simpa using List.find?_some hfy
  have hsame := (findInfo_of_findExternal hfx).symm.trans (findInfo_of_findExternal hfy)
  rw [Option.some.injEq] at hsame
  rw [← hidx, ← hidy, hsame]

/-- A message that is written to a row is a data message for it. -/
theorem isData_of_receiveValue {msg : List UInt8} {v : ReceivedValue}
    (hv : a.receiveValue msg = .ok (some v))
    (hmem : (v.table, v.entry) ∈ a.rowReceived fresh msg) :
    ∃ externalId, a.tableOf externalId = some v.table ∧ IsData msg externalId v.entry v.data := by
  cases hm : RemoteAgentDataMsg.read msg with
  | none =>
    simp only [rowReceived, hm] at hmem
    exact absurd hmem List.not_mem_nil
  | some m =>
    simp only [rowReceived, hm, hv] at hmem
    split_ifs at hmem with hop
    · rw [receiveValue] at hv
      simp only [hm] at hv
      split at hv
      · simp at hv
      · rename_i e hext
        split at hv
        · simp at hv
        · split_ifs at hv
          rw [Except.ok.injEq, Option.some.injEq] at hv
          subst hv
          exact ⟨m.unDBIndex, by rw [tableOf, hext]; rfl, m, hm, hop.1, rfl, rfl, rfl⟩
    · exact absurd hmem List.not_mem_nil

/-- A data message that answers a request for a table is a row of it. -/
theorem isData_of_handleRegisterDB {stack : List UInt8} {nDB externalId entry : UInt32}
    {msg data : List UInt8} (hmsg : msg ∈ (a.handleRegisterDB stack nDB).1)
    (hdata : IsData msg externalId entry data) :
    nDB = externalId ∧ ∀ table row, a.tableOf externalId = some table →
      a.dataset.row? table entry = some row → row.Sound → row.type ≠ .emptyType →
      row.full = data ∧ data.length < 2 ^ 31 := by
  rw [handleRegisterDB] at hmsg
  split at hmsg
  · exact absurd hmsg List.not_mem_nil
  · rename_i e hext
    split at hmsg
    · exact absurd hmsg List.not_mem_nil
    · rename_i t ht
      obtain ⟨⟨entry', row'⟩, he, hreg⟩ := mem_registerRows hmsg
      obtain ⟨rfl, rfl⟩ := registerRow_keys hreg hdata
      refine ⟨rfl, fun table row htable hrow hsound htype => ?_⟩
      rw [tableOf, hext, Option.map_some, Option.some.injEq] at htable
      rw [← htable, DataSet.row?, ht, Option.bind_some, DataTable.queryRow_of_mem he,
        Option.some.injEq] at hrow
      subst hrow
      exact registerRow_data hsound htype hreg hdata

/-- No answer to a request for a table is a request. -/
theorem not_isRequest_of_handleRegisterDB {stack : List UInt8} {nDB : UInt32}
    {msg : List UInt8} (hmsg : msg ∈ (a.handleRegisterDB stack nDB).1) (externalId : UInt32) :
    ¬IsRequest msg externalId := by
  rw [handleRegisterDB] at hmsg
  split at hmsg
  · exact absurd hmsg List.not_mem_nil
  · split at hmsg
    · exact absurd hmsg List.not_mem_nil
    · obtain ⟨e, -, hreg⟩ := mem_registerRows hmsg
      simp only [registerRow] at hreg
      split_ifs at hreg
      exact not_isRequest_buildSingleMsg hreg externalId

end RemoteAgent

end UtilityFramework
