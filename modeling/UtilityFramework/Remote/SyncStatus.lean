import UtilityFramework.Lib.Transition
import UtilityFramework.Remote.DataMessages

/-!
# The synchronisation status of the remote agent

`DATA_SYNCED_STS` is computed by the periodic task from one acknowledgement for each table,
which is set when a message for any row of the table has been written and cleared by a
communication error. `SyncState` adds to an agent the rows it has received since the last
communication error; an acknowledgement then says that there is one of its table
(`AckedByRow`), not that there are all.
-/

namespace UtilityFramework

open Transition

namespace RemoteAgent

variable {a : RemoteAgent} {table : UInt32}

/-! ### The map of the tables -/

theorem findInfo_mapInfo (a : RemoteAgent) (f : UInt32 → TableInfo → TableInfo)
    (table : UInt32) : (a.mapInfo f).findInfo table = (a.findInfo table).map (f table) := by
  simp only [findInfo, mapInfo, List.find?_map, Function.comp_def]
  cases hf : a.tableInfoMap.find? fun e => e.1 = table with
  | none => rfl
  | some e =>
    have hkey : e.1 = table := by simpa using List.find?_some hf
    simp [hkey]

/-- An entry that is found by its external id is the entry of its table. -/
theorem findInfo_of_findExternal {externalId : UInt32} {info : TableInfo}
    (h : a.findExternal externalId = some (table, info)) : a.findInfo table = some info := by
  have hmem : (table, info) ∈ a.tableInfoMap := List.mem_of_find?_eq_some h
  have hfind := find?_fst_of_mem a.keys_nodup hmem
  rw [findInfo, hfind]
  rfl

theorem mem_of_findInfo {info : TableInfo} (h : a.findInfo table = some info) :
    (table, info) ∈ a.tableInfoMap := by
  obtain ⟨e, he, rfl⟩ := Option.map_eq_some_iff.mp h
  have hkey : e.1 = table := by simpa using List.find?_some he
  exact hkey ▸ List.mem_of_find?_eq_some he

/-- The tables that are to be in step. -/
def Imported (a : RemoteAgent) (table : UInt32) : Prop := a.importedId table ≠ none

instance (table : UInt32) : Decidable (a.Imported table) :=
  inferInstanceAs (Decidable (a.importedId table ≠ none))

theorem importedId_mapInfo {f : UInt32 → TableInfo → TableInfo}
    (hflag : ∀ k i, (f k i).exportedOrImportedFlag = i.exportedOrImportedFlag)
    (hid : ∀ k i, (f k i).externalId = i.externalId) (table : UInt32) :
    (a.mapInfo f).importedId table = a.importedId table := by
  rw [importedId, importedId, findInfo_mapInfo]
  cases a.findInfo table with
  | none => rfl
  | some info => simp only [Option.map_some, Option.bind_some, hflag, hid]

theorem Imported.exists_info (h : a.Imported table) :
    ∃ info, a.findInfo table = some info ∧ info.exportedOrImportedFlag = .imported := by
  rw [Imported, importedId] at h
  cases hinfo : a.findInfo table with
  | none =>
    rw [hinfo] at h
    exact absurd rfl h
  | some info =>
    refine ⟨info, rfl, ?_⟩
    by_contra hflag
    simp [hinfo, hflag] at h

/-- There is nothing to ask for precisely when the imported tables are acknowledged. -/
theorem registrationRequests_isEmpty :
    a.registrationRequests.isEmpty = true ↔
      ∀ t ∈ a.dataset.tableKeys, a.Imported t → a.acked t = true := by
  rw [List.isEmpty_iff, registrationRequests, List.filterMap_eq_nil_iff]
  simp only [List.mem_filter, DataSet.tableKeys, List.mem_map, Imported]
  constructor
  · rintro h t ⟨T, hT, rfl⟩ himp
    by_contra hack
    exact himp (h T ⟨hT, by simpa using hack⟩)
  · rintro h T ⟨hT, hack⟩
    by_contra himp
    have := h T.key ⟨T, hT, rfl⟩ himp
    simp [this] at hack

end RemoteAgent

/-! ### Runs -/

/-- An agent with the rows it has received since the last communication error. -/
structure SyncState where
  agent : RemoteAgent
  received : List (UInt32 × UInt32)

/-- A message arrives, or the timer elapses. -/
inductive AgentEvent
  | receive (now : UInt32) (msg : List UInt8)
  | tick (now : UInt32)

namespace RemoteAgent

/-- The opcodes of data messages. -/
def isDataOpcode (opcode : UInt8) : Bool :=
  opcode = RemoteAgentOpcode.dataUpdateAndReplay.value ||
    opcode = RemoteAgentOpcode.dataUpdate.value ||
    opcode = RemoteAgentOpcode.exportedDBReplay.value

/-- The row that a message is written to, if the row takes it. -/
def rowReceived (fresh : ℕ → ℕ → UInt8) (a : RemoteAgent) (msg : List UInt8) :
    List (UInt32 × UInt32) :=
  match RemoteAgentDataMsg.read msg, a.receiveValue msg with
  | some m, .ok (some v) =>
    if isDataOpcode m.byOpcode = true ∧
        (v.row.writeBytes fresh (a.valueCall v.data)).result = true then [(v.table, v.entry)]
    else []
  | _, _ => []

/-- The keep-alive messages have been missing for too long. -/
def timedOut (a : RemoteAgent) (now : UInt32) : Bool :=
  decide (communicationFailureTimeout < now - a.tickGetFromLastArrivedAck)

end RemoteAgent

/-- One event. A message that overflows a buffer of the agent has no defined successor. -/
def SyncState.step (fresh : ℕ → ℕ → UInt8) (stack : List UInt8) (s : SyncState) :
    AgentEvent → Option SyncState
  | .receive now msg =>
    let r := s.agent.messageHandler fresh stack now msg
    if r.failure = some .overflow then none
    else some ⟨r.agent, s.received ++ s.agent.rowReceived fresh msg⟩
  | .tick now =>
    -- a communication error is the end of what has been received before
    let error := s.agent.timedOut now && s.agent.gotMsgFromRemoteAgentApp
    some ⟨(s.agent.periodic now).agent, if error then [] else s.received⟩

namespace SyncState

/-- Every row of the imported tables has been received. -/
def Complete (s : SyncState) : Prop :=
  ∀ k ∈ s.agent.dataset.rowKeys, s.agent.Imported k.1 → k ∈ s.received

/-- Of each imported table at least one row has been received. -/
def Begun (s : SyncState) : Prop :=
  ∀ t ∈ s.agent.dataset.tableKeys, s.agent.Imported t → ∃ r, (t, r) ∈ s.received

/-- While the status says that the data are in step, every row has been received. -/
def Synced (s : SyncState) : Prop := s.agent.dataSynced = true → s.Complete

/-- The condition on an event: a tick in time does not come between the first and the last
row, when there are already rows of every table. -/
def NotBetween (s : SyncState) : AgentEvent → Prop
  | .receive _ _ => True
  | .tick now => s.agent.timedOut now = false → s.Begun → s.Complete

/-- A table is acknowledged if and only if one of its rows has been received. -/
def AckedByRow (s : SyncState) : Prop :=
  ∀ t, s.agent.Imported t → (s.agent.acked t = true ↔ ∃ r, (t, r) ∈ s.received)

end SyncState

/-! ### What a message does -/

namespace RemoteAgent

variable {fresh : ℕ → ℕ → UInt8} {a b : RemoteAgent}

/-- What no message changes. -/
structure SameTables (a b : RemoteAgent) : Prop where
  dataSynced_eq : b.dataSynced = a.dataSynced
  tableKeys_eq : b.dataset.tableKeys = a.dataset.tableKeys
  rowKeys_eq : b.dataset.rowKeys = a.dataset.rowKeys
  importedId_eq : b.importedId = a.importedId

/-- What a message does that is not written to a row: it changes at most the tick of the last
keep-alive, and it is answered at most if it asks for a table. -/
structure Unwritten (a : RemoteAgent) (stack msg : List UInt8) (r : AgentResult) : Prop where
  agent_eq : ∃ tick, r.agent = { a with tickGetFromLastArrivedAck := tick }
  raised_eq : r.raised = []
  sent_eq : r.sent = [] ∨ ∃ m, RemoteAgentDataMsg.read msg = some m ∧
    m.byOpcode = RemoteAgentOpcode.registerDB.value ∧
    r.sent = (a.handleRegisterDB stack m.unDBIndex).1

theorem Unwritten.refl (a : RemoteAgent) (stack msg : List UInt8) (f : Option Failure) :
    Unwritten a stack msg ⟨a, [], [], f⟩ :=
  ⟨⟨a.tickGetFromLastArrivedAck, rfl⟩, rfl, Or.inl rfl⟩

/-- `MessageHandler` hands data messages to `HandleSingleDataValue`. -/
theorem messageHandler_of_isData {m : RemoteAgentDataMsg} {msg : List UInt8}
    (hm : RemoteAgentDataMsg.read msg = some m) (hop : isDataOpcode m.byOpcode = true)
    (fresh : ℕ → ℕ → UInt8) (a : RemoteAgent) (stack : List UInt8) (now : UInt32) :
    a.messageHandler fresh stack now msg = a.handleSingleDataValue fresh msg := by
  have hkeep : m.byOpcode ≠ RemoteAgentOpcode.keepAlive.value := by
    rintro heq
    rw [heq] at hop
    revert hop
    decide
  have hreg : m.byOpcode ≠ RemoteAgentOpcode.registerDB.value := by
    rintro heq
    rw [heq] at hop
    revert hop
    decide
  simp only [isDataOpcode, Bool.or_eq_true, decide_eq_true_eq] at hop
  simp only [messageHandler, hm, if_neg hkeep, if_neg hreg]
  rw [if_pos (by tauto)]

/-- Other messages are not written. -/
theorem unwritten_of_not_isData {m : RemoteAgentDataMsg} {msg : List UInt8}
    (hm : RemoteAgentDataMsg.read msg = some m) (hop : ¬isDataOpcode m.byOpcode = true)
    (fresh : ℕ → ℕ → UInt8) (a : RemoteAgent) (stack : List UInt8) (now : UInt32) :
    Unwritten a stack msg (a.messageHandler fresh stack now msg) := by
  simp only [isDataOpcode, Bool.or_eq_true, decide_eq_true_eq] at hop
  simp only [messageHandler, hm]
  split_ifs with hkeep hreg hdata
  · exact ⟨⟨now, rfl⟩, rfl, Or.inl rfl⟩
  · exact ⟨⟨a.tickGetFromLastArrivedAck, rfl⟩, rfl, Or.inr ⟨m, hm, hreg, rfl⟩⟩
  · exact absurd hdata (by tauto)
  · exact Unwritten.refl a stack msg _

/-- A message is written to a row, or it is not. -/
theorem messageHandler_cases (fresh : ℕ → ℕ → UInt8) (a : RemoteAgent) (stack : List UInt8)
    (now : UInt32) (msg : List UInt8) :
    (∃ v, a.receiveValue msg = .ok (some v) ∧
        (v.row.writeBytes fresh (a.valueCall v.data)).result = true ∧
        a.rowReceived fresh msg = [(v.table, v.entry)] ∧
        a.messageHandler fresh stack now msg = a.writeValue fresh v) ∨
      (a.rowReceived fresh msg = [] ∧
        Unwritten a stack msg (a.messageHandler fresh stack now msg)) := by
  cases hm : RemoteAgentDataMsg.read msg with
  | none =>
    refine Or.inr ⟨by simp only [rowReceived, hm], ?_⟩
    simp only [messageHandler, hm]
    exact Unwritten.refl a stack msg _
  | some m =>
    by_cases hop : isDataOpcode m.byOpcode = true
    · rw [messageHandler_of_isData hm hop]
      rcases hv : a.receiveValue msg with f | _ | v
      · refine Or.inr ⟨by simp only [rowReceived, hm, hv], ?_⟩
        simp only [handleSingleDataValue, hv]
        exact Unwritten.refl a stack msg _
      · refine Or.inr ⟨by simp only [rowReceived, hm, hv], ?_⟩
        simp only [handleSingleDataValue, hv]
        exact Unwritten.refl a stack msg _
      · have hwrite : a.handleSingleDataValue fresh msg = a.writeValue fresh v := by
          simp only [handleSingleDataValue, hv]
        by_cases hres : (v.row.writeBytes fresh (a.valueCall v.data)).result = true
        · exact Or.inl ⟨v, rfl, hres, by simp only [rowReceived, hm, hv, hop, hres,
            and_self, if_true], hwrite⟩
        · refine Or.inr ⟨?_, ?_⟩
          · simp only [rowReceived, hm, hv]
            exact if_neg fun h => hres h.2
          · rw [hwrite, writeValue, if_pos (by simpa using hres)]
            exact Unwritten.refl a stack msg _
    · refine Or.inr ⟨?_, unwritten_of_not_isData hm hop fresh a stack now⟩
      rcases hv : a.receiveValue msg with f | _ | v <;> simp only [rowReceived, hm, hv]
      exact if_neg fun h => hop h.1

theorem receiveValue_found {msg : List UInt8} {v : ReceivedValue}
    (h : a.receiveValue msg = .ok (some v)) :
    (∃ externalId, a.findExternal externalId = some (v.table, v.info)) ∧
      a.dataset.row? v.table v.entry = some v.row := by
  rw [receiveValue] at h
  cases hm : RemoteAgentDataMsg.read msg with
  | none => simp [hm] at h
  | some m =>
    cases hext : a.findExternal m.unDBIndex with
    | none => simp [hm, hext] at h
    | some e =>
      cases hrow : a.dataset.row? e.1 m.unDBEntryIndex with
      | none => simp [hm, hext, hrow] at h
      | some row =>
        simp only [hm, hext, hrow] at h
        split_ifs at h
        rw [Except.ok.injEq, Option.some.injEq] at h
        subst h
        exact ⟨⟨m.unDBIndex, hext⟩, hrow⟩

theorem importedId_setAcked (a : RemoteAgent) (table : UInt32) :
    (a.setAcked table).importedId = a.importedId := by
  funext t
  refine importedId_mapInfo (fun k i => ?_) (fun k i => ?_) t <;> split <;> rfl

theorem acked_setAcked (a : RemoteAgent) (table t : UInt32) :
    (a.setAcked table).acked t = (a.acked t || decide (t = table ∧ a.findInfo t ≠ none)) := by
  rw [acked, acked, setAcked, findInfo_mapInfo]
  cases a.findInfo t with
  | none => simp
  | some info =>
    rw [Option.map_some]
    by_cases ht : t = table <;> simp [ht]

/-- The agent after a write that the row has taken. -/
theorem writeValue_agent {v : ReceivedValue}
    (hres : (v.row.writeBytes fresh (a.valueCall v.data)).result = true) :
    SameTables a (a.writeValue fresh v).agent ∧
      (a.writeValue fresh v).agent.acked =
        if v.info.exportedOrImportedFlag = .imported then (a.setAcked v.table).acked
        else a.acked := by
  rw [writeValue, if_neg (by simp [hres])]
  dsimp only
  split_ifs with hflag
  · exact ⟨⟨rfl, DataSet.tableKeys_setRow _ _ _ _, DataSet.rowKeys_setRow _ _ _ _,
      importedId_setAcked a v.table⟩, rfl⟩
  · exact ⟨⟨rfl, DataSet.tableKeys_setRow _ _ _ _, DataSet.rowKeys_setRow _ _ _ _, rfl⟩, rfl⟩

/-- A message leaves the tables as they are, and acknowledges the imported table of the row
it is written to. -/
theorem messageHandler_agent (fresh : ℕ → ℕ → UInt8) (a : RemoteAgent) (stack : List UInt8)
    (now : UInt32) (msg : List UInt8) :
    SameTables a (a.messageHandler fresh stack now msg).agent ∧
      ∀ t, a.Imported t →
        ((a.messageHandler fresh stack now msg).agent.acked t = true ↔
          a.acked t = true ∨ ∃ r, (t, r) ∈ a.rowReceived fresh msg) := by
  rcases messageHandler_cases fresh a stack now msg with
    ⟨v, hv, hres, hrow, heq⟩ | ⟨hrow, ⟨⟨tick, heq⟩, -, -⟩⟩
  · obtain ⟨hsame, hacked⟩ := writeValue_agent hres
    obtain ⟨⟨externalId, hext⟩, -⟩ := receiveValue_found hv
    have hinfo := findInfo_of_findExternal hext
    rw [heq]
    refine ⟨hsame, fun t ht => ?_⟩
    obtain ⟨info, hfind, hflag⟩ := ht.exists_info
    rw [hacked, hrow]
    by_cases htab : t = v.table
    · -- the acknowledged table is the one the row is in
      subst htab
      rw [hinfo, Option.some.injEq] at hfind
      rw [hfind, if_pos hflag, acked_setAcked]
      simp [hinfo]
    · split_ifs
      · simp [acked_setAcked, htab]
      · simp [htab]
  · rw [heq]
    refine ⟨⟨rfl, rfl, rfl, rfl⟩, fun t _ => ?_⟩
    rw [hrow]
    simp only [List.not_mem_nil, exists_false, or_false]
    exact Iff.rfl

/-! ### What a tick does -/

theorem importedId_handleCommunicationError (a : RemoteAgent) :
    a.handleCommunicationError.importedId = a.importedId := by
  funext t
  have h := importedId_mapInfo (a := a) (f := fun _ info =>
    if info.exportedOrImportedFlag = .imported then { info with isAcked := false } else info)
    (fun k i => by split <;> rfl) (fun k i => by split <;> rfl) t
  exact h

theorem acked_handleCommunicationError {t : UInt32} (ht : a.Imported t) :
    a.handleCommunicationError.acked t = false := by
  obtain ⟨info, hinfo, hflag⟩ := ht.exists_info
  have hfind : a.handleCommunicationError.findInfo t =
      some (if info.exportedOrImportedFlag = .imported then { info with isAcked := false }
        else info) := by
    have h := findInfo_mapInfo a (fun _ info =>
      if info.exportedOrImportedFlag = .imported then { info with isAcked := false }
      else info) t
    rw [hinfo] at h
    exact h
  rw [acked, hfind, if_pos hflag]

theorem periodic_of_inTime {now : UInt32} (h : a.timedOut now = false) :
    (a.periodic now).agent =
      { a with
        gotMsgFromRemoteAgentApp := true
        dataSynced := a.registrationRequests.isEmpty } := by
  rw [periodic, if_neg (by simpa [timedOut] using h)]
  rfl

theorem periodic_of_timedOut {now : UInt32} (h : a.timedOut now = true) :
    (a.periodic now).agent =
      if a.gotMsgFromRemoteAgentApp then a.handleCommunicationError else a := by
  rw [periodic, if_pos (by simpa [timedOut] using h)]

end RemoteAgent

/-! ### The status over a run -/

namespace SyncState

variable {fresh : ℕ → ℕ → UInt8} {stack : List UInt8} {s t : SyncState} {e : AgentEvent}

/-- The effect of an event on the rows received, the tables and the acknowledgements. -/
theorem ackedByRow_step (hs : s.AckedByRow) (h : s.step fresh stack e = some t) :
    t.AckedByRow := by
  cases e with
  | receive now msg =>
    obtain ⟨hsame, hack⟩ := RemoteAgent.messageHandler_agent fresh s.agent stack now msg
    simp only [step] at h
    split_ifs at h
    rw [Option.some.injEq] at h
    subst h
    intro k hk
    have hk' : s.agent.Imported k := by
      rwa [RemoteAgent.Imported, hsame.importedId_eq] at hk
    rw [hack k hk', hs k hk']
    simp only [List.mem_append, exists_or]
  | tick now =>
    simp only [step, Option.some.injEq] at h
    subst h
    cases htime : s.agent.timedOut now with
    | false =>
      rw [AckedByRow, RemoteAgent.periodic_of_inTime htime]
      exact hs
    | true =>
      rw [AckedByRow, RemoteAgent.periodic_of_timedOut htime]
      cases hgot : s.agent.gotMsgFromRemoteAgentApp with
      | true =>
        intro k hk
        have hk' : s.agent.Imported k := by
          have himp := hk
          simp only [if_true] at himp
          rwa [RemoteAgent.Imported, RemoteAgent.importedId_handleCommunicationError] at himp
        simp [RemoteAgent.acked_handleCommunicationError hk']
      | false => exact hs

/-- While the status is right, an event keeps it right precisely when it is not a tick
between the first and the last row. -/
theorem synced_step_iff (hs : s.AckedByRow) (hsync : s.Synced)
    (h : s.step fresh stack e = some t) : t.Synced ↔ s.NotBetween e := by
  cases e with
  | receive now msg =>
    obtain ⟨hsame, -⟩ := RemoteAgent.messageHandler_agent fresh s.agent stack now msg
    simp only [step] at h
    split_ifs at h
    rw [Option.some.injEq] at h
    subst h
    refine iff_of_true (fun hd k hk himp => ?_) trivial
    rw [hsame.dataSynced_eq] at hd
    rw [hsame.rowKeys_eq] at hk
    rw [RemoteAgent.Imported, hsame.importedId_eq] at himp
    exact List.mem_append_left _ (hsync hd k hk himp)
  | tick now =>
    simp only [step, Option.some.injEq] at h
    subst h
    cases htime : s.agent.timedOut now with
    | false =>
      have hbegun : s.agent.registrationRequests.isEmpty = true ↔ s.Begun := by
        rw [RemoteAgent.registrationRequests_isEmpty]
        exact forall₃_congr fun k _ hk => hs k hk
      rw [Synced, RemoteAgent.periodic_of_inTime htime, NotBetween, htime]
      simp only [hbegun, Bool.false_and, forall_const]
      exact Iff.rfl
    | true =>
      refine iff_of_true ?_ (by simp [NotBetween, htime])
      rw [Synced, RemoteAgent.periodic_of_timedOut htime]
      cases hgot : s.agent.gotMsgFromRemoteAgentApp with
      | true =>
        intro hd
        exact absurd hd (by simp [RemoteAgent.handleCommunicationError])
      | false => exact hsync

end SyncState

/-- The state when an agent has been started. -/
def SyncState.init (a : RemoteAgent) : SyncState := ⟨a.start, []⟩

namespace RemoteAgent

/-- `Start` leaves the imported tables as they are. -/
theorem acked_start {a : RemoteAgent} {table : UInt32}
    (hack : ∀ e ∈ a.tableInfoMap, e.2.exportedOrImportedFlag = .imported → e.2.isAcked = false)
    (h : a.start.Imported table) : a.start.acked table = false := by
  obtain ⟨info, hfind, hflag⟩ := h.exists_info
  have hmap : a.start.findInfo table = (a.findInfo table).map fun info =>
      if info.exportedOrImportedFlag = .exported then { info with isAcked := true }
      else info := findInfo_mapInfo a (fun _ info =>
    if info.exportedOrImportedFlag = .exported then { info with isAcked := true } else info) table
  rw [acked, hfind]
  rw [hmap] at hfind
  obtain ⟨info', hinfo', heq⟩ := Option.map_eq_some_iff.mp hfind
  split_ifs at heq with hexp
  · rw [← heq, hexp] at hflag
    exact absurd hflag (by decide)
  · subst heq
    exact hack _ (mem_of_findInfo hinfo') hflag

/-- **When the status can be trusted.** In a run of an agent whose imported tables were not
acknowledged at the start, the status is right in every state precisely if no tick in time
finds rows of every imported table, but not every row. -/
theorem always_synced_iff (fresh : ℕ → ℕ → UInt8) (stack : List UInt8) (a : RemoteAgent)
    (hack : ∀ e ∈ a.tableInfoMap, e.2.exportedOrImportedFlag = .imported → e.2.isAcked = false)
    (l : List AgentEvent) :
    Always (SyncState.step fresh stack) SyncState.Synced (SyncState.init a) l ↔
      Guarded (SyncState.step fresh stack) SyncState.NotBetween (SyncState.init a) l := by
  have hstart : (SyncState.init a).AckedByRow := by
    intro k hk
    have hfalse : (SyncState.init a).agent.acked k = false := acked_start hack hk
    rw [hfalse]
    simp [SyncState.init]
  refine always_iff_guarded l (fun s e t hs h => SyncState.ackedByRow_step hs h)
    (fun s e t hs hsync h => SyncState.synced_step_iff hs hsync h) hstart ?_
  intro hd
  exact absurd hd (by simp [SyncState.init, start])

/-- An agent that imports a table of two rows, under the external id `7`. -/
def pair : RemoteAgent :=
  { single .imported 4 with
    dataset := [⟨1, [(0, MemoryRow.construct 4 true .buffer),
      (1, MemoryRow.construct 4 true .buffer)], by decide⟩] }

/-- A message for row `entry` of that table. -/
def pairMsg (entry : UInt32) : List UInt8 :=
  (dataHeader 4 7 entry 10 .dataUpdate).bytes ++ [1, 2, 3, 4]

/-- The first tick comes when one of the two rows has been received. -/
theorem synced_between :
    ∃ t, run (SyncState.step (fun _ _ => 0) []) (SyncState.init pair)
        [.receive 0 (pairMsg 0), .tick 10] = some t ∧
      t.agent.dataSynced = true ∧ t.received = [(1, 0)] ∧ (1, 1) ∈ t.agent.dataset.rowKeys ∧
      t.agent.importedId 1 = some 7 := by
  refine ⟨_, rfl, ?_⟩
  decide

/-- It comes after both rows. -/
theorem always_synced_pair :
    Always (SyncState.step (fun _ _ => 0) []) SyncState.Synced (SyncState.init pair)
      [.receive 0 (pairMsg 0), .receive 0 (pairMsg 1), .tick 10] := by
  refine (always_synced_iff (fun _ _ => 0) [] pair (by decide) _).mpr ?_
  refine Guarded.cons rfl trivial (Guarded.cons rfl trivial (Guarded.cons rfl ?_ trivial))
  intro _ _ k hk _
  -- the rows that have been received are those of the table, in its order
  exact hk

end RemoteAgent

end UtilityFramework
