import UtilityFramework.Lib.Toggle
import UtilityFramework.Lib.Transition
import UtilityFramework.Monitor.SingleRow

/-!
# The debug lock of a row

`EnterDebugState` asks the monitor to toggle the write priority of a row when the client's
view of the row is not the state that is wanted. The view comes from replies to earlier
queries, and is "not locked" while the client is not connected. For each row, client, monitor
and what is under way between them are a flag that is toggled from afar (`abstract`).
-/

namespace UtilityFramework

open Bytes Memory Transition

/-! ### The system -/

/-- A monitor and a client, the messages each has sent that the other has not received, and
what the last call of `EnterDebugState` for each row has asked for. -/
structure LockState where
  monitor : Monitor
  client : MonitorClient
  toMonitor : List (List UInt8)
  toClient : List (List UInt8)
  asked : UInt32 × UInt32 → Option Bool

/-- A call of `EnterDebugState`, a message is received on either side, a timer elapses. -/
inductive LockAction
  | enterDebugState (table row : UInt32) (debugState : Bool)
  | monitorReceives (now : UInt32)
  | clientReceives (now : UInt32)
  | monitorTick (now : UInt32)
  | clientTick (now : UInt32)

/-- Receiving a message. -/
def LockAction.IsReceive : LockAction → Prop
  | monitorReceives _ => True
  | clientReceives _ => True
  | _ => False

/-- Whether the write priority of a row is the highest. -/
def Monitor.locked (m : Monitor) (key : UInt32 × UInt32) : Bool :=
  (m.row? key.1 key.2).any fun row => row.writePriority = highestPriority

namespace LockState

section Step

variable (fresh : ℕ → ℕ → UInt8) (beyond : ℕ → UInt8) (query : List UInt8)

/-- One step. -/
def step (s : LockState) : LockAction → Option LockState
  | .enterDebugState table row debugState =>
    let r := s.client.enterDebugState table row debugState
    some { s with
      client := r.client
      toMonitor := s.toMonitor ++ r.sent
      asked := Function.update s.asked (table, row) (some debugState) }
  | .monitorReceives now =>
    match s.toMonitor with
    | [] => none
    | msg :: msgs =>
      (s.monitor.messageHandler fresh query now (.on beyond msg)).map fun r =>
        { s with monitor := r.monitor, toMonitor := msgs, toClient := s.toClient ++ r.sent }
  | .clientReceives now =>
    match s.toClient with
    | [] => none
    | msg :: msgs =>
      let r := s.client.messageClientHandler fresh now (.on beyond msg)
      some { s with client := r.client, toClient := msgs, toMonitor := s.toMonitor ++ r.sent }
  | .monitorTick now =>
    let r := s.monitor.periodic now
    some { s with monitor := r.monitor, toClient := s.toClient ++ r.sent }
  | .clientTick now =>
    let r := s.client.periodic now
    some { s with client := r.client, toMonitor := s.toMonitor ++ r.sent }

/-- Once every message has been received, the row is locked precisely if the last call for it
has asked for that. -/
def Settles (key : UInt32 × UInt32) (s : LockState) : Prop :=
  ∀ l : List LockAction, (∀ a ∈ l, a.IsReceive) →
    ∀ t, run (step fresh beyond query) s l = some t → t.toMonitor = [] → t.toClient = [] →
      (t.monitor.locked key = true ↔ t.asked key = some true)

end Step

/-- The request to toggle the lock of a row. -/
def toggleMsg (key : UInt32 × UInt32) : List UInt8 :=
  MonitorClient.request .updateDebugStateEx key.1 key.2

/-- The request for the debug state of a row. -/
def queryMsg (key : UInt32 × UInt32) : List UInt8 :=
  MonitorClient.request .getDebugMode key.1 key.2

/-- Whether a row will be locked when the requests under way have been received. -/
def lockToCome (s : LockState) (key : UInt32 × UInt32) : Bool :=
  if Even (s.toMonitor.count (toggleMsg key)) then s.monitor.locked key
  else !s.monitor.locked key

/-- The condition on a step: a call for the row is made when the client's view of it is the
state it will have. -/
def ViewRight (key : UInt32 × UInt32) (s : LockState) : LockAction → Prop
  | .enterDebugState table row _ =>
    (table, row) = key → s.client.debugStateView table row = s.lockToCome key
  | _ => True

/-- A reply with the debug state of the row. -/
def IsReply (key : UInt32 × UInt32) (msg : List UInt8) : Prop :=
  let m := MonitorSingleDataMsgEx.ofBytes msg
  m.byOpcode = ToMonitorOpcode.debugMode.value ∧ (m.unTable, m.unRow) = key

instance (key : UInt32 × UInt32) (msg : List UInt8) : Decidable (IsReply key msg) :=
  inferInstanceAs (Decidable (_ ∧ _))

/-- A condition on the calls alone: a call for the row is made by a connected client while no
message about the debug state of the row is under way. -/
def Quiet (key : UInt32 × UInt32) (s : LockState) : LockAction → Prop
  | .enterDebugState table row _ =>
    (table, row) = key → s.client.gotMsgFromMonitorApp = true ∧
      toggleMsg key ∉ s.toMonitor ∧ queryMsg key ∉ s.toMonitor ∧
      ∀ msg ∈ s.toClient, ¬IsReply key msg
  | _ => True

/-- A client that has just been constructed, and nothing under way. -/
def init (monitor : Monitor) (client : MonitorClient) : LockState where
  monitor := monitor
  client := client
  toMonitor := []
  toClient := []
  asked _ := none

/-! ### The messages -/

/-- The messages that the client sends. -/
def FromClient (msg : List UInt8) : Prop :=
  msg = MonitorClient.keepAliveMsg ∨ ∃ key, msg = toggleMsg key ∨ msg = queryMsg key

/-- The messages that the monitor sends. -/
def FromMonitor (msg : List UInt8) : Prop :=
  msg = Monitor.keepAliveMsg ∨
    ∃ (row : MemoryRow) (key : UInt32 × UInt32) (now : UInt32),
      msg = Monitor.debugStateMsg row key.1 key.2 now

/-- What a message is for the row. -/
def request? (key : UInt32 × UInt32) (msg : List UInt8) : Option Toggle.Request :=
  if msg = toggleMsg key then some .toggle
  else if msg = queryMsg key then some .query
  else none

/-- The debug state that a message gives of the row. -/
def reply? (key : UInt32 × UInt32) (msg : List UInt8) : Option Bool :=
  if IsReply key msg then some (decide (msg[MonitorSingleDataMsgEx.size]? ≠ some 0)) else none

/-- The state, as far as it is about one row: a flag that is toggled from afar. -/
def abstract (key : UInt32 × UInt32) (s : LockState) : Toggle.State where
  flag := s.monitor.locked key
  belief := (s.client.debugStateMap key).getD false
  connected := s.client.gotMsgFromMonitorApp
  requests := s.toMonitor.filterMap (request? key)
  replies := s.toClient.filterMap (reply? key)

theorem request_injective {op op' : FromMonitorOpcode} {key key' : UInt32 × UInt32}
    (h : MonitorClient.request op key.1 key.2 = MonitorClient.request op' key'.1 key'.2) :
    op.value = op'.value ∧ key = key' := by
  have hmsg := congrArg DeToMonitorDataMsgEx.ofBytes h
  rw [MonitorClient.request, MonitorClient.request, DeToMonitorDataMsgEx.ofBytes_bytes,
    DeToMonitorDataMsgEx.ofBytes_bytes, DeToMonitorDataMsgEx.mk.injEq] at hmsg
  exact ⟨hmsg.2.1, Prod.ext hmsg.2.2.1 hmsg.2.2.2⟩

@[simp] theorem request?_toggleMsg (key key' : UInt32 × UInt32) :
    request? key (toggleMsg key') = if key' = key then some .toggle else none := by
  have htoggle : toggleMsg key' = toggleMsg key ↔ key' = key :=
    ⟨fun h => (request_injective h).2, congrArg toggleMsg⟩
  have hquery : toggleMsg key' ≠ queryMsg key := fun h =>
    absurd (request_injective h).1 (by decide)
  simp only [request?, htoggle, if_neg hquery]

@[simp] theorem request?_queryMsg (key key' : UInt32 × UInt32) :
    request? key (queryMsg key') = if key' = key then some .query else none := by
  have hquery : queryMsg key' = queryMsg key ↔ key' = key :=
    ⟨fun h => (request_injective h).2, congrArg queryMsg⟩
  have htoggle : queryMsg key' ≠ toggleMsg key := fun h =>
    absurd (request_injective h).1 (by decide)
  simp only [request?, if_neg htoggle, hquery]

@[simp] theorem request?_keepAliveMsg (key : UInt32 × UInt32) :
    request? key MonitorClient.keepAliveMsg = none := by
  have hne (op : FromMonitorOpcode) :
      MonitorClient.keepAliveMsg ≠ MonitorClient.request op key.1 key.2 := by
    intro h
    have hlen := congrArg List.length h
    rw [MonitorClient.request, DeToMonitorDataMsgEx.length_bytes] at hlen
    exact absurd hlen (by decide)
  rw [request?, toggleMsg, queryMsg, if_neg (hne _), if_neg (hne _)]

@[simp] theorem reply?_keepAliveMsg (key : UInt32 × UInt32) :
    reply? key Monitor.keepAliveMsg = none := by
  refine if_neg fun h => absurd h.1 ?_
  decide

/-- The structure at the front of a reply. -/
theorem ofBytes_debugStateMsg (row : MemoryRow) (key : UInt32 × UInt32) (now : UInt32) :
    MonitorSingleDataMsgEx.ofBytes (Monitor.debugStateMsg row key.1 key.2 now) =
      ⟨.ofNat (1 + MonitorSingleDataMsgEx.size), ToMonitorOpcode.debugMode.value, now, key.1,
        key.2⟩ :=
  MonitorSingleDataMsgEx.ofBytes_bytes_append _ _

/-- The debug state in it. -/
theorem getElem?_debugStateMsg (row : MemoryRow) (key : UInt32 × UInt32) (now : UInt32) :
    (Monitor.debugStateMsg row key.1 key.2 now)[MonitorSingleDataMsgEx.size]? =
      some (if row.writePriority = highestPriority then 1 else 0) := by
  rw [Monitor.debugStateMsg, List.getElem?_append_right (by simp),
    MonitorSingleDataMsgEx.length_bytes]
  rfl

@[simp] theorem reply?_debugStateMsg (row : MemoryRow) (key key' : UInt32 × UInt32)
    (now : UInt32) :
    reply? key (Monitor.debugStateMsg row key'.1 key'.2 now) =
      if key' = key then some (decide (row.writePriority = highestPriority)) else none := by
  have hreply : IsReply key (Monitor.debugStateMsg row key'.1 key'.2 now) ↔ key' = key := by
    rw [IsReply, ofBytes_debugStateMsg]
    exact and_iff_right rfl
  simp only [reply?, hreply, getElem?_debugStateMsg]
  split_ifs with hkey hprio <;> simp_all

/-! ### What a message does -/

section Handle

variable (fresh : ℕ → ℕ → UInt8) (m : Monitor) (c : MonitorClient) (query : List UInt8)
  (now now' : UInt32) (beyond : ℕ → UInt8) (key : UInt32 × UInt32)

theorem messageHandler_keepAliveMsg :
    m.messageHandler fresh query now (.on beyond MonitorClient.keepAliveMsg) =
      some ⟨{ m with tickGetFromLastArrivedAck := now }, [], none⟩ := rfl

/-- A request of the client, as the monitor handles it. -/
theorem messageHandler_request (op : FromMonitorOpcode) (hne : op ≠ .getDbDataEx) :
    m.messageHandler fresh query now (.on beyond (MonitorClient.request op key.1 key.2)) =
      some (m.handle fresh query now (.on beyond (MonitorClient.request op key.1 key.2))
        ⟨.ofNat (DeToMonitorDataMsgEx.size - 2), op.value, key.1, key.2⟩ op) := by
  have hreader := DataReader.holds_on beyond (MonitorClient.request op key.1 key.2)
  rw [← List.append_nil (MonitorClient.request op key.1 key.2)] at hreader
  exact Monitor.messageHandler_eq hreader op rfl hne

/-- A request to toggle a lock. -/
theorem messageHandler_toggleMsg :
    m.messageHandler fresh query now (.on beyond (toggleMsg key)) =
      some (match m.row? key.1 key.2 with
        | some row => ⟨m.setRow key.1 key.2 (Monitor.toggled row), [], none⟩
        | none => ⟨m, [], some .thrown⟩) := by
  rw [toggleMsg, messageHandler_request _ _ _ _ _ _ _ (by decide), Monitor.handle,
    Monitor.updateDebugValue]
  cases m.row? key.1 key.2 <;> rfl

/-- A request for a debug state. -/
theorem messageHandler_queryMsg :
    m.messageHandler fresh query now (.on beyond (queryMsg key)) =
      some (match m.row? key.1 key.2 with
        | some row => ⟨m, [Monitor.debugStateMsg row key.1 key.2 now], none⟩
        | none => ⟨m, [], some .thrown⟩) := by
  rw [queryMsg, messageHandler_request _ _ _ _ _ _ _ (by decide), Monitor.handle,
    Monitor.getDebugState]
  cases m.row? key.1 key.2 <;> rfl

/-- A reply with a debug state. -/
theorem messageClientHandler_debugStateMsg (row : MemoryRow) :
    c.messageClientHandler fresh now (.on beyond (Monitor.debugStateMsg row key.1 key.2 now')) =
      ⟨{ c with
          debugStateMap := Function.update c.debugStateMap key
            (some (decide (row.writePriority = highestPriority))) }, [], none⟩ := by
  have hreader := DataReader.holds_on beyond (Monitor.debugStateMsg row key.1 key.2 now')
  have hopcode : DataReader.getOpcodeExt (.on beyond (Monitor.debugStateMsg row key.1 key.2 now')) =
      ToMonitorOpcode.debugMode.value := hreader.buffer_eq rfl
  have hload := hreader.load_front
  rw [MonitorSingleDataMsgEx.length_bytes] at hload
  have hstate := hreader.buffer_eq (getElem?_debugStateMsg row key now')
  have hdecide : decide ((if row.writePriority = highestPriority then (1 : UInt8) else 0) ≠ 0) =
      decide (row.writePriority = highestPriority) := by
    split_ifs with hprio
    · exact (decide_eq_true hprio).symm
    · exact (decide_eq_false hprio).symm
  rw [MonitorClient.messageClientHandler, hopcode]
  show (⟨c.updateDebugState _, [], none⟩ : ClientResult) = _
  rw [MonitorClient.updateDebugState, hload, MonitorSingleDataMsgEx.ofBytes_bytes, hstate, hdecide]

end Handle

/-- The lock of a row after another, or the same, has been toggled. -/
theorem locked_toggled {m : Monitor} {key' : UInt32 × UInt32} {row : MemoryRow}
    (hrow : m.row? key'.1 key'.2 = some row) (key : UInt32 × UInt32) :
    (m.setRow key'.1 key'.2 (Monitor.toggled row)).locked key =
      if key' = key then !m.locked key else m.locked key := by
  rw [Monitor.locked, Monitor.row?_setRow, hrow]
  by_cases hkey : key' = key
  · subst hkey
    have hflip : decide ((Monitor.toggled row).writePriority = highestPriority) =
        !decide (row.writePriority = highestPriority) := by
      rw [Monitor.toggled]
      split_ifs with hprio
      · rw [decide_eq_true hprio]
        exact (rfl : decide (lowestPriority = highestPriority) = false)
      · rw [decide_eq_false hprio]
        exact (rfl : decide (highestPriority = highestPriority) = true)
    rw [if_pos ⟨rfl, rfl⟩, if_pos rfl, Monitor.locked, hrow]
    exact hflip
  · rw [if_neg fun h => hkey (Prod.ext h.1.symm h.2.symm), if_neg hkey]
    rfl

/-! ### What is sent -/

theorem commSend_request (op : FromMonitorOpcode) (key : UInt32 × UInt32) :
    commSend monitorMaxDataSize (MonitorClient.request op key.1 key.2) =
      [MonitorClient.request op key.1 key.2] := by
  rw [commSend, MonitorClient.request, DeToMonitorDataMsgEx.length_bytes]
  rfl

theorem debugStateSent_eq (c : MonitorClient) (key : UInt32 × UInt32) :
    c.debugStateSent key.1 key.2 =
      if c.gotMsgFromMonitorApp = true then [queryMsg key] else [] := by
  rw [MonitorClient.debugStateSent, commSend_request]
  rfl

/-- A call sends a query if the client is connected, and the toggle and another query behind
it if the view is not what is wanted. -/
theorem enterDebugState_sent (c : MonitorClient) (key : UInt32 × UInt32) (d : Bool) :
    (c.enterDebugState key.1 key.2 d).sent =
      (if c.gotMsgFromMonitorApp = true then [queryMsg key] else []) ++
        if c.debugStateView key.1 key.2 = d then [] else [toggleMsg key, queryMsg key] := by
  rw [MonitorClient.enterDebugState, ← debugStateSent_eq]
  split_ifs with hview
  · rw [List.append_nil]
  · rw [commSend_request, commSend_request, List.append_assoc]
    rfl

/-! ### What a step keeps -/

/-- The messages under way are those of client and monitor, and the monitor has the row. -/
structure WellFormed (key : UInt32 × UInt32) (s : LockState) : Prop where
  fromClient : ∀ msg ∈ s.toMonitor, FromClient msg
  fromMonitor : ∀ msg ∈ s.toClient, FromMonitor msg
  known : (s.monitor.row? key.1 key.2).isSome

/-- From `s` to `t` nothing has been asked for the row, and what is to come of its lock and of
the client's view of it has not changed. -/
structure Keeps (key : UInt32 × UInt32) (s t : LockState) : Prop where
  wellFormed : WellFormed key t
  settled : (t.abstract key).settled = (s.abstract key).settled
  asked : t.asked key = s.asked key

section Steps

variable {fresh : ℕ → ℕ → UInt8} {beyond : ℕ → UInt8} {query : List UInt8}
  {key : UInt32 × UInt32} {s t u : LockState} {now : UInt32} {msg : List UInt8}
  {msgs : List (List UInt8)}

theorem Keeps.refl (h : WellFormed key s) : Keeps key s s := ⟨h, rfl, rfl⟩

theorem Keeps.trans (h : Keeps key s t) (h' : Keeps key t u) : Keeps key s u :=
  ⟨h'.wellFormed, h'.settled.trans h.settled, h'.asked.trans h.asked⟩

/-- What a call for a row sends, for another row or the same. -/
theorem filterMap_enterDebugState_sent (c : MonitorClient) (key' : UInt32 × UInt32) (d : Bool) :
    (c.enterDebugState key'.1 key'.2 d).sent.filterMap (request? key) =
      if key' = key then (if c.gotMsgFromMonitorApp = true then [.query] else []) ++
        (if c.debugStateView key'.1 key'.2 = d then [] else [.toggle, .query]) else [] := by
  rw [enterDebugState_sent, List.filterMap_append]
  by_cases hkey : key' = key
  · split_ifs <;> simp [hkey]
  · split_ifs <;> simp [hkey]

/-- A call for the row, for the flag that is toggled from afar. -/
theorem abstract_enterDebugState {d : Bool}
    (ht : step fresh beyond query s (.enterDebugState key.1 key.2 d) = some t) :
    t.abstract key = (s.abstract key).ask d := by
  cases ht
  rw [abstract, List.filterMap_append, filterMap_enterDebugState_sent, if_pos rfl]
  show _ = if s.client.debugStateView key.1 key.2 = d then _ else _
  rw [MonitorClient.enterDebugState]
  by_cases hview : s.client.debugStateView key.1 key.2 = d
  · simp only [if_pos hview, List.append_nil]
    rfl
  · simp only [if_neg hview, Function.update_self]
    rfl

/-- A call for another row. -/
theorem abstract_enterDebugState_of_ne (key' : UInt32 × UInt32) {d : Bool} (hne : key' ≠ key)
    (ht : step fresh beyond query s (.enterDebugState key'.1 key'.2 d) = some t) :
    t.abstract key = s.abstract key := by
  cases ht
  rw [abstract, List.filterMap_append, filterMap_enterDebugState_sent, if_neg hne,
    List.append_nil, MonitorClient.enterDebugState]
  by_cases hview : s.client.debugStateView key'.1 key'.2 = d
  · simp only [if_pos hview]
    rfl
  · simp only [if_neg hview, Function.update_of_ne hne.symm]
    rfl

theorem WellFormed.enterDebugState (h : WellFormed key s) (key' : UInt32 × UInt32) {d : Bool}
    (ht : step fresh beyond query s (.enterDebugState key'.1 key'.2 d) = some t) :
    WellFormed key t := by
  cases ht
  refine ⟨fun msg hmsg => ?_, h.fromMonitor, h.known⟩
  rcases List.mem_append.mp hmsg with hmsg | hmsg
  · exact h.fromClient msg hmsg
  · rw [enterDebugState_sent] at hmsg
    refine Or.inr ⟨key', ?_⟩
    rcases List.mem_append.mp hmsg with hmsg | hmsg
    · split_ifs at hmsg with hconn
      · exact Or.inr (List.mem_singleton.mp hmsg)
      · exact absurd hmsg List.not_mem_nil
    · split_ifs at hmsg with hview
      · exact absurd hmsg List.not_mem_nil
      · simpa using hmsg

/-- What handling a message has done with the lock of the row, and answered about it. -/
inductive Served (key : UInt32 × UInt32) (m : Monitor) (msg : List UInt8) (r : MonitorResult) :
    Prop
  | none (hmsg : request? key msg = none) (hlocked : r.monitor.locked key = m.locked key)
      (hsent : r.sent.filterMap (reply? key) = [])
  | toggle (hmsg : request? key msg = some .toggle)
      (hlocked : r.monitor.locked key = !m.locked key)
      (hsent : r.sent.filterMap (reply? key) = [])
  | query (hmsg : request? key msg = some .query) (hlocked : r.monitor.locked key = m.locked key)
      (hsent : r.sent.filterMap (reply? key) = [m.locked key])

/-- A message that is handled as the flag that is toggled from afar handles it keeps what is to
come. -/
theorem Served.settled {r : MonitorResult} (h : Served key s.monitor msg r)
    (hmsgs : s.toMonitor = msg :: msgs) :
    (abstract key { s with
      monitor := r.monitor
      toMonitor := msgs
      toClient := s.toClient ++ r.sent }).settled = (s.abstract key).settled := by
  cases h with
  | none hmsg hlocked hsent =>
    simp only [abstract, hmsgs, hlocked, List.filterMap_append, hsent, List.append_nil,
      List.filterMap_cons, hmsg]
  | toggle hmsg hlocked hsent =>
    refine Toggle.State.settled_serve ?_
    simp only [Toggle.State.serve, abstract, hmsgs, hlocked, List.filterMap_append, hsent,
      List.append_nil, List.filterMap_cons, hmsg]
  | query hmsg hlocked hsent =>
    refine Toggle.State.settled_serve ?_
    simp only [Toggle.State.serve, abstract, hmsgs, hlocked, List.filterMap_append, hsent,
      List.filterMap_cons, hmsg]

theorem ne_of_row?_eq_none {m : Monitor} {key' : UInt32 × UInt32}
    (hknown : (m.row? key.1 key.2).isSome) (hrow : m.row? key'.1 key'.2 = none) : key' ≠ key := by
  rintro rfl
  rw [hrow] at hknown
  exact absurd hknown (by simp)

/-- A request to toggle a lock toggles it, if the monitor has the row. -/
theorem exists_served_toggleMsg (m : Monitor) (hknown : (m.row? key.1 key.2).isSome)
    (key' : UInt32 × UInt32) (now : UInt32) :
    ∃ r, m.messageHandler fresh query now (.on beyond (toggleMsg key')) = some r ∧
      Served key m (toggleMsg key') r ∧ (r.monitor.row? key.1 key.2).isSome ∧ r.sent = [] := by
  rw [messageHandler_toggleMsg]
  cases hrow : m.row? key'.1 key'.2 with
  | none =>
    have hnone : request? key (toggleMsg key') = none := by
      rw [request?_toggleMsg, if_neg (ne_of_row?_eq_none hknown hrow)]
    exact ⟨_, rfl, .none hnone rfl rfl, hknown, rfl⟩
  | some row =>
    refine ⟨_, rfl, ?_, ?_, rfl⟩
    · by_cases hkey : key' = key
      · refine .toggle ?_ ?_ rfl
        · rw [request?_toggleMsg, if_pos hkey]
        · rw [locked_toggled hrow, if_pos hkey]
      · refine .none ?_ ?_ rfl
        · rw [request?_toggleMsg, if_neg hkey]
        · rw [locked_toggled hrow, if_neg hkey]
    · rw [Monitor.row?_setRow]
      split_ifs
      · rw [hrow]
        rfl
      · exact hknown

/-- A request for a debug state is answered with the lock, if the monitor has the row. -/
theorem exists_served_queryMsg (m : Monitor) (hknown : (m.row? key.1 key.2).isSome)
    (key' : UInt32 × UInt32) (now : UInt32) :
    ∃ r, m.messageHandler fresh query now (.on beyond (queryMsg key')) = some r ∧
      Served key m (queryMsg key') r ∧ r.monitor = m ∧
      ∀ msg' ∈ r.sent, ∃ row, msg' = Monitor.debugStateMsg row key'.1 key'.2 now := by
  rw [messageHandler_queryMsg]
  cases hrow : m.row? key'.1 key'.2 with
  | none =>
    have hnone : request? key (queryMsg key') = none := by
      rw [request?_queryMsg, if_neg (ne_of_row?_eq_none hknown hrow)]
    exact ⟨_, rfl, .none hnone rfl rfl, rfl, fun _ h => absurd h List.not_mem_nil⟩
  | some row =>
    refine ⟨_, rfl, ?_, rfl, fun msg' h => ⟨row, List.mem_singleton.mp h⟩⟩
    by_cases hkey : key' = key
    · subst hkey
      refine .query ?_ rfl ?_
      · rw [request?_queryMsg, if_pos rfl]
      · rw [List.filterMap_cons, reply?_debugStateMsg, if_pos rfl, Monitor.locked, hrow]
        rfl
    · refine .none ?_ rfl ?_
      · rw [request?_queryMsg, if_neg hkey]
      · rw [List.filterMap_cons, reply?_debugStateMsg, if_neg hkey]
        rfl

/-- The monitor handles every message of the client. -/
theorem exists_served (m : Monitor) (hknown : (m.row? key.1 key.2).isSome)
    (hmsg : FromClient msg) (now : UInt32) :
    ∃ r, m.messageHandler fresh query now (.on beyond msg) = some r ∧ Served key m msg r ∧
      (r.monitor.row? key.1 key.2).isSome ∧ ∀ msg' ∈ r.sent, FromMonitor msg' := by
  obtain rfl | ⟨key', rfl | rfl⟩ := hmsg
  · exact ⟨_, messageHandler_keepAliveMsg fresh m query now beyond,
      .none (request?_keepAliveMsg key) rfl rfl, hknown, fun _ h => absurd h List.not_mem_nil⟩
  · obtain ⟨r, hr, hserved, hknown', hsent⟩ := exists_served_toggleMsg m hknown key' now
    refine ⟨r, hr, hserved, hknown', fun msg' h => ?_⟩
    rw [hsent] at h
    exact absurd h List.not_mem_nil
  · obtain ⟨r, hr, hserved, hmonitor, hsent⟩ := exists_served_queryMsg m hknown key' now
    refine ⟨r, hr, hserved, hmonitor ▸ hknown, fun msg' h => ?_⟩
    obtain ⟨row, hrow⟩ := hsent msg' h
    exact .inr ⟨row, key', now, hrow⟩

/-- The monitor receives a message. -/
theorem keeps_monitorReceives (h : WellFormed key s) (hmsgs : s.toMonitor = msg :: msgs)
    (now : UInt32) :
    ∃ t, step fresh beyond query s (.monitorReceives now) = some t ∧ t.toMonitor = msgs ∧
      Keeps key s t := by
  have hmsg : FromClient msg := h.fromClient msg (by rw [hmsgs]; exact List.mem_cons_self)
  obtain ⟨r, hr, hserved, hknown, hsent⟩ := exists_served s.monitor h.known hmsg now
  refine ⟨{ s with monitor := r.monitor, toMonitor := msgs, toClient := s.toClient ++ r.sent },
    ?_, rfl, ⟨?_, ?_, hknown⟩, hserved.settled hmsgs, rfl⟩
  · simp only [step, hmsgs]
    rw [hr]
    rfl
  · intro msg' hmem
    exact h.fromClient msg' (by rw [hmsgs]; exact List.mem_cons_of_mem _ hmem)
  · intro msg' hmem
    rcases List.mem_append.mp hmem with hmem | hmem
    · exact h.fromMonitor msg' hmem
    · exact hsent msg' hmem

/-- The client takes every message of the monitor, and sends none. -/
theorem exists_taken (key : UInt32 × UInt32) (c : MonitorClient) (hmsg : FromMonitor msg)
    (now : UInt32) :
    ∃ c', c.messageClientHandler fresh now (.on beyond msg) = ⟨c', [], none⟩ ∧
      c'.gotMsgFromMonitorApp = c.gotMsgFromMonitorApp ∧
      (c'.debugStateMap key).getD false =
        (reply? key msg).getD ((c.debugStateMap key).getD false) := by
  obtain rfl | ⟨row, key', now', rfl⟩ := hmsg
  · refine ⟨_, MonitorClient.messageClientHandler_keepAliveMsg fresh c now beyond, rfl, ?_⟩
    rw [reply?_keepAliveMsg]
    rfl
  · refine ⟨_, messageClientHandler_debugStateMsg fresh c now now' beyond key' row, rfl, ?_⟩
    rw [reply?_debugStateMsg]
    by_cases hkey : key' = key
    · simp only [hkey, if_true, Function.update_self, Option.getD_some]
    · simp only [if_neg hkey, Function.update_of_ne (Ne.symm hkey), Option.getD_none]

/-- The client receives a message. -/
theorem keeps_clientReceives (h : WellFormed key s) (hmsgs : s.toClient = msg :: msgs)
    (now : UInt32) :
    ∃ t, step fresh beyond query s (.clientReceives now) = some t ∧ t.toClient = msgs ∧
      t.toMonitor = s.toMonitor ∧ Keeps key s t := by
  have hmsg : FromMonitor msg := h.fromMonitor msg (by rw [hmsgs]; exact List.mem_cons_self)
  obtain ⟨c', hc', hconn, hbelief⟩ := exists_taken key s.client hmsg now
  refine ⟨{ s with client := c', toClient := msgs }, ?_, rfl, rfl,
    ⟨h.fromClient, fun msg' hmem => ?_, h.known⟩, ?_, rfl⟩
  · simp only [step, hmsgs]
    rw [hc', List.append_nil]
  · exact h.fromMonitor msg' (by rw [hmsgs]; exact List.mem_cons_of_mem _ hmem)
  · cases hreply : reply? key msg with
    | none =>
      rw [hreply] at hbelief
      simp only [abstract, hmsgs, hconn, hbelief, List.filterMap_cons, hreply, Option.getD_none]
    | some b =>
      rw [hreply] at hbelief
      refine Toggle.State.settled_receive ?_
      simp only [Toggle.State.receive, abstract, hmsgs, hconn, hbelief, List.filterMap_cons,
        hreply, Option.getD_some]

/-- A timer elapses: at most a keep-alive is sent. -/
theorem keeps_monitorTick (h : WellFormed key s) (now : UInt32)
    (ht : step fresh beyond query s (.monitorTick now) = some t) : Keeps key s t := by
  cases ht
  refine ⟨⟨h.fromClient, fun msg hmsg => ?_, h.known⟩, ?_, rfl⟩
  · rcases List.mem_append.mp hmsg with hmsg | hmsg
    · exact h.fromMonitor msg hmsg
    · rw [Monitor.periodic] at hmsg
      split_ifs at hmsg
      · exact absurd hmsg List.not_mem_nil
      · exact .inl (List.mem_singleton.mp hmsg)
  · have hnone : (s.monitor.periodic now).sent.filterMap (reply? key) = [] := by
      rw [Monitor.periodic]
      split_ifs
      · rfl
      · rw [List.filterMap_cons, reply?_keepAliveMsg]
        rfl
    rw [abstract, List.filterMap_append, hnone, List.append_nil]
    rfl

theorem keeps_clientTick (h : WellFormed key s) (now : UInt32)
    (ht : step fresh beyond query s (.clientTick now) = some t) : Keeps key s t := by
  cases ht
  refine ⟨⟨fun msg hmsg => ?_, h.fromMonitor, h.known⟩, ?_, rfl⟩
  · rcases List.mem_append.mp hmsg with hmsg | hmsg
    · exact h.fromClient msg hmsg
    · exact .inl (List.mem_singleton.mp hmsg)
  · have hnone : (s.client.periodic now).sent.filterMap (request? key) = [] := by
      rw [MonitorClient.periodic, List.filterMap_cons, request?_keepAliveMsg]
      rfl
    rw [abstract, List.filterMap_append, hnone, List.append_nil]
    rfl

/-- Receiving messages. -/
theorem keeps_receive {a : LockAction} (h : WellFormed key s) (ha : a.IsReceive)
    (ht : step fresh beyond query s a = some t) : Keeps key s t := by
  cases a with
  | monitorReceives now =>
    cases hmsgs : s.toMonitor with
    | nil =>
      rw [step, hmsgs] at ht
      exact absurd ht (by simp)
    | cons msg msgs =>
      obtain ⟨t', ht', -, hkeeps⟩ := keeps_monitorReceives h hmsgs now
      rw [ht, Option.some.injEq] at ht'
      exact ht' ▸ hkeeps
  | clientReceives now =>
    cases hmsgs : s.toClient with
    | nil =>
      rw [step, hmsgs] at ht
      exact absurd ht (by simp)
    | cons msg msgs =>
      obtain ⟨t', ht', -, -, hkeeps⟩ := keeps_clientReceives h hmsgs now
      rw [ht, Option.some.injEq] at ht'
      exact ht' ▸ hkeeps
  | enterDebugState table row d => exact ha.elim
  | monitorTick now => exact ha.elim
  | clientTick now => exact ha.elim

/-- **What a step does.** Either it is a call for the row, or it keeps what is to come. -/
theorem keeps_or_asks {a : LockAction} (h : WellFormed key s)
    (ht : step fresh beyond query s a = some t) :
    Keeps key s t ∧ (∀ d, a ≠ .enterDebugState key.1 key.2 d) ∨
      ∃ d, a = .enterDebugState key.1 key.2 d ∧ WellFormed key t ∧
        t.abstract key = (s.abstract key).ask d ∧ t.asked key = some d := by
  cases a with
  | enterDebugState table row d =>
    by_cases hkey : (table, row) = key
    · subst hkey
      refine .inr ⟨d, rfl, h.enterDebugState (table, row) ht, abstract_enterDebugState ht, ?_⟩
      cases ht
      exact Function.update_self _ _ _
    · refine .inl ⟨⟨h.enterDebugState (table, row) ht, ?_, ?_⟩, ?_⟩
      · rw [abstract_enterDebugState_of_ne (table, row) hkey ht]
      · cases ht
        exact Function.update_of_ne (Ne.symm hkey) _ _
      · rintro d' h'
        cases h'
        exact hkey rfl
  | monitorReceives now =>
    exact .inl ⟨keeps_receive h (a := .monitorReceives now) trivial ht, fun _ h => by cases h⟩
  | clientReceives now =>
    exact .inl ⟨keeps_receive h (a := .clientReceives now) trivial ht, fun _ h => by cases h⟩
  | monitorTick now => exact .inl ⟨keeps_monitorTick h now ht, fun _ h => by cases h⟩
  | clientTick now => exact .inl ⟨keeps_clientTick h now ht, fun _ h => by cases h⟩

theorem WellFormed.step {a : LockAction} (h : WellFormed key s)
    (ht : step fresh beyond query s a = some t) : WellFormed key t := by
  rcases keeps_or_asks h ht with ⟨hkeeps, -⟩ | ⟨d, -, ht, -⟩
  · exact hkeeps.wellFormed
  · exact ht

/-! ### Receiving everything -/

theorem keeps_run {l : List LockAction} (h : WellFormed key s) (hl : ∀ a ∈ l, a.IsReceive)
    (ht : run (LockState.step fresh beyond query) s l = some t) : Keeps key s t := by
  induction l generalizing s with
  | nil =>
    rw [run_nil, Option.some.injEq] at ht
    exact ht ▸ .refl h
  | cons a l ih =>
    obtain ⟨u, hu, ht⟩ := run_cons_eq_some.mp ht
    have hkeeps := keeps_receive h (hl a List.mem_cons_self) hu
    exact hkeeps.trans (ih hkeeps.wellFormed (fun b hb => hl b (List.mem_cons_of_mem a hb)) ht)

/-- The client can receive all that is under way to it. -/
theorem exists_run_toClient (h : WellFormed key s) (hs : s.toMonitor = []) :
    ∃ l t, (∀ a ∈ l, a.IsReceive) ∧ run (LockState.step fresh beyond query) s l = some t ∧
      t.toMonitor = [] ∧ t.toClient = [] := by
  generalize hmsgs : s.toClient = msgs
  induction msgs generalizing s with
  | nil => exact ⟨[], s, fun a ha => absurd ha List.not_mem_nil, rfl, hs, hmsgs⟩
  | cons msg msgs ih =>
    obtain ⟨u, hu, hclient, hmonitor, hkeeps⟩ := keeps_clientReceives h hmsgs 0
    obtain ⟨l, t, hl, ht, hempty⟩ := ih hkeeps.wellFormed (hmonitor.trans hs) hclient
    refine ⟨.clientReceives 0 :: l, t, fun a ha => ?_, run_cons_eq_some.mpr ⟨u, hu, ht⟩, hempty⟩
    rcases List.mem_cons.mp ha with rfl | ha
    · trivial
    · exact hl a ha

/-- The messages under way can all be received. -/
theorem exists_run_receives (h : WellFormed key s) :
    ∃ l t, (∀ a ∈ l, a.IsReceive) ∧ run (LockState.step fresh beyond query) s l = some t ∧
      t.toMonitor = [] ∧ t.toClient = [] := by
  generalize hmsgs : s.toMonitor = msgs
  induction msgs generalizing s with
  | nil => exact exists_run_toClient h hmsgs
  | cons msg msgs ih =>
    obtain ⟨u, hu, hmonitor, hkeeps⟩ := keeps_monitorReceives h hmsgs 0
    obtain ⟨l, t, hl, ht, hempty⟩ := ih hkeeps.wellFormed hmonitor
    refine ⟨.monitorReceives 0 :: l, t, fun a ha => ?_, run_cons_eq_some.mpr ⟨u, hu, ht⟩, hempty⟩
    rcases List.mem_cons.mp ha with rfl | ha
    · trivial
    · exact hl a ha

theorem count_filterMap_request? (key : UInt32 × UInt32) (msgs : List (List UInt8)) :
    (msgs.filterMap (request? key)).count .toggle = msgs.count (toggleMsg key) := by
  induction msgs with
  | nil => rfl
  | cons msg msgs ih =>
    by_cases htoggle : msg = toggleMsg key
    · subst htoggle
      rw [List.filterMap_cons, request?_toggleMsg, if_pos rfl, List.count_cons_self,
        List.count_cons_self, ih]
    · rw [List.count_cons_of_ne htoggle, ← ih, List.filterMap_cons, request?, if_neg htoggle]
      by_cases hquery : msg = queryMsg key
      · rw [if_pos hquery]
        exact List.count_cons_of_ne (by decide)
      · rw [if_neg hquery]

/-- The lock to come is the flag to come. -/
theorem lockToCome_eq (s : LockState) (key : UInt32 × UInt32) :
    s.lockToCome key = (s.abstract key).settled.1 := by
  rw [Toggle.State.settled_fst, lockToCome, ← count_filterMap_request?]
  rfl

/-- Where all that is under way is received in the end, the lock comes out as asked precisely
if the one to come is the one that has been asked for. -/
theorem settles_iff (h : WellFormed key s) :
    Settles fresh beyond query key s ↔ (s.lockToCome key = true ↔ s.asked key = some true) := by
  have hquiet {l : List LockAction} {t : LockState} (hl : ∀ a ∈ l, a.IsReceive)
      (ht : run (LockState.step fresh beyond query) s l = some t) (hmonitor : t.toMonitor = []) :
      t.monitor.locked key = s.lockToCome key ∧ t.asked key = s.asked key := by
    have hkeeps := keeps_run h hl ht
    refine ⟨?_, hkeeps.asked⟩
    rw [lockToCome_eq, ← hkeeps.settled, ← lockToCome_eq, lockToCome, hmonitor]
    rfl
  constructor
  · intro hsettles
    obtain ⟨l, t, hl, ht, hmonitor, hclient⟩ := exists_run_receives h
    have heq := hquiet hl ht hmonitor
    have hiff := hsettles l hl t ht hmonitor hclient
    rwa [heq.1, heq.2] at hiff
  · intro hiff l hl t ht hmonitor hclient
    have heq := hquiet hl ht hmonitor
    rwa [heq.1, heq.2]

/-! ### Calls -/

/-- A step keeps it so that the lock comes out as asked precisely if it is not a call for the
row, or one with the right view. -/
theorem settles_step_iff {a : LockAction} (h : WellFormed key s)
    (hs : Settles fresh beyond query key s) (ht : step fresh beyond query s a = some t) :
    Settles fresh beyond query key t ↔ ViewRight key s a := by
  rcases keeps_or_asks h ht with ⟨hkeeps, hne⟩ | ⟨d, rfl, ht', hask, hasked⟩
  · have hview : ViewRight key s a := by
      cases a with
      | enterDebugState table row d =>
        intro hkey
        subst hkey
        exact absurd rfl (hne d)
      | monitorReceives now => trivial
      | clientReceives now => trivial
      | monitorTick now => trivial
      | clientTick now => trivial
    refine iff_of_true ?_ hview
    rw [settles_iff h] at hs
    rwa [settles_iff hkeeps.wellFormed, lockToCome_eq, hkeeps.settled, ← lockToCome_eq,
      hkeeps.asked]
  · have hright : ViewRight key s (.enterDebugState key.1 key.2 d) ↔
        (s.abstract key).view = (s.abstract key).settled.1 := by
      rw [← lockToCome_eq]
      exact ⟨fun h => h rfl, fun h _ => h⟩
    rw [settles_iff ht', hright, ← Toggle.State.ask_settled_fst_eq_iff _ d, ← hask,
      ← lockToCome_eq, hasked, Option.some.injEq, ← Bool.eq_iff_iff]

/-- The client's view is right to come. -/
def Coherent (key : UInt32 × UInt32) (s : LockState) : Prop := (s.abstract key).Coherent

theorem Coherent.step {a : LockAction} (h : WellFormed key s) (hs : Coherent key s)
    (ht : step fresh beyond query s a = some t) : Coherent key t := by
  rcases keeps_or_asks h ht with ⟨hkeeps, -⟩ | ⟨d, -, -, hask, -⟩
  · exact hs.of_settled hkeeps.settled
  · rw [Coherent, hask]
    exact hs.ask d

/-- In quiet states the view is right. -/
theorem Coherent.viewRight {a : LockAction} (hs : Coherent key s) (hquiet : Quiet key s a) :
    ViewRight key s a := by
  cases a with
  | enterDebugState table row d =>
    intro hkey
    obtain ⟨hconn, htoggle, hquery, hreply⟩ := hquiet hkey
    have hrequests : (s.abstract key).requests = [] :=
      List.filterMap_eq_nil_iff.mpr fun msg hmsg => by
        rw [request?, if_neg (ne_of_mem_of_not_mem hmsg htoggle),
          if_neg (ne_of_mem_of_not_mem hmsg hquery)]
    have hreplies : (s.abstract key).replies = [] :=
      List.filterMap_eq_nil_iff.mpr fun msg hmsg => if_neg (hreply msg hmsg)
    have hview := Toggle.State.Coherent.view_eq hs hconn hrequests hreplies
    rw [← lockToCome_eq] at hview
    subst hkey
    exact hview
  | monitorReceives now => trivial
  | clientReceives now => trivial
  | monitorTick now => trivial
  | clientTick now => trivial

end Steps

theorem locked_of_lowest {monitor : Monitor} {key : UInt32 × UInt32} {row : MemoryRow}
    (hrow : monitor.row? key.1 key.2 = some row) (hunlocked : row.writePriority = lowestPriority) :
    monitor.locked key = false := by
  rw [Monitor.locked, hrow, Option.any_some, hunlocked]
  rfl

/-- **When the debug lock is the one asked for.** Whatever calls, deliveries and timers follow
each other, for a row that starts unlocked: after each prefix, receiving all that is under way
leaves the row locked precisely if the last call has asked for it, if and only if each call for
the row is made when the client's view is the state the row will have. It is, where each call
is made by a connected client while nothing about the row is under way. -/
theorem always_settles_iff (fresh : ℕ → ℕ → UInt8) (beyond : ℕ → UInt8) (query : List UInt8)
    (key : UInt32 × UInt32) (monitor : Monitor) (client : MonitorClient) (row : MemoryRow)
    (hrow : monitor.row? key.1 key.2 = some row) (hunlocked : row.writePriority = lowestPriority)
    (hnew : ∀ key', client.debugStateMap key' = none) (l : List LockAction) :
    (Always (step fresh beyond query) (Settles fresh beyond query key) (init monitor client) l ↔
        Guarded (step fresh beyond query) (ViewRight key) (init monitor client) l) ∧
      (Guarded (step fresh beyond query) (Quiet key) (init monitor client) l →
        Always (step fresh beyond query) (Settles fresh beyond query key) (init monitor client)
          l) := by
  have hlocked := locked_of_lowest hrow hunlocked
  have hwell : WellFormed key (init monitor client) :=
    ⟨fun _ h => absurd h List.not_mem_nil, fun _ h => absurd h List.not_mem_nil, by
      show (monitor.row? key.1 key.2).isSome
      rw [hrow]
      rfl⟩
  have hsettles : Settles fresh beyond query key (init monitor client) := by
    rw [settles_iff hwell, lockToCome]
    show monitor.locked key = true ↔ none = some true
    rw [hlocked]
    decide
  have hcoherent : Coherent key (init monitor client) := by
    show (client.debugStateMap key).getD false = monitor.locked key
    rw [hnew, hlocked]
    rfl
  have hiff : Always (step fresh beyond query) (Settles fresh beyond query key)
      (init monitor client) l ↔
        Guarded (step fresh beyond query) (ViewRight key) (init monitor client) l :=
    always_iff_guarded l (fun _ _ _ h ht => h.step ht)
      (fun _ _ _ h hs ht => settles_step_iff h hs ht) hwell hsettles
  refine ⟨hiff, fun hguarded => hiff.mpr ?_⟩
  refine hguarded.imp (J := fun s => WellFormed key s ∧ Coherent key s) ?_ ?_ ⟨hwell, hcoherent⟩
  · exact fun s a t h _ ht => ⟨h.1.step ht, h.2.step h.1 ht⟩
  · exact fun s a h hquiet => h.2.viewRight hquiet

/-- A monitor with one row. -/
def oneLock : Monitor where
  datasets := [MonitorClient.fourBytes.dataset]
  gotMsgFromMonitorApp := false
  tickGetFromLastArrivedAck := 0

/-- The client connects and asks for the lock. The reply to the query that it sends first comes
before the lock, and the client asks again. -/
def twoCalls : List LockAction :=
  [.clientTick 0, .enterDebugState 0 0 true, .monitorReceives 0, .monitorReceives 0,
    .clientReceives 0, .enterDebugState 0 0 true]

/-- Then all messages are received. -/
def receiveAll : List LockAction :=
  [.monitorReceives 0, .monitorReceives 0, .monitorReceives 0, .monitorReceives 0,
    .monitorReceives 0, .clientReceives 0, .clientReceives 0, .clientReceives 0]

/-- The row is unlocked, though both calls have asked for the lock. -/
theorem late_reply_unlocks :
    ∃ s, run (step (fun _ _ => 0) (fun _ => 0) []) (init oneLock MonitorClient.fourBytes)
        (twoCalls ++ receiveAll) = some s ∧
      s.toMonitor = [] ∧ s.toClient = [] ∧ s.asked (0, 0) = some true ∧
      s.monitor.locked (0, 0) = false := by
  have hrun : (run (step (fun _ _ => 0) (fun _ => 0) []) (init oneLock MonitorClient.fourBytes)
      (twoCalls ++ receiveAll)).map (fun s =>
        (s.toMonitor, s.toClient, s.asked (0, 0), s.monitor.locked (0, 0))) =
      some ([], [], some true, false) := by
    decide
  obtain ⟨s, hs, hend⟩ := Option.map_eq_some_iff.mp hrun
  simp only [Prod.mk.injEq] at hend
  exact ⟨s, hs, hend⟩

/-- The client waits for the replies before it asks for the lock to be taken back. -/
def quietCalls : List LockAction :=
  [.clientTick 0, .enterDebugState 0 0 true, .monitorReceives 0, .monitorReceives 0,
    .monitorReceives 0, .monitorReceives 0, .clientReceives 0, .clientReceives 0,
    .enterDebugState 0 0 false]

theorem always_settles_quietCalls :
    Always (step (fun _ _ => 0) (fun _ => 0) []) (Settles (fun _ _ => 0) (fun _ => 0) [] (0, 0))
      (init oneLock MonitorClient.fourBytes) quietCalls := by
  refine (always_settles_iff (fun _ _ => 0) (fun _ => 0) [] (0, 0) oneLock
    MonitorClient.fourBytes (MemoryRow.construct 4 true .buffer) rfl rfl (fun _ => rfl)
    quietCalls).2 ?_
  refine .cons rfl trivial (.cons rfl (fun _ => ⟨rfl, ?_, ?_, ?_⟩) ?_)
  · decide
  · decide
  · decide
  refine .cons rfl trivial (.cons rfl trivial (.cons rfl trivial (.cons rfl trivial
    (.cons rfl trivial (.cons rfl trivial (.cons rfl (fun _ => ⟨rfl, ?_, ?_, ?_⟩) trivial))))))
  · decide
  · decide
  · decide

end LockState

end UtilityFramework
