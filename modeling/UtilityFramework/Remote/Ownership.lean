import UtilityFramework.Remote.SyncStatus

/-!
# Two remote agents and the rows of one table

Agent `a` exports a table and agent `b` imports it under the same external id. Between the
write of a row and the write of the same value on the other side lie four steps: the write
stores the value, its thread raises the callbacks of the row, the dispatcher of the agent
runs the function that sends the message, and the other agent receives it. All four may be
interleaved with those of other writes; the messages of each direction keep their order.

Both agents send every change of a row of the table, whoever has made it. A value that `b`
has received therefore comes back to `a`; when `a`'s application has written the row in the
meantime, the older value overwrites the newer one.
-/

namespace UtilityFramework

open Transition

/-! ### The system -/

/-- The exporting agent and the importing one. -/
inductive Side
  | a
  | b
  deriving DecidableEq

/-- The other agent. -/
def Side.other : Side → Side
  | a => b
  | b => a

/-- The table that is exported and imported: its key at either side and its external id. -/
structure SharedTable where
  table : Side → UInt32
  externalId : UInt32

/-- An agent with the changes of its rows that are under way: `raising` holds those that a
thread has stored and is still to raise, `queue` those on the dispatcher. -/
structure Peer where
  agent : RemoteAgent
  raising : List RowChange
  queue : List RowChange

namespace Peer

/-- The changes under way at an agent. -/
def changes (p : Peer) : List RowChange := p.raising ++ p.queue

/-- The application writes a row. -/
def writeRow (fresh : ℕ → ℕ → UInt8) (p : Peer) (table entry : UInt32) (row : MemoryRow)
    (call : WriteCall) : Peer :=
  let w := row.writeBytes fresh call
  { p with
    agent := { p.agent with dataset := p.agent.dataset.setRow table entry w.row }
    raising := p.raising ++ if w.raised.isSome then [⟨table, entry, call.payload⟩] else [] }

/-- The callbacks of the `i`-th write under way are raised. -/
def raise (p : Peer) (i : ℕ) (c : RowChange) : Peer :=
  { p with raising := p.raising.eraseIdx i, queue := p.queue ++ [c] }

/-- The agent has handled an event. -/
def handled (p : Peer) (r : AgentResult) : Peer :=
  { p with agent := r.agent, raising := p.raising ++ r.raised }

end Peer

/-- A data message, by what its receiver reads in it. -/
def RemoteAgent.IsData (msg : List UInt8) (externalId entry : UInt32) (data : List UInt8) : Prop :=
  ∃ m, RemoteAgentDataMsg.read msg = some m ∧ RemoteAgent.isDataOpcode m.byOpcode = true ∧
    m.unDBIndex = externalId ∧ m.unDBEntryIndex = entry ∧
    msg.drop RemoteAgentDataMsg.size = data

/-- Two agents, the messages each has sent that the other has not received, and the value
that `a`'s application has written last to each row of the shared table. -/
structure RemotePair where
  peer : Side → Peer
  channel : Side → List (List UInt8)
  written : UInt32 → Option (List UInt8)

/-- The steps of either side: its application writes a row, a thread raises the callbacks of
its write, the dispatcher runs the next function, a message is received, the timer
elapses. -/
inductive PairAction
  | write (side : Side) (table entry : UInt32) (call : WriteCall)
  | raise (side : Side) (i : ℕ)
  | send (side : Side)
  | receive (side : Side) (now : UInt32)
  | tick (side : Side) (now : UInt32)

namespace RemotePair

/-- The pair with another state of one of the agents. -/
def setPeer (s : RemotePair) (side : Side) (p : Peer) : RemotePair :=
  { s with peer := Function.update s.peer side p }

/-- The pair with further messages of one of the agents. -/
def sendAll (s : RemotePair) (side : Side) (msgs : List (List UInt8)) : RemotePair :=
  { s with channel := Function.update s.channel side (s.channel side ++ msgs) }

/-- The value last written, after a write of `a`'s application to a row of the shared
table. -/
def written' (s : RemotePair) (entry : UInt32) (row : MemoryRow) (call : WriteCall) :
    UInt32 → Option (List UInt8) :=
  if row.type ≠ .emptyType ∧ call.Accepted row.dataSize row.writePriority then
    Function.update s.written entry (some call.payload)
  else s.written

/-- One step. Only `a`'s application writes the shared table. A copy beyond a local buffer
has no defined successor. -/
def step (fresh : ℕ → ℕ → UInt8) (stack : List UInt8) (cfg : SharedTable) (s : RemotePair) :
    PairAction → Option RemotePair
  | .write side table entry call =>
    let p := s.peer side
    if side = .b ∧ table = cfg.table .b then none
    else (p.agent.dataset.row? table entry).map fun row =>
      { s.setPeer side (p.writeRow fresh table entry row call) with
        written := if side = .a ∧ table = cfg.table .a then s.written' entry row call
          else s.written }
  | .raise side i =>
    let p := s.peer side
    p.raising[i]?.map fun c => s.setPeer side (p.raise i c)
  | .send side =>
    let p := s.peer side
    match p.queue with
    | [] => none
    | c :: queue =>
      match p.agent.onRowChange c with
      | none => some (s.setPeer side { p with queue := queue })
      | some (.error _) => none
      | some (.ok msg) =>
        some ((s.setPeer side { p with queue := queue }).sendAll side
          (commSend raMaxDataSize msg))
  | .receive side now =>
    let p := s.peer side
    match s.channel side.other with
    | [] => none
    | msg :: msgs =>
      let r := p.agent.messageHandler fresh stack now msg
      if r.failure = some .overflow then none
      else
        some (({ s with channel := Function.update s.channel side.other msgs }.setPeer side
          (p.handled r)).sendAll side r.sent)
  | .tick side now =>
    let p := s.peer side
    let r := p.agent.periodic now
    some ((s.setPeer side (p.handled r)).sendAll side r.sent)

/-- Each row of the exported table holds, as it is read in full, the value that `a`'s
application has written last. -/
def Owned (cfg : SharedTable) (s : RemotePair) : Prop :=
  ∀ entry v, s.written entry = some v →
    ∃ row, (s.peer .a).agent.dataset.row? (cfg.table .a) entry = some row ∧
      row.full = padded row.dataSize v

/-- The condition on a step: a message that `a` writes to a row its application has written
carries the value last written. -/
def NoOverwrite (fresh : ℕ → ℕ → UInt8) (cfg : SharedTable) (s : RemotePair) :
    PairAction → Prop
  | .receive .a _ =>
    ∀ msg ∈ (s.channel .b).head?, ∀ v, (s.peer .a).agent.receiveValue msg = .ok (some v) →
      (v.table, v.entry) ∈ (s.peer .a).agent.rowReceived fresh msg → v.table = cfg.table .a →
      ((s.peer .a).agent.valueCall v.data).Accepted v.row.dataSize v.row.writePriority →
      ∀ w, s.written v.entry = some w → padded v.row.dataSize v.data = padded v.row.dataSize w
  | _ => True

/-- A value of a row of the shared table is under way: as a change at one of the agents, or
in a data message. -/
def UnderWay (cfg : SharedTable) (s : RemotePair) (entry : UInt32) (data : List UInt8) : Prop :=
  (∃ side, ⟨cfg.table side, entry, data⟩ ∈ (s.peer side).changes) ∨
    ∃ side, ∃ msg ∈ s.channel side, RemoteAgent.IsData msg cfg.externalId entry data

/-- A condition on the writes of `a`'s application alone: it writes a row only while no
value of the row is under way. -/
def Quiet (cfg : SharedTable) (s : RemotePair) : PairAction → Prop
  | .write .a table entry _ =>
    table = cfg.table .a → ∀ data, ¬UnderWay cfg s entry data
  | _ => True

end RemotePair

/-! ### The rows of the exported table -/

/-- A row that holds data represents them. -/
def MemoryRow.Sound (row : MemoryRow) : Prop :=
  row.type ≠ .emptyType → ∃ payload, Represents row payload row.writePriority

namespace MemoryRow

variable {row : MemoryRow}

theorem frame_writeBytes (fresh : ℕ → ℕ → UInt8) (row : MemoryRow) (call : WriteCall) :
    (row.writeBytes fresh call).row.type = row.type ∧
      (row.writeBytes fresh call).row.writePriority = row.writePriority := by
  obtain ⟨ht, -, hp, -⟩ := reserve_frame fresh row call.size
  rw [writeBytes]
  split_ifs
  · exact ⟨rfl, rfl⟩
  · exact ⟨rfl, rfl⟩
  all_goals exact ⟨ht, hp⟩

/-- A data row after a write, as it is read in full. -/
theorem Sound.writeBytes (h : row.Sound) (fresh : ℕ → ℕ → UInt8) (call : WriteCall) :
    (row.writeBytes fresh call).row.Sound ∧
      (row.type ≠ .emptyType → (row.writeBytes fresh call).row.full =
        if call.Accepted row.dataSize row.writePriority then padded row.dataSize call.payload
        else row.full) := by
  obtain ⟨htype, hprio⟩ := frame_writeBytes fresh row call
  by_cases hacc : call.Accepted row.dataSize row.writePriority
  · refine ⟨fun hne => ?_, fun hne => ?_⟩
    · obtain ⟨payload, hrep⟩ := h (htype ▸ hne)
      rw [hprio]
      exact ⟨_, (hrep.writeBytes fresh hacc).1⟩
    · obtain ⟨payload, hrep⟩ := h hne
      rw [if_pos hacc, full, dataSize_writeBytes, (hrep.writeBytes fresh hacc).1.stored_eq]
  · by_cases hne : row.type = .emptyType
    · exact ⟨fun hne' => absurd (htype.trans hne) hne', fun hne' => absurd hne hne'⟩
    · rw [(writeBytes_of_not_accepted fresh call hne hacc).1, if_neg hacc]
      exact ⟨h, fun _ => rfl⟩

end MemoryRow

namespace RemotePair

variable {fresh : ℕ → ℕ → UInt8} {stack : List UInt8} {cfg : SharedTable} {s t : RemotePair}
  {action : PairAction}

/-- A row of the exported table. -/
def row? (cfg : SharedTable) (s : RemotePair) (entry : UInt32) : Option MemoryRow :=
  (s.peer .a).agent.dataset.row? (cfg.table .a) entry

@[simp] theorem peer_setPeer_self (s : RemotePair) (side : Side) (p : Peer) :
    (s.setPeer side p).peer side = p := Function.update_self ..

@[simp] theorem peer_setPeer_other (s : RemotePair) (side : Side) (p : Peer) :
    (s.setPeer side p).peer side.other = s.peer side.other :=
  Function.update_of_ne (by cases side <;> decide) _ _

@[simp] theorem channel_setPeer (s : RemotePair) (side : Side) (p : Peer) :
    (s.setPeer side p).channel = s.channel := rfl

@[simp] theorem peer_sendAll (s : RemotePair) (side : Side) (msgs : List (List UInt8)) :
    (s.sendAll side msgs).peer = s.peer := rfl

@[simp] theorem channel_sendAll_self (s : RemotePair) (side : Side) (msgs : List (List UInt8)) :
    (s.sendAll side msgs).channel side = s.channel side ++ msgs := Function.update_self ..

@[simp] theorem channel_sendAll_other (s : RemotePair) (side : Side)
    (msgs : List (List UInt8)) :
    (s.sendAll side msgs).channel side.other = s.channel side.other :=
  Function.update_of_ne (by cases side <;> decide) _ _

/-- A step of `b`, or one of `a` that leaves the data set as it is. -/
theorem row?_setPeer {side : Side} {p : Peer}
    (h : side = .a → p.agent.dataset = (s.peer .a).agent.dataset) :
    (s.setPeer side p).row? cfg = s.row? cfg := by
  funext entry
  cases side with
  | a => rw [row?, peer_setPeer_self, h rfl, row?]
  | b => rfl

/-- What a step does to the rows of the exported table: `a`'s application writes one, or `a`
writes one that it has received, or they stay as they are. -/
inductive RowStep (fresh : ℕ → ℕ → UInt8) (cfg : SharedTable) (s t : RemotePair) :
    PairAction → Prop
  | write {entry : UInt32} {row : MemoryRow} {call : WriteCall}
      (hrow : s.row? cfg entry = some row)
      (hrows : t.row? cfg = Function.update (s.row? cfg) entry
        (some (row.writeBytes fresh call).row))
      (hwritten : t.written = s.written' entry row call) :
      RowStep fresh cfg s t (.write .a (cfg.table .a) entry call)
  | receive {now : UInt32} {msg : List UInt8} {v : ReceivedValue}
      (hmsg : (s.channel .b).head? = some msg)
      (hv : (s.peer .a).agent.receiveValue msg = .ok (some v))
      (hmem : (v.table, v.entry) ∈ (s.peer .a).agent.rowReceived fresh msg)
      (htable : v.table = cfg.table .a)
      (hrow : s.row? cfg v.entry = some v.row)
      (hrows : t.row? cfg = Function.update (s.row? cfg) v.entry
        (some (v.row.writeBytes fresh ((s.peer .a).agent.valueCall v.data)).row))
      (hwritten : t.written = s.written) :
      RowStep fresh cfg s t (.receive .a now)
  | frame {action : PairAction} (hrows : t.row? cfg = s.row? cfg)
      (hwritten : t.written = s.written) (hok : s.NoOverwrite fresh cfg action)
      (hne : ∀ entry call, action ≠ .write .a (cfg.table .a) entry call) :
      RowStep fresh cfg s t action

theorem row?_update {ds : DataSet} {table entry : UInt32} {row : MemoryRow}
    (hrow : ds.row? table entry = some row) (row' : MemoryRow) (table' : UInt32) :
    (ds.setRow table entry row').row? table' =
      if table' = table then Function.update (ds.row? table) entry (some row')
      else ds.row? table' := by
  funext entry'
  rw [DataSet.row?_setRow, hrow]
  by_cases ht : table' = table
  · subst ht
    by_cases he : entry' = entry
    · simp [he]
    · simp [he]
  · simp [ht]

theorem rowStep_write {side : Side} {table entry : UInt32} {call : WriteCall}
    (h : s.step fresh stack cfg (.write side table entry call) = some t) :
    RowStep fresh cfg s t (.write side table entry call) := by
  by_cases hb : side = .b ∧ table = cfg.table .b
  · rw [step, if_pos hb] at h
    exact absurd h (by simp)
  rw [step, if_neg hb] at h
  obtain ⟨row, hrow, rfl⟩ := Option.map_eq_some_iff.mp h
  cases side with
  | b => exact .frame rfl rfl trivial (by simp)
  | a =>
    have hrows := row?_update hrow (row.writeBytes fresh call).row (cfg.table .a)
    by_cases ht : table = cfg.table .a
    · subst ht
      rw [if_pos rfl] at hrows
      exact .write hrow hrows (if_pos ⟨rfl, rfl⟩)
    · rw [if_neg fun h => ht h.symm] at hrows
      exact .frame hrows (if_neg fun h => ht h.2) trivial (by simp [ht])

theorem dataset_periodic (a : RemoteAgent) (now : UInt32) :
    (a.periodic now).agent.dataset = a.dataset := by
  cases htime : a.timedOut now with
  | false => rw [RemoteAgent.periodic_of_inTime htime]
  | true =>
    rw [RemoteAgent.periodic_of_timedOut htime]
    split <;> rfl

/-- The data set of an agent after a message that is written to a row. -/
theorem dataset_writeValue {a : RemoteAgent} {v : ReceivedValue}
    (hres : (v.row.writeBytes fresh (a.valueCall v.data)).result = true) :
    (a.writeValue fresh v).agent.dataset =
      a.dataset.setRow v.table v.entry (v.row.writeBytes fresh (a.valueCall v.data)).row := by
  rw [RemoteAgent.writeValue, if_neg (by simp [hres])]
  dsimp only
  split <;> rfl

theorem rowStep_receive {side : Side} {now : UInt32}
    (h : s.step fresh stack cfg (.receive side now) = some t) :
    RowStep fresh cfg s t (.receive side now) := by
  cases hmsgs : s.channel side.other with
  | nil =>
    simp only [step, hmsgs] at h
    exact absurd h (by simp)
  | cons msg msgs =>
    simp only [step, hmsgs] at h
    split_ifs at h
    rw [Option.some.injEq] at h
    subst h
    cases side with
    | b => exact .frame rfl rfl trivial (by simp)
    | a =>
      have hhead : (s.channel .b).head? = some msg := by
        rw [show s.channel .b = msg :: msgs from hmsgs]
        rfl
      rcases RemoteAgent.messageHandler_cases fresh (s.peer .a).agent stack now msg with
        ⟨v, hv, hres, hrow, heq⟩ | ⟨hrow, ⟨⟨tick, heq⟩, -, -⟩⟩
      · have hfound := (RemoteAgent.receiveValue_found hv).2
        have hdata := dataset_writeValue hres
        have hrows := row?_update hfound (v.row.writeBytes fresh
          ((s.peer .a).agent.valueCall v.data)).row (cfg.table .a)
        rw [← hdata, ← heq] at hrows
        by_cases ht : v.table = cfg.table .a
        · rw [if_pos ht.symm, ht] at hrows
          rw [ht] at hfound
          exact .receive hhead hv (hrow ▸ List.mem_singleton_self _) ht hfound hrows rfl
        · rw [if_neg fun h => ht h.symm] at hrows
          refine .frame hrows rfl ?_ (by simp)
          intro msg' hmsg' v' hv' _ ht'
          rw [hhead, Option.mem_some_iff] at hmsg'
          subst hmsg'
          rw [hv, Except.ok.injEq, Option.some.injEq] at hv'
          exact absurd (hv' ▸ ht') ht
      · refine .frame ?_ rfl ?_ (by simp)
        · funext entry
          exact congrArg (fun a => a.dataset.row? (cfg.table .a) entry) heq
        · intro msg' hmsg' v' hv' hmem
          rw [hhead, Option.mem_some_iff] at hmsg'
          subst hmsg'
          rw [hrow] at hmem
          exact absurd hmem List.not_mem_nil

/-- Every step is one of the three. -/
theorem rowStep (h : s.step fresh stack cfg action = some t) : RowStep fresh cfg s t action := by
  cases action with
  | write side table entry call => exact rowStep_write h
  | receive side now => exact rowStep_receive h
  | raise side i =>
    obtain ⟨c, -, rfl⟩ := Option.map_eq_some_iff.mp h
    refine .frame (row?_setPeer ?_) rfl (by cases side <;> trivial) (by simp)
    rintro rfl
    rfl
  | send side =>
    have hok : s.NoOverwrite fresh cfg (.send side) := by cases side <;> trivial
    cases hq : (s.peer side).queue with
    | nil =>
      simp only [step, hq] at h
      exact absurd h (by simp)
    | cons c queue =>
      simp only [step, hq] at h
      -- whatever becomes of the change, only the queue and the channel are different
      split at h
      · rw [Option.some.injEq] at h
        subst h
        refine .frame (row?_setPeer ?_) rfl hok (by simp)
        rintro rfl
        rfl
      · exact absurd h (by simp)
      · rw [Option.some.injEq] at h
        subst h
        refine .frame (row?_setPeer ?_) rfl hok (by simp)
        rintro rfl
        rfl
  | tick side now =>
    rw [step, Option.some.injEq] at h
    subst h
    refine .frame (row?_setPeer ?_) rfl (by cases side <;> trivial) (by simp)
    rintro rfl
    exact dataset_periodic _ now

/-! ### When the rows hold what was written -/

/-- The rows of the exported table are sound, and those the application has written hold
data. -/
structure RowsSound (cfg : SharedTable) (s : RemotePair) : Prop where
  sound : ∀ entry row, s.row? cfg entry = some row → row.Sound
  type_ne : ∀ entry v, s.written entry = some v →
    ∃ row, s.row? cfg entry = some row ∧ row.type ≠ .emptyType

/-- One row of the table after a write. -/
theorem RowsSound.update (hs : s.RowsSound cfg) {entry : UInt32} {row : MemoryRow}
    {call : WriteCall} (hrow : s.row? cfg entry = some row)
    (hrows : t.row? cfg =
      Function.update (s.row? cfg) entry (some (row.writeBytes fresh call).row)) :
    (∀ e r, t.row? cfg e = some r → r.Sound) ∧
      ∀ e, (∃ r, s.row? cfg e = some r ∧ r.type ≠ .emptyType) →
        ∃ r, t.row? cfg e = some r ∧ r.type ≠ .emptyType := by
  rw [hrows]
  constructor
  · intro e r hr
    by_cases he : e = entry
    · subst he
      rw [Function.update_self, Option.some.injEq] at hr
      exact hr ▸ ((hs.sound e row hrow).writeBytes fresh call).1
    · rw [Function.update_of_ne he] at hr
      exact hs.sound e r hr
  · rintro e ⟨r, hr, htype⟩
    by_cases he : e = entry
    · subst he
      rw [hrow, Option.some.injEq] at hr
      subst hr
      rw [Function.update_self]
      exact ⟨_, rfl, (MemoryRow.frame_writeBytes fresh row call).1 ▸ htype⟩
    · rw [Function.update_of_ne he]
      exact ⟨r, hr, htype⟩

theorem rowsSound_step (hs : s.RowsSound cfg) (h : s.step fresh stack cfg action = some t) :
    t.RowsSound cfg := by
  cases rowStep h with
  | frame hrows hwritten _ _ =>
    refine ⟨?_, ?_⟩
    · rw [hrows]
      exact hs.sound
    · rw [hrows, hwritten]
      exact hs.type_ne
  | @write entry row call hrow hrows hwritten =>
    obtain ⟨hsound, htype⟩ := hs.update hrow hrows
    refine ⟨hsound, fun e v hv => htype e ?_⟩
    rw [hwritten, written'] at hv
    split_ifs at hv with hacc
    · by_cases he : e = entry
      · exact he ▸ ⟨row, hrow, hacc.1⟩
      · rw [Function.update_of_ne he] at hv
        exact hs.type_ne e v hv
    · exact hs.type_ne e v hv
  | receive hmsg hv hmem htable hrow hrows hwritten =>
    obtain ⟨hsound, htype⟩ := hs.update hrow hrows
    exact ⟨hsound, fun e w hw => htype e (hs.type_ne e w (hwritten ▸ hw))⟩

theorem RowsSound.full_of_written (hs : s.RowsSound cfg) (hP : s.Owned cfg) {entry : UInt32}
    {row : MemoryRow} {v : List UInt8} (hrow : s.row? cfg entry = some row)
    (hv : s.written entry = some v) :
    row.full = padded row.dataSize v ∧ row.type ≠ .emptyType := by
  obtain ⟨row', hr, hfull⟩ := hP entry v hv
  obtain ⟨row'', hr', htype⟩ := hs.type_ne entry v hv
  rw [← row?, hrow, Option.some.injEq] at hr
  rw [hrow, Option.some.injEq] at hr'
  subst hr hr'
  exact ⟨hfull, htype⟩

/-- A row other than the one that has changed. -/
theorem Owned.of_ne (hP : s.Owned cfg) {entry e : UInt32} {r : Option MemoryRow}
    {v : List UInt8} (hrows : t.row? cfg = Function.update (s.row? cfg) entry r) (he : e ≠ entry)
    (hv : s.written e = some v) :
    ∃ row, t.row? cfg e = some row ∧ row.full = padded row.dataSize v := by
  obtain ⟨row, hrow, hfull⟩ := hP e v hv
  refine ⟨row, ?_, hfull⟩
  rw [hrows, Function.update_of_ne he]
  exact hrow

/-- `a`'s application writes a row. -/
theorem Owned.write (hP : s.Owned cfg) (hs : s.RowsSound cfg) {entry : UInt32} {row : MemoryRow}
    {call : WriteCall} (hrow : s.row? cfg entry = some row)
    (hrows : t.row? cfg = Function.update (s.row? cfg) entry
      (some (row.writeBytes fresh call).row))
    (hwritten : t.written = s.written' entry row call) : t.Owned cfg := by
  intro e v hv
  rw [hwritten, written'] at hv
  by_cases he : e = entry
  · subst he
    refine ⟨(row.writeBytes fresh call).row, ?_, ?_⟩
    · rw [← row?, hrows, Function.update_self]
    rw [MemoryRow.dataSize_writeBytes]
    split_ifs at hv with hacc
    · rw [Function.update_self, Option.some.injEq] at hv
      rw [((hs.sound e row hrow).writeBytes fresh call).2 hacc.1, if_pos hacc.2, hv]
    · -- a write that the row does not take
      obtain ⟨hfull, htype⟩ := hs.full_of_written hP hrow hv
      rw [((hs.sound e row hrow).writeBytes fresh call).2 htype,
        if_neg fun h => hacc ⟨htype, h⟩, hfull]
  · refine hP.of_ne hrows he ?_
    split_ifs at hv
    · rwa [Function.update_of_ne he] at hv
    · exact hv

/-- While the rows hold what was written, a step keeps it so precisely when it does not
overwrite a row with another value. -/
theorem owned_step_iff (hs : s.RowsSound cfg) (hP : s.Owned cfg)
    (h : s.step fresh stack cfg action = some t) :
    t.Owned cfg ↔ s.NoOverwrite fresh cfg action := by
  cases rowStep h with
  | frame hrows hwritten hok _ =>
    refine iff_of_true (fun e v hv => ?_) hok
    obtain ⟨row, hrow, hfull⟩ := hP e v (hwritten ▸ hv)
    exact ⟨row, (congrFun hrows e).trans hrow, hfull⟩
  | write hrow hrows hwritten => exact iff_of_true (hP.write hs hrow hrows hwritten) trivial
  | @receive now msg v hmsg hv hmem htable hrow hrows hwritten =>
    have hsound := ((hs.sound v.entry v.row hrow).writeBytes fresh
      ((s.peer .a).agent.valueCall v.data)).2
    have hrow' := congrFun hrows v.entry
    rw [Function.update_self] at hrow'
    constructor
    · intro ht msg' hmsg' v' hv' _ _ hacc w hw
      rw [hmsg, Option.mem_some_iff] at hmsg'
      subst hmsg'
      rw [hv, Except.ok.injEq, Option.some.injEq] at hv'
      subst hv'
      obtain ⟨-, htype⟩ := hs.full_of_written hP hrow hw
      obtain ⟨row, hr, hfull⟩ := ht v.entry w (hwritten ▸ hw)
      obtain rfl := Option.some.inj (hrow'.symm.trans hr)
      rw [MemoryRow.dataSize_writeBytes, hsound htype, if_pos hacc] at hfull
      exact hfull
    · intro hok e w hw
      rw [hwritten] at hw
      by_cases he : e = v.entry
      · subst he
        obtain ⟨hfull, htype⟩ := hs.full_of_written hP hrow hw
        refine ⟨_, hrow', ?_⟩
        rw [MemoryRow.dataSize_writeBytes, hsound htype]
        split_ifs with hacc
        · exact hok msg (hmsg ▸ rfl) v hv hmem htable hacc w hw
        · exact hfull
      · exact hP.of_ne hrows he hw

end RemotePair

/-- Two agents that have just been started, with nothing under way. -/
def RemotePair.init (agent : Side → RemoteAgent) : RemotePair where
  peer side := ⟨(agent side).start, [], []⟩
  channel _ := []
  written _ := none

end UtilityFramework
