import UtilityFramework.Remote.SentMessages

/-!
# Quiet writes

What `a`'s application can do to keep its rows: write a row only while no value of the row is
under way. Then everything that is under way carries the value that the row holds
(`Agreeing`), and what comes back from `b` changes nothing.
-/

namespace UtilityFramework

open Transition

/-! ### What a step puts under way -/

namespace RemotePair

variable {fresh : ℕ → ℕ → UInt8} {stack : List UInt8} {cfg : SharedTable} {s t : RemotePair}
  {action : PairAction}

/-- The shared table is the one table of its external id at either agent, and is not imported
by `a`. -/
structure Shares (cfg : SharedTable) (agent : Side → RemoteAgent) : Prop where
  tableOf_eq : ∀ side, (agent side).tableOf cfg.externalId = some (cfg.table side)
  eq_table : ∀ side table, (agent side).sentId table = some cfg.externalId →
    table = cfg.table side
  not_imported : ∀ table, (agent .a).importedId table ≠ some cfg.externalId

theorem Shares.of_sameIds {agent agent' : Side → RemoteAgent} (h : Shares cfg agent)
    (hsame : ∀ side, RemoteAgent.SameIds (agent side) (agent' side)) : Shares cfg agent' where
  tableOf_eq side := (hsame side).tableOf_eq ▸ h.tableOf_eq side
  eq_table side := (hsame side).sentId_eq ▸ h.eq_table side
  not_imported := (hsame .a).importedId_eq ▸ h.not_imported

/-- Where a change that a step has raised at an agent comes from: the application has written
the row, or a message has been written to it. -/
inductive Raised (fresh : ℕ → ℕ → UInt8) (s : RemotePair) (side : Side) (c : RowChange) :
    PairAction → Prop
  | write {call : WriteCall} {row : MemoryRow}
      (hrow : (s.peer side).agent.dataset.row? c.table c.entry = some row)
      (hraised : (row.writeBytes fresh call).raised.isSome) (hdata : c.data = call.payload) :
      Raised fresh s side c (.write side c.table c.entry call)
  | receive {now : UInt32} {msg : List UInt8} {externalId : UInt32}
      (hmsg : msg ∈ s.channel side.other)
      (htable : (s.peer side).agent.tableOf externalId = some c.table)
      (hdata : RemoteAgent.IsData msg externalId c.entry c.data) :
      Raised fresh s side c (.receive side now)

/-- Where a message that a step has sent comes from: it is sent for a change, in answer to a
request, or by the periodic task. -/
inductive Sent (stack : List UInt8) (s : RemotePair) (side : Side) (msg : List UInt8) :
    PairAction → Prop
  | change {c : RowChange} (hc : c ∈ (s.peer side).changes)
      (hmsg : (s.peer side).agent.onRowChange c = some (.ok msg)) :
      Sent stack s side msg (.send side)
  | answer {now : UInt32} {request : List UInt8} {externalId : UInt32}
      (hrequest : request ∈ s.channel side.other)
      (his : RemoteAgent.IsRequest request externalId)
      (hmsg : msg ∈ ((s.peer side).agent.handleRegisterDB stack externalId).1) :
      Sent stack s side msg (.receive side now)
  | periodic {now : UInt32} (hmsg : msg ∈ ((s.peer side).agent.periodic now).sent) :
      Sent stack s side msg (.tick side now)

/-- What a step does to the agent `side` that takes it, and to the messages under way. -/
structure Delta (fresh : ℕ → ℕ → UInt8) (stack : List UInt8) (s t : RemotePair)
    (action : PairAction) (side : Side) : Prop where
  peer_eq : t.peer side.other = s.peer side.other
  sameIds : RemoteAgent.SameIds (s.peer side).agent (t.peer side).agent
  changes : ∀ c ∈ (t.peer side).changes,
    c ∈ (s.peer side).changes ∨ Raised fresh s side c action
  channel_eq : ∀ msg ∈ t.channel side.other, msg ∈ s.channel side.other
  channel : ∀ msg ∈ t.channel side, msg ∈ s.channel side ∨ Sent stack s side msg action

theorem mem_commSend {n : ℕ} {msg msg' : List UInt8} (h : msg' ∈ commSend n msg) :
    msg' = msg := by
  rw [commSend] at h
  split_ifs at h
  · exact absurd h List.not_mem_nil
  · exact List.mem_singleton.mp h

/-- An agent changes, and nothing is sent. -/
theorem Delta.setPeer {side : Side} {p : Peer}
    (hsame : RemoteAgent.SameIds (s.peer side).agent p.agent)
    (hchanges : ∀ c ∈ p.changes, c ∈ (s.peer side).changes ∨ Raised fresh s side c action) :
    Delta fresh stack s (s.setPeer side p) action side where
  peer_eq := peer_setPeer_other s side p
  sameIds := by rwa [peer_setPeer_self]
  changes := by rwa [peer_setPeer_self]
  channel_eq _ h := h
  channel _ h := Or.inl h

/-- An agent changes, and messages are sent. -/
theorem Delta.sendAll {side : Side} {p : Peer} {msgs : List (List UInt8)}
    {channel : Side → List (List UInt8)}
    (hsame : RemoteAgent.SameIds (s.peer side).agent p.agent)
    (hchanges : ∀ c ∈ p.changes, c ∈ (s.peer side).changes ∨ Raised fresh s side c action)
    (hchannel : ∀ side' msg, msg ∈ channel side' → msg ∈ s.channel side')
    (hmsgs : ∀ msg ∈ msgs, Sent stack s side msg action) :
    Delta fresh stack s (({ s with channel := channel }.setPeer side p).sendAll side msgs)
      action side where
  peer_eq := peer_setPeer_other s side p
  sameIds := by
    rw [peer_sendAll, peer_setPeer_self]
    exact hsame
  changes := by
    rw [peer_sendAll, peer_setPeer_self]
    exact hchanges
  channel_eq msg h := by
    rw [channel_sendAll_other] at h
    exact hchannel _ msg h
  channel msg h := by
    rw [channel_sendAll_self] at h
    exact (List.mem_append.mp h).imp (hchannel _ msg) (hmsgs msg)

/-- The change that a message raises. -/
theorem raised_messageHandler {a : RemoteAgent} {now : UInt32} {msg : List UInt8}
    {c : RowChange} (h : c ∈ (a.messageHandler fresh stack now msg).raised) :
    ∃ externalId, a.tableOf externalId = some c.table ∧
      RemoteAgent.IsData msg externalId c.entry c.data := by
  rcases RemoteAgent.messageHandler_cases fresh a stack now msg with
    ⟨v, hv, hres, hrow, heq⟩ | ⟨-, ⟨-, hraised, -⟩⟩
  · rw [heq, RemoteAgent.writeValue, if_neg (by simp [hres])] at h
    dsimp only at h
    split_ifs at h
    · rw [List.mem_singleton] at h
      subst h
      exact RemoteAgent.isData_of_receiveValue hv (hrow ▸ List.mem_singleton_self _)
    · exact absurd h List.not_mem_nil
  · rw [hraised] at h
    exact absurd h List.not_mem_nil

/-- What is sent in answer to a message. -/
theorem sent_messageHandler {a : RemoteAgent} {now : UInt32} {msg msg' : List UInt8}
    (h : msg' ∈ (a.messageHandler fresh stack now msg).sent) :
    ∃ externalId, RemoteAgent.IsRequest msg externalId ∧
      msg' ∈ (a.handleRegisterDB stack externalId).1 := by
  rcases RemoteAgent.messageHandler_cases fresh a stack now msg with
    ⟨v, -, hres, -, heq⟩ | ⟨-, ⟨-, -, hsent⟩⟩
  · rw [heq, RemoteAgent.writeValue, if_neg (by simp [hres])] at h
    exact absurd h List.not_mem_nil
  · rcases hsent with hsent | ⟨m, hm, hop, hsent⟩
    · rw [hsent] at h
      exact absurd h List.not_mem_nil
    · exact ⟨m.unDBIndex, ⟨m, hm, hop, rfl⟩, hsent ▸ h⟩

theorem Delta.sameIds_peer {side : Side} (h : Delta fresh stack s t action side)
    (side' : Side) : RemoteAgent.SameIds (s.peer side').agent (t.peer side').agent := by
  by_cases hside : side' = side
  · exact hside ▸ h.sameIds
  · have hother : side' = side.other := by cases side <;> cases side' <;> trivial
    rw [hother, h.peer_eq]
    exact ⟨rfl, rfl, rfl⟩

/-- The application of an agent writes a row. -/
theorem delta_write {side : Side} {table entry : UInt32} {call : WriteCall}
    (h : s.step fresh stack cfg (.write side table entry call) = some t) :
    Delta fresh stack s t (.write side table entry call) side := by
  by_cases hb : side = .b ∧ table = cfg.table .b
  · rw [step, if_pos hb] at h
    exact absurd h (by simp)
  rw [step, if_neg hb] at h
  obtain ⟨row, hrow, rfl⟩ := Option.map_eq_some_iff.mp h
  have hdelta : Delta fresh stack s
      (s.setPeer side ((s.peer side).writeRow fresh table entry row call))
      (.write side table entry call) side := by
    refine .setPeer ⟨rfl, rfl, rfl⟩ fun c hc => ?_
    simp only [Peer.changes, Peer.writeRow, List.mem_append] at hc
    rcases hc with (hc | hc) | hc
    · exact Or.inl (List.mem_append_left _ hc)
    · split_ifs at hc with hraised
      · rw [List.mem_singleton] at hc
        subst hc
        exact Or.inr (.write hrow hraised rfl)
      · exact absurd hc List.not_mem_nil
    · exact Or.inl (List.mem_append_right _ hc)
  exact ⟨hdelta.peer_eq, hdelta.sameIds, hdelta.changes, hdelta.channel_eq, hdelta.channel⟩

/-- The callbacks of a write are raised. -/
theorem delta_raise {side : Side} {i : ℕ}
    (h : s.step fresh stack cfg (.raise side i) = some t) :
    Delta fresh stack s t (.raise side i) side := by
  obtain ⟨c, hc, rfl⟩ := Option.map_eq_some_iff.mp h
  refine .setPeer ⟨rfl, rfl, rfl⟩ fun c' hc' => Or.inl ?_
  simp only [Peer.changes, Peer.raise, List.mem_append, List.mem_singleton] at hc'
  rcases hc' with hc' | hc' | rfl
  · exact List.mem_append_left _ (List.mem_of_mem_eraseIdx hc')
  · exact List.mem_append_right _ hc'
  · exact List.mem_append_left _ (List.mem_of_getElem? hc)

/-- The dispatcher of an agent runs the next function. -/
theorem delta_send {side : Side} (h : s.step fresh stack cfg (.send side) = some t) :
    Delta fresh stack s t (.send side) side := by
  cases hq : (s.peer side).queue with
  | nil =>
    simp only [step, hq] at h
    exact absurd h (by simp)
  | cons c queue =>
    have hchanges : ∀ c' ∈ (⟨(s.peer side).agent, (s.peer side).raising, queue⟩ : Peer).changes,
        c' ∈ (s.peer side).changes ∨ Raised fresh s side c' (.send side) := by
      intro c' hc'
      rw [Peer.changes, hq]
      rcases List.mem_append.mp hc' with hc' | hc'
      · exact Or.inl (List.mem_append_left _ hc')
      · exact Or.inl (List.mem_append_right _ (List.mem_cons_of_mem c hc'))
    simp only [step, hq] at h
    split at h
    · rw [Option.some.injEq] at h
      exact h ▸ .setPeer ⟨rfl, rfl, rfl⟩ hchanges
    · exact absurd h (by simp)
    · rename_i msg hmsg
      rw [Option.some.injEq] at h
      refine h ▸ .sendAll ⟨rfl, rfl, rfl⟩ hchanges (fun _ _ h => h) fun msg' hmsg' => ?_
      rw [mem_commSend hmsg']
      refine .change ?_ hmsg
      rw [Peer.changes, hq]
      exact List.mem_append_right _ List.mem_cons_self

/-- An agent receives a message. -/
theorem delta_receive {side : Side} {now : UInt32}
    (h : s.step fresh stack cfg (.receive side now) = some t) :
    Delta fresh stack s t (.receive side now) side := by
  cases hmsgs : s.channel side.other with
  | nil =>
    simp only [step, hmsgs] at h
    exact absurd h (by simp)
  | cons msg msgs =>
    have hhead : msg ∈ s.channel side.other := hmsgs ▸ List.mem_cons_self
    have hchannel : ∀ side' msg',
        msg' ∈ Function.update s.channel side.other msgs side' → msg' ∈ s.channel side' := by
      intro side' msg' hmsg'
      by_cases hside : side' = side.other
      · subst hside
        rw [Function.update_self] at hmsg'
        exact hmsgs ▸ List.mem_cons_of_mem msg hmsg'
      · rwa [Function.update_of_ne hside] at hmsg'
    simp only [step, hmsgs] at h
    split_ifs at h
    rw [Option.some.injEq] at h
    refine h ▸ .sendAll (RemoteAgent.sameIds_messageHandler fresh _ stack now msg)
      (fun c hc => ?_) hchannel fun msg' hmsg' => ?_
    · simp only [Peer.changes, Peer.handled, List.mem_append] at hc
      rcases hc with (hc | hc) | hc
      · exact Or.inl (List.mem_append_left _ hc)
      · obtain ⟨externalId, htable, hdata⟩ := raised_messageHandler hc
        exact Or.inr (.receive hhead htable hdata)
      · exact Or.inl (List.mem_append_right _ hc)
    · obtain ⟨externalId, his, hanswer⟩ := sent_messageHandler hmsg'
      exact .answer hhead his hanswer

/-- The timer of an agent elapses. -/
theorem delta_tick {side : Side} {now : UInt32}
    (h : s.step fresh stack cfg (.tick side now) = some t) :
    Delta fresh stack s t (.tick side now) side := by
  rw [step, Option.some.injEq] at h
  refine h ▸ .sendAll (RemoteAgent.sameIds_periodic _ now) (fun c hc => ?_)
    (fun _ _ h => h) fun msg hmsg => .periodic hmsg
  have hraised : ((s.peer side).agent.periodic now).raised = [] := by
    rw [RemoteAgent.periodic]
    split_ifs <;> rfl
  rw [Peer.changes, Peer.handled, hraised, List.append_nil] at hc
  exact Or.inl hc

/-- Every step is one of one agent. -/
theorem exists_delta (h : s.step fresh stack cfg action = some t) :
    ∃ side, Delta fresh stack s t action side := by
  cases action with
  | write side table entry call => exact ⟨side, delta_write h⟩
  | raise side i => exact ⟨side, delta_raise h⟩
  | send side => exact ⟨side, delta_send h⟩
  | receive side now => exact ⟨side, delta_receive h⟩
  | tick side now => exact ⟨side, delta_tick h⟩

/-! ### What is under way agrees with the rows -/

/-- What is under way agrees with the rows of the exported table, and nobody asks `b` for
them. -/
structure Agreeing (cfg : SharedTable) (s : RemotePair) : Prop where
  shares : Shares cfg fun side => (s.peer side).agent
  small : ∀ entry row, s.row? cfg entry = some row → row.dataSize < 2 ^ 31
  agree : ∀ entry row data, s.row? cfg entry = some row → row.type ≠ .emptyType →
    s.UnderWay cfg entry data → padded row.dataSize data = row.full ∧ data.length < 2 ^ 31
  requests : ∀ msg ∈ s.channel .a, ¬RemoteAgent.IsRequest msg cfg.externalId

/-- A change that a step has raised for a row of the table was under way before, or has just
been written by `a`'s application. -/
theorem underWay_of_raised (hagree : s.Agreeing cfg) (h : s.step fresh stack cfg action = some t)
    {side : Side} {entry : UInt32} {row : MemoryRow} {data : List UInt8}
    (hrow : s.row? cfg entry = some row)
    (hraised : Raised fresh s side ⟨cfg.table side, entry, data⟩ action) :
    s.UnderWay cfg entry data ∨
      ∃ call, action = .write .a (cfg.table .a) entry call ∧ data = call.payload ∧
        (row.writeBytes fresh call).raised.isSome := by
  cases hraised with
  | @write call row' hrow' hraised hpayload =>
    cases side with
    | a =>
      rw [show row' = row from Option.some.inj (hrow'.symm.trans hrow)] at hraised
      exact Or.inr ⟨call, rfl, hpayload, hraised⟩
    | b =>
      rw [step, if_pos ⟨rfl, rfl⟩] at h
      exact absurd h (by simp)
  | @receive now msg externalId hmsg htable hdata =>
    have hid := RemoteAgent.tableOf_inj htable (hagree.shares.tableOf_eq side)
    exact Or.inl (Or.inr ⟨side.other, msg, hmsg, hid ▸ hdata⟩)

/-- The data of a message that a step has sent for a row of the table were under way before, or
are the row, which `b` has asked for. -/
theorem underWay_of_sent (hs : s.RowsSound cfg) (hagree : s.Agreeing cfg) {side : Side}
    {msg : List UInt8} {entry : UInt32} {row : MemoryRow} {data : List UInt8}
    (hrow : s.row? cfg entry = some row) (htype : row.type ≠ .emptyType)
    (hsent : Sent stack s side msg action)
    (hdata : RemoteAgent.IsData msg cfg.externalId entry data) :
    s.UnderWay cfg entry data ∨
      ∃ now, action = .receive .a now ∧ row.full = data ∧ data.length < 2 ^ 31 := by
  cases hsent with
  | @change c hc hsent =>
    obtain ⟨hid, rfl, hsame⟩ := RemoteAgent.onRowChange_ok hsent hdata
    have htable := hagree.shares.eq_table side c.table hid
    have hold : s.UnderWay cfg c.entry c.data := Or.inl ⟨side, by rwa [← htable]⟩
    exact Or.inl (hsame (hagree.agree _ _ _ hrow htype hold).2 ▸ hold)
  | @answer now request externalId hrequest his hsent =>
    obtain ⟨rfl, hfull⟩ := RemoteAgent.isData_of_handleRegisterDB hsent hdata
    cases side with
    | a =>
      obtain ⟨hfull, hlen⟩ := hfull _ row (hagree.shares.tableOf_eq .a) hrow
        (hs.sound entry row hrow) htype
      exact Or.inr ⟨now, rfl, hfull, hlen⟩
    | b => exact absurd his (hagree.requests request hrequest)
  | periodic hsent => exact absurd hdata ((RemoteAgent.mem_sent_periodic hsent _).1 _ _)

/-- What is under way after a step was so before, or is a row of the table that has been asked
for, or has just been written by `a`'s application. -/
theorem underWay_step (hs : s.RowsSound cfg) (hagree : s.Agreeing cfg)
    (h : s.step fresh stack cfg action = some t) {entry : UInt32} {row : MemoryRow}
    {data : List UInt8} (hrow : s.row? cfg entry = some row) (htype : row.type ≠ .emptyType)
    (hdata : t.UnderWay cfg entry data) :
    s.UnderWay cfg entry data ∨
      (∃ now, action = .receive .a now ∧ row.full = data ∧ data.length < 2 ^ 31) ∨
      ∃ call, action = .write .a (cfg.table .a) entry call ∧ data = call.payload ∧
        (row.writeBytes fresh call).raised.isSome := by
  obtain ⟨side, hdelta⟩ := exists_delta h
  rcases hdata with ⟨side', hchange⟩ | ⟨side', msg, hmsg, hdata⟩
  · by_cases hside : side' = side
    · subst hside
      rcases hdelta.changes _ hchange with hold | hraised
      · exact Or.inl (Or.inl ⟨side', hold⟩)
      · exact (underWay_of_raised hagree h hrow hraised).imp_right Or.inr
    · have hother : side' = side.other := by cases side <;> cases side' <;> trivial
      subst hother
      rw [hdelta.peer_eq] at hchange
      exact Or.inl (Or.inl ⟨_, hchange⟩)
  · by_cases hside : side' = side
    · subst hside
      rcases hdelta.channel msg hmsg with hold | hsent
      · exact Or.inl (Or.inr ⟨side', msg, hold, hdata⟩)
      · exact (underWay_of_sent hs hagree hrow htype hsent hdata).imp_right Or.inl
    · have hother : side' = side.other := by cases side <;> cases side' <;> trivial
      subst hother
      exact Or.inl (Or.inr ⟨_, msg, hdelta.channel_eq msg hmsg, hdata⟩)

/-- A value that is received for a row of the table is under way. -/
theorem underWay_of_receiveValue (hagree : s.Agreeing cfg) {msg : List UInt8}
    {v : ReceivedValue} (hmsg : (s.channel .b).head? = some msg)
    (hv : (s.peer .a).agent.receiveValue msg = .ok (some v))
    (hmem : (v.table, v.entry) ∈ (s.peer .a).agent.rowReceived fresh msg)
    (htable : v.table = cfg.table .a) : s.UnderWay cfg v.entry v.data := by
  obtain ⟨externalId, hid, hdata⟩ := RemoteAgent.isData_of_receiveValue hv hmem
  have heq := RemoteAgent.tableOf_inj (hid.trans (congrArg some htable))
    (hagree.shares.tableOf_eq .a)
  exact Or.inr ⟨.b, msg, List.mem_of_mem_head? hmsg, heq ▸ hdata⟩

/-- A row of the table after a step: as before, unless `a`'s application has written it. -/
theorem full_step (hs : s.RowsSound cfg) (hagree : s.Agreeing cfg)
    (h : s.step fresh stack cfg action = some t) {entry : UInt32} {row' : MemoryRow}
    (hrow' : t.row? cfg entry = some row') :
    ∃ row, s.row? cfg entry = some row ∧ row'.type = row.type ∧ row'.dataSize = row.dataSize ∧
      ((row.type ≠ .emptyType → row'.full = row.full) ∧
          (∀ call, action ≠ .write .a (cfg.table .a) entry call) ∨
        ∃ call, action = .write .a (cfg.table .a) entry call ∧
          row' = (row.writeBytes fresh call).row) := by
  cases rowStep h with
  | frame hrows _ _ hne =>
    exact ⟨row', hrows ▸ hrow', rfl, rfl, Or.inl ⟨fun _ => rfl, fun call => hne entry call⟩⟩
  | @write entry' row call hrow hrows _ =>
    rw [hrows] at hrow'
    by_cases he : entry = entry'
    · subst he
      rw [Function.update_self, Option.some.injEq] at hrow'
      subst hrow'
      exact ⟨row, hrow, (MemoryRow.frame_writeBytes fresh row call).1,
        MemoryRow.dataSize_writeBytes fresh row call, Or.inr ⟨call, rfl, rfl⟩⟩
    · rw [Function.update_of_ne he] at hrow'
      refine ⟨row', hrow', rfl, rfl, Or.inl ⟨fun _ => rfl, fun call' heq => ?_⟩⟩
      injection heq with _ _ heq
      exact he heq.symm
  | @receive now msg v hmsg hv hmem htable hrow hrows _ =>
    rw [hrows] at hrow'
    by_cases he : entry = v.entry
    · subst he
      rw [Function.update_self, Option.some.injEq] at hrow'
      subst hrow'
      refine ⟨v.row, hrow, (MemoryRow.frame_writeBytes fresh v.row _).1,
        MemoryRow.dataSize_writeBytes fresh v.row _, Or.inl ⟨fun htype => ?_, by simp⟩⟩
      have hunder := underWay_of_receiveValue hagree hmsg hv hmem htable
      rw [((hs.sound _ _ hrow).writeBytes fresh _).2 htype]
      split_ifs
      · exact (hagree.agree _ _ _ hrow htype hunder).1
      · rfl
    · rw [Function.update_of_ne he] at hrow'
      exact ⟨row', hrow', rfl, rfl, Or.inl ⟨fun _ => rfl, by simp⟩⟩

theorem padded_full (row : MemoryRow) : padded row.dataSize row.full = row.full := by
  have hlen : row.full.length = row.dataSize := by
    rw [MemoryRow.full, padded, List.length_take, List.length_append, List.length_replicate]
    omega
  rw [padded, List.take_append_of_le_length (le_of_eq hlen.symm),
    List.take_of_length_le (le_of_eq hlen)]

/-- A quiet step keeps what is under way in agreement with the rows. -/
theorem agreeing_step (hs : s.RowsSound cfg) (hagree : s.Agreeing cfg)
    (hquiet : s.Quiet cfg action) (h : s.step fresh stack cfg action = some t) :
    t.Agreeing cfg where
  shares := by
    obtain ⟨side, hdelta⟩ := exists_delta h
    exact hagree.shares.of_sameIds hdelta.sameIds_peer
  small entry row' hrow' := by
    obtain ⟨row, hrow, -, hsize, -⟩ := full_step hs hagree h hrow'
    exact hsize ▸ hagree.small entry row hrow
  agree entry row' data hrow' htype hdata := by
    obtain ⟨row, hrow, htype', hsize, hfull⟩ := full_step hs hagree h hrow'
    rw [htype'] at htype
    rw [hsize]
    have hcases := underWay_step hs hagree h hrow htype hdata
    rcases hfull with ⟨hfull, hne⟩ | ⟨call, rfl, rfl⟩
    · rw [hfull htype]
      rcases hcases with hold | ⟨now, -, rfl, hlen⟩ | ⟨call, hact, -, -⟩
      · exact hagree.agree entry row data hrow htype hold
      · exact ⟨padded_full row, hlen⟩
      · exact absurd hact (hne call)
    · -- a value that was under way before the write is excluded
      rcases hcases with hold | ⟨now, hact, -, -⟩ | ⟨call', hact, rfl, hraised⟩
      · exact absurd hold (hquiet rfl data)
      · exact absurd hact (by simp)
      · injection hact with _ _ _ hcall
        subst hcall
        have hacc : call.Accepted row.dataSize row.writePriority := by
          by_contra hacc
          rw [(MemoryRow.writeBytes_of_not_accepted fresh call htype hacc).2] at hraised
          exact absurd hraised (by simp)
        rw [((hs.sound entry row hrow).writeBytes fresh call).2 htype, if_pos hacc,
          WriteCall.payload_length hacc.1]
        exact ⟨rfl, lt_of_le_of_lt hacc.2.2.1 (hagree.small entry row hrow)⟩
  requests msg hmsg := by
    obtain ⟨side, hdelta⟩ := exists_delta h
    cases side with
    | b => exact hagree.requests msg (hdelta.channel_eq msg hmsg)
    | a =>
      rcases hdelta.channel msg hmsg with hold | hsent
      · exact hagree.requests msg hold
      · cases hsent with
        | @change c hc hsent => exact RemoteAgent.not_isRequest_onRowChange hsent _
        | answer hrequest his hsent =>
          exact RemoteAgent.not_isRequest_of_handleRegisterDB hsent _
        | periodic hsent =>
          intro his
          obtain ⟨table, himp⟩ := (RemoteAgent.mem_sent_periodic hsent _).2 his
          exact hagree.shares.not_imported table himp

/-- What agrees with a row changes nothing when it is written to it. -/
theorem Agreeing.noOverwrite (hs : s.RowsSound cfg) (hagree : s.Agreeing cfg)
    (hP : s.Owned cfg) (action : PairAction) : s.NoOverwrite fresh cfg action := by
  cases action with
  | receive side now =>
    cases side with
    | a =>
      intro msg hmsg v hv hmem htable _ w hw
      have hrow := (RemoteAgent.receiveValue_found hv).2
      rw [htable] at hrow
      obtain ⟨hfull, htype⟩ := hs.full_of_written hP hrow hw
      have hunder := underWay_of_receiveValue hagree hmsg hv hmem htable
      rw [(hagree.agree _ _ _ hrow htype hunder).1, hfull]
    | b => trivial
  | write => trivial
  | raise => trivial
  | send => trivial
  | tick => trivial

/-! ### Runs -/

/-- Nothing is under way. -/
theorem not_underWay (hchanges : (s.peer .a).changes = [] ∧ (s.peer .b).changes = [])
    (hchannel : s.channel .a = [] ∧ s.channel .b = []) {entry : UInt32} (data : List UInt8) :
    ¬s.UnderWay cfg entry data := by
  rintro (⟨side, hmem⟩ | ⟨side, msg, hmem, -⟩)
  · cases side with
    | a => exact absurd (hchanges.1 ▸ hmem) List.not_mem_nil
    | b => exact absurd (hchanges.2 ▸ hmem) List.not_mem_nil
  · cases side with
    | a => exact absurd (hchannel.1 ▸ hmem) List.not_mem_nil
    | b => exact absurd (hchannel.2 ▸ hmem) List.not_mem_nil

/-- Two agents whose table is shared, when they have just been started. -/
theorem agreeing_init {agent : Side → RemoteAgent} (hshares : Shares cfg agent)
    (hsmall : ∀ entry row, (agent .a).dataset.row? (cfg.table .a) entry = some row →
      row.dataSize < 2 ^ 31) : (init agent).Agreeing cfg where
  shares := hshares.of_sameIds fun side => RemoteAgent.sameIds_start (agent side)
  small := hsmall
  agree _ _ data _ _ hdata :=
    absurd hdata (not_underWay ⟨rfl, rfl⟩ ⟨rfl, rfl⟩ data)
  requests _ hmem := absurd hmem List.not_mem_nil

/-- **When the exporter owns its rows.** In a run of two agents that have just been started,
the rows of the exported table hold what `a`'s application has written last in every state
precisely if no message that `a` writes to a row it has written carries another value. This
is so, when the table is the one of its external id at both agents, if `a`'s application
writes a row only while no value of the row is under way. -/
theorem owned_iff (fresh : ℕ → ℕ → UInt8) (stack : List UInt8) (cfg : SharedTable)
    (agent : Side → RemoteAgent)
    (hsound : ∀ entry row, (agent .a).dataset.row? (cfg.table .a) entry = some row → row.Sound)
    (l : List PairAction) :
    (Always (step fresh stack cfg) (Owned cfg) (init agent) l ↔
        Guarded (step fresh stack cfg) (NoOverwrite fresh cfg) (init agent) l) ∧
      (Shares cfg agent →
        (∀ entry row, (agent .a).dataset.row? (cfg.table .a) entry = some row →
          row.dataSize < 2 ^ 31) →
        Guarded (step fresh stack cfg) (Quiet cfg) (init agent) l →
        Always (step fresh stack cfg) (Owned cfg) (init agent) l) := by
  have hwritten (entry : UInt32) (v : List UInt8) : (init agent).written entry ≠ some v := by
    simp [init]
  have hrows : (init agent).RowsSound cfg :=
    ⟨hsound, fun entry v hv => absurd hv (hwritten entry v)⟩
  have howned : (init agent).Owned cfg := fun entry v hv => absurd hv (hwritten entry v)
  have hiff : Always (step fresh stack cfg) (Owned cfg) (init agent) l ↔
      Guarded (step fresh stack cfg) (NoOverwrite fresh cfg) (init agent) l :=
    always_iff_guarded l (fun s e t hs h => rowsSound_step hs h)
      (fun s e t hs hP h => owned_step_iff hs hP h) hrows howned
  refine ⟨hiff, fun hshares hsmall hquiet => hiff.mpr ?_⟩
  -- agreement is what a quiet run keeps besides
  refine hquiet.imp (J := fun s => s.RowsSound cfg ∧ s.Agreeing cfg ∧ s.Owned cfg) ?_ ?_
    ⟨hrows, agreeing_init hshares hsmall, howned⟩
  · rintro s e t ⟨hs, hagree, hP⟩ hq h
    exact ⟨rowsSound_step hs h, agreeing_step hs hagree hq h,
      (owned_step_iff hs hP h).mpr (hagree.noOverwrite hs hP e)⟩
  · rintro s e ⟨hs, hagree, hP⟩ _
    exact hagree.noOverwrite hs hP e

/-- A table of one row of four bytes, shared under the external id `7`. -/
def sharedRow : SharedTable := ⟨fun _ => 1, 7⟩

/-- Its agents. -/
def sharingAgents : Side → RemoteAgent
  | .a => RemoteAgent.single .exported 4
  | .b => RemoteAgent.single .imported 4

/-- A write of one byte to its row. -/
def writeByte (x : UInt8) : PairAction :=
  .write .a 1 0 ⟨some [x], 1, false, 0, fun _ h => by cases h; rfl⟩

/-- The first value comes back from `b` when the second has been written. -/
theorem first_value_returns :
    ∃ t, run (step (fun _ _ => 0) [] sharedRow) (init sharingAgents)
        [writeByte 1, .raise .a 0, .send .a, .receive .b 0, .raise .b 0, .send .b, writeByte 2,
          .receive .a 0] = some t ∧
      t.written 0 = some [2] ∧ (t.row? sharedRow 0).map MemoryRow.full = some [1, 0, 0, 0] ∧
      ¬t.Owned sharedRow := by
  refine ⟨_, rfl, rfl, rfl, fun h => ?_⟩
  obtain ⟨row, hrow, hfull⟩ := h 0 [2] rfl
  have hfulls := congrArg (Option.map fun r => (r.full, padded r.dataSize [2])) hrow
  have hne : some ([1, 0, 0, 0], [2, 0, 0, 0]) = some (row.full, padded row.dataSize [2]) := hfulls
  rw [hfull, Option.some.injEq, Prod.mk.injEq] at hne
  exact absurd (hne.1.trans hne.2.symm) (by decide)

theorem shares_sharedRow : Shares sharedRow sharingAgents where
  tableOf_eq side := by cases side <;> rfl
  eq_table side table h := by
    by_contra hne
    have hnone : (sharingAgents side).sentId table = none := by
      have hkey : ¬(1 = table) := fun h => hne h.symm
      cases side <;>
        simp [RemoteAgent.sentId, RemoteAgent.findInfo, sharingAgents, RemoteAgent.single, hkey]
    rw [hnone] at h
    exact absurd h (by simp)
  not_imported table h := by
    have hnone : (sharingAgents .a).importedId table = none := by
      by_cases hkey : 1 = table <;>
        simp [RemoteAgent.importedId, RemoteAgent.findInfo, sharingAgents, RemoteAgent.single, hkey]
    rw [hnone] at h
    exact absurd h (by simp)

/-- It comes back before the second is written. -/
theorem owned_second :
    Always (step (fun _ _ => 0) [] sharedRow) (Owned sharedRow) (init sharingAgents)
      [writeByte 1, .raise .a 0, .send .a, .receive .b 0, .raise .b 0, .send .b, .receive .a 0,
        writeByte 2] := by
  have hrow {entry : UInt32} {row : MemoryRow}
      (h : (sharingAgents .a).dataset.row? (sharedRow.table .a) entry = some row) :
      row = MemoryRow.construct 4 true .buffer := by
    have hrow : (sharingAgents .a).dataset.row? 1 entry =
        if 0 = entry then some (MemoryRow.construct 4 true .buffer) else none := by
      by_cases hentry : 0 = entry <;>
        simp [sharingAgents, RemoteAgent.single, DataSet.row?, DataSet.tryGet,
          DataTable.queryRow, hentry]
    rw [show sharedRow.table .a = 1 from rfl, hrow] at h
    split_ifs at h
    exact (Option.some.inj h).symm
  refine (owned_iff (fun _ _ => 0) [] sharedRow sharingAgents (fun entry row h => ?_) _).2
    shares_sharedRow (fun entry row h => ?_) ?_
  · rw [hrow h]
    exact fun _ => ⟨[], RemoteAgent.represents_construct (by decide) (by decide)⟩
  · rw [hrow h]
    decide
  · refine Guarded.cons rfl (fun _ => not_underWay (by decide) (by decide)) ?_
    iterate 6 refine Guarded.cons rfl trivial ?_
    exact Guarded.cons rfl (fun _ => not_underWay (by decide) (by decide)) trivial

end RemotePair

end UtilityFramework
