import Mathlib.Data.List.Forall2
import UtilityFramework.Lib.Transition
import UtilityFramework.Monitor.SingleRow

/-!
# Updates of rows through the monitor

`SendSingleData` computes its length field in two ways: until a keep-alive has told the client
that the monitor is of version 2, the field is the size of the data alone. The channel of the
monitor then takes a part of the message for the whole. A size that does not fit is printed,
and copied all the same.
-/

namespace UtilityFramework

open Bytes Memory Transition

/-! ### The system -/

/-- The data of a row that the application sends. -/
structure UpdateCall where
  table : UInt32
  row : UInt32
  data : List UInt8

/-- A client with the calls of its application, the messages it has sent, and whether it has
left `m_dataQueryBuffer`. -/
structure UpdateState where
  client : MonitorClient
  calls : List UpdateCall
  sent : List (List UInt8)
  overflowed : Bool

/-- The application sends the data of a row, or a keep-alive of the monitor is received. -/
inductive UpdateEvent
  | sendSingleData (call : UpdateCall)
  | keepAlive (now : UInt32)

namespace UpdateState

/-- One event. -/
def step (fresh : ℕ → ℕ → UInt8) (beyond : ℕ → UInt8) (s : UpdateState) :
    UpdateEvent → Option UpdateState
  | .sendSingleData call =>
    let r := s.client.sendSingleData call.table call.row call.data
    some ⟨r.client, s.calls ++ [call], s.sent ++ r.sent,
      s.overflowed || decide (r.failure = some .overflow)⟩
  | .keepAlive now =>
    let r := s.client.messageClientHandler fresh now (.on beyond Monitor.keepAliveMsg)
    some ⟨r.client, s.calls, s.sent ++ r.sent, s.overflowed⟩

/-- A client that has sent nothing. -/
def init (client : MonitorClient) : UpdateState := ⟨client, [], [], false⟩

end UpdateState

/-- A message makes a monitor that has the row write exactly the data to it, with the highest
priority. -/
def UpdateCall.WrittenBy (msg : List UInt8) (call : UpdateCall) : Prop :=
  ∀ (fresh : ℕ → ℕ → UInt8) (m : Monitor) (query : List UInt8) (now : UInt32)
    (reader : DataReader) (row : MemoryRow),
    reader.Holds msg → m.row? call.table call.row = some row →
      let w := row.writeBytes fresh (.forced call.data highestPriority)
      m.messageHandler fresh query now reader =
        some (if w.result then ⟨m.setRow call.table call.row w.row, [], none⟩
          else ⟨m, [], some .thrown⟩)

namespace UpdateState

/-- The client has stayed inside its buffer, the channel of the monitor cuts what it has sent
into its messages, and each makes the monitor write the data of its call. -/
structure Agrees (s : UpdateState) : Prop where
  inside : s.overflowed = false
  aligned : ∀ buffers : List (ℕ → UInt8), buffers.length = s.sent.length →
    monitorFrame.create.recieves streamPort buffers s.sent.flatten = some (s.sent, [])
  written : List.Forall₂ UpdateCall.WrittenBy s.sent s.calls

/-- The condition on an event: the client has learnt of version 2, and the data fit its buffer
behind the header. -/
def Ready (s : UpdateState) : UpdateEvent → Prop
  | .sendSingleData call => 1 < s.client.monitorVersion ∧
      DeToMonitorDataMsgEx.size + call.data.length ≤ monitorMaxDataSize
  | .keepAlive _ => True

/-- The part of the condition that does not depend on the client. -/
def Fits : UpdateEvent → Prop
  | .sendSingleData call => DeToMonitorDataMsgEx.size + call.data.length ≤ monitorMaxDataSize
  | .keepAlive _ => True

end UpdateState

/-! ### The messages of updates -/

/-- The header of an update with this length field. -/
def updateHeader (shLength : UInt16) (call : UpdateCall) : DeToMonitorDataMsgEx :=
  ⟨shLength, FromMonitorOpcode.updateDataEx.value, call.table, call.row⟩

section Messages

variable {call : UpdateCall}

theorem length_updateMsg (shLength : UInt16) (call : UpdateCall) :
    ((updateHeader shLength call).bytes ++ call.data).length =
      DeToMonitorDataMsgEx.size + call.data.length := by
  rw [List.length_append, DeToMonitorDataMsgEx.length_bytes]

/-- The length field of an update, as the channel of the monitor reads it. -/
theorem lengthField_updateMsg (shLength : UInt16) (call : UpdateCall) (n : ℕ) (hn : 2 ≤ n) :
    monitorFrame.lengthField (((updateHeader shLength call).bytes ++ call.data).take n) =
      shLength.toNat := by
  have hslice : slice (((updateHeader shLength call).bytes ++ call.data).take n) 0 2 =
      toLE 2 shLength.toNat := by
    rw [slice_zero_left, List.take_take, Nat.min_eq_left hn]
    rfl
  show ofLE (slice (((updateHeader shLength call).bytes ++ call.data).take n) 0 2) = _
  rw [hslice, ofLE_toLE]
  have := shLength.toNat_lt
  omega

/-- As many bytes of an update as its length field says, and the two of the field, are a
frame. -/
theorem wellFormed_take_updateMsg (shLength : UInt16) (call : UpdateCall)
    (hle : 2 + shLength.toNat ≤ DeToMonitorDataMsgEx.size + call.data.length)
    (hmax : 2 + shLength.toNat ≤ monitorMaxDataSize) :
    monitorFrame.WellFormed
      (((updateHeader shLength call).bytes ++ call.data).take (2 + shLength.toNat)) := by
  have hmax' : monitorMaxDataSize = 32767 := rfl
  have hlen : (((updateHeader shLength call).bytes ++ call.data).take
      (2 + shLength.toNat)).length = 2 + shLength.toNat := by
    rw [List.length_take, length_updateMsg, Nat.min_eq_left hle]
  have hfield := lengthField_updateMsg shLength call (2 + shLength.toNat) (by omega)
  refine ⟨?_, ?_, ?_⟩
  · show 2 ≤ _
    omega
  · rw [hfield, hlen, FrameFormat.total]
    by_cases hzero : shLength.toNat = 0
    · rw [if_pos hzero, hzero]
      rfl
    · rw [if_neg hzero, if_neg (by decide)]
      rfl
  · show _ ≤ 32767
    omega

/-- The length field that counts the header: the whole message is a frame. -/
theorem wellFormed_updateMsg {shLength : UInt16} {call : UpdateCall}
    (hfit : DeToMonitorDataMsgEx.size + call.data.length ≤ monitorMaxDataSize)
    (hfield : shLength.toNat = call.data.length + 9) :
    monitorFrame.WellFormed ((updateHeader shLength call).bytes ++ call.data) := by
  have hheader : DeToMonitorDataMsgEx.size = 11 := rfl
  have hlen := length_updateMsg shLength call
  have htake := wellFormed_take_updateMsg shLength call (by omega) (by omega)
  rwa [List.take_of_length_le (by omega)] at htake

/-- The monitor writes the data of an update whose length field counts the header. -/
theorem writtenBy_updateMsg {shLength : UInt16} {call : UpdateCall}
    (hfit : DeToMonitorDataMsgEx.size + call.data.length ≤ monitorMaxDataSize)
    (hfield : shLength.toNat = call.data.length + 9) :
    call.WrittenBy ((updateHeader shLength call).bytes ++ call.data) := by
  intro fresh m query now reader row hreader hrow
  have hheader : DeToMonitorDataMsgEx.size = 11 := rfl
  have hmax : monitorMaxDataSize = 32767 := rfl
  have hsize := hreader.size_eq
  rw [length_updateMsg] at hsize
  have hcall := hreader.writeCall highestPriority
  rw [DeToMonitorDataMsgEx.length_bytes] at hcall
  have hlength : Size.sub (Size.ofInt16 shLength.toNat) 9 = call.data.length := by
    rw [hfield, Size.ofInt16_of_lt (by omega),
      Size.sub_of_le (by omega) (by rw [Size.modulus]; omega), Nat.add_sub_cancel]
  have hupdate : Monitor.updateCall reader (updateHeader shLength call).shLength =
      .forced call.data highestPriority := by
    rw [updateHeader, Monitor.updateCall, hlength, hcall]
  have hrow' : m.row? (updateHeader shLength call).unTable (updateHeader shLength call).unRow =
      some row := hrow
  rw [Monitor.messageHandler_eq hreader .updateDataEx rfl (by decide), Monitor.handle]
  simp only [Monitor.updateDebugValue, hrow', hupdate, Bool.false_eq_true, if_false]
  rfl

/-- What the client sends, as long as it stays inside its buffer. -/
theorem sendSingleData_of_le (c : MonitorClient) (call : UpdateCall)
    (hfit : DeToMonitorDataMsgEx.size + call.data.length ≤ monitorMaxDataSize) :
    c.sendSingleData call.table call.row call.data =
      ⟨c, [(updateHeader (if 1 < c.monitorVersion then .ofNat call.data.length + 9
        else .ofNat call.data.length) call).bytes ++ call.data], none⟩ := by
  have hheader : DeToMonitorDataMsgEx.size = 11 := rfl
  simp only [MonitorClient.sendSingleData]
  rw [if_neg (by omega), commSend, if_neg (by
    rw [List.length_append, DeToMonitorDataMsgEx.length_bytes]
    omega)]
  rfl

end Messages

/-! ### Runs -/

namespace UpdateState

variable {fresh : ℕ → ℕ → UInt8} {beyond : ℕ → UInt8} {s t : UpdateState} {e : UpdateEvent}

/-- The messages sent are frames of the monitor's channel. -/
def Framed (s : UpdateState) : Prop := ∀ m ∈ s.sent, monitorFrame.WellFormed m

/-- Frames are cut out of the stream one by one. -/
theorem Framed.aligned (h : s.Framed) (buffers : List (ℕ → UInt8))
    (hbuf : buffers.length = s.sent.length) :
    monitorFrame.create.recieves streamPort buffers s.sent.flatten = some (s.sent, []) := by
  have hcut := FrameFormat.recieves_append monitorFrame (by decide) s.sent h [] buffers hbuf []
  rwa [List.append_nil, List.append_nil, VariableLengthProtocol.recieves, Option.map_some,
    List.append_nil] at hcut

/-- A message behind frames that begins with a shorter frame is not cut out. -/
theorem not_aligned_of_take {frames : List (List UInt8)}
    (hframes : ∀ m ∈ frames, monitorFrame.WellFormed m) {msg : List UInt8} {n : ℕ}
    (htake : monitorFrame.WellFormed (msg.take n)) (hn : n < msg.length) :
    ¬∀ buffers : List (ℕ → UInt8), buffers.length = (frames ++ [msg]).length →
      monitorFrame.create.recieves streamPort buffers (frames ++ [msg]).flatten =
        some (frames ++ [msg], []) := by
  intro h
  have hlen : (msg.take n).length = n := by
    rw [List.length_take]
    omega
  have hcut := h (List.replicate frames.length (fun _ => 0) ++ [fun _ => 0]) (by simp)
  obtain ⟨hret, hload, hport⟩ := htake.recieve (by decide) (fun _ => 0) (msg.drop n)
  rw [List.flatten_append, List.flatten_singleton,
    FrameFormat.recieves_append monitorFrame (by decide) frames hframes msg _ (by simp),
    ← List.take_append_drop n msg, VariableLengthProtocol.recieves, hret, Option.bind_some,
    hload, VariableLengthProtocol.recieves, Option.map_some, Option.map_some,
    Option.some.injEq, Prod.mk.injEq, List.append_cancel_left_eq, List.cons.injEq] at hcut
  have hfirst := congrArg List.length hcut.1.1
  rw [List.take_append_drop, hlen] at hfirst
  omega

/-- The length field that the client gives an update. -/
def field (s : UpdateState) (call : UpdateCall) : UInt16 :=
  if 1 < s.client.monitorVersion then .ofNat call.data.length + 9 else .ofNat call.data.length

/-- What an event can do. -/
inductive EventStep (s t : UpdateState) : UpdateEvent → Prop
  | keepAlive {now : UInt32}
      (ht : t = { s with
        client := { s.client with monitorVersion := 2, tickGetFromLastArrivedAck := now } }) :
      EventStep s t (.keepAlive now)
  | sent {call : UpdateCall}
      (hfit : DeToMonitorDataMsgEx.size + call.data.length ≤ monitorMaxDataSize)
      (ht : t = { s with
        calls := s.calls ++ [call]
        sent := s.sent ++ [(updateHeader (s.field call) call).bytes ++ call.data] }) :
      EventStep s t (.sendSingleData call)
  | overflowed {call : UpdateCall}
      (hfit : monitorMaxDataSize < DeToMonitorDataMsgEx.size + call.data.length)
      (ht : t = { s with calls := s.calls ++ [call], overflowed := true }) :
      EventStep s t (.sendSingleData call)

theorem eventStep (h : s.step fresh beyond e = some t) : EventStep s t e := by
  cases e with
  | keepAlive now =>
    simp only [step, MonitorClient.messageClientHandler_keepAliveMsg, List.append_nil,
      Option.some.injEq] at h
    exact .keepAlive h.symm
  | sendSingleData call =>
    by_cases hfit : DeToMonitorDataMsgEx.size + call.data.length ≤ monitorMaxDataSize
    · simp only [step, sendSingleData_of_le s.client call hfit, Option.some.injEq] at h
      refine .sent hfit ?_
      rw [← h]
      simp [field]
    · have hover : s.client.sendSingleData call.table call.row call.data =
          ⟨s.client, [], some .overflow⟩ := by
        simp only [MonitorClient.sendSingleData]
        rw [if_pos (by omega)]
      simp only [step, hover, List.append_nil, Option.some.injEq] at h
      refine .overflowed (by omega) ?_
      rw [← h]
      simp

/-- The length field of an update that the client is ready for. -/
theorem toNat_field {call : UpdateCall} (hversion : 1 < s.client.monitorVersion)
    (hfit : DeToMonitorDataMsgEx.size + call.data.length ≤ monitorMaxDataSize) :
    (s.field call).toNat = call.data.length + 9 := by
  have hheader : DeToMonitorDataMsgEx.size = 11 := rfl
  have hmax : monitorMaxDataSize = 32767 := rfl
  rw [field, if_pos hversion, UInt16.toNat_add, UInt16.toNat_ofNat']
  show (call.data.length % 2 ^ 16 + 9) % 2 ^ 16 = _
  omega

theorem framed_step (hs : s.Framed) (hok : s.Ready e) (h : s.step fresh beyond e = some t) :
    t.Framed := by
  cases eventStep h with
  | keepAlive ht =>
    subst ht
    exact hs
  | sent hfit ht =>
    subst ht
    intro m hm
    rcases List.mem_append.mp hm with hm | hm
    · exact hs m hm
    · rw [List.mem_singleton] at hm
      exact hm ▸ wellFormed_updateMsg hfit (toNat_field hok.1 hfit)
  | overflowed hfit ht => exact absurd hok.2 (by omega)

/-- While client and monitor agree, an event keeps it so precisely when the client is ready
for it. -/
theorem agrees_step_iff (hs : s.Framed) (hP : s.Agrees) (h : s.step fresh beyond e = some t) :
    t.Agrees ↔ s.Ready e := by
  cases eventStep h with
  | keepAlive ht =>
    subst ht
    exact iff_of_true ⟨hP.inside, hP.aligned, hP.written⟩ trivial
  | overflowed hfit ht =>
    subst ht
    exact iff_of_false (fun ht => absurd ht.inside (by simp)) fun hok => absurd hok.2 (by omega)
  | @sent call hfit ht =>
    by_cases hversion : 1 < s.client.monitorVersion
    · have hok : s.Ready (.sendSingleData call) := ⟨hversion, hfit⟩
      have hframed := framed_step hs hok h
      refine iff_of_true ⟨?_, hframed.aligned, ?_⟩ hok
      · subst ht
        exact hP.inside
      · subst ht
        exact List.rel_append hP.written
          (.cons (writtenBy_updateMsg hfit (toNat_field hversion hfit)) .nil)
    · -- the field counts the data alone, and the frame ends before them
      refine iff_of_false (fun ht' => ?_) fun hok => hversion hok.1
      have hheader : DeToMonitorDataMsgEx.size = 11 := rfl
      have hmax : monitorMaxDataSize = 32767 := rfl
      have hfield : (s.field call).toNat = call.data.length := by
        rw [field, if_neg hversion, UInt16.toNat_ofNat']
        omega
      have hlen := length_updateMsg (s.field call) call
      have hframe := wellFormed_take_updateMsg (s.field call) call (by omega) (by omega)
      have haligned := ht'.aligned
      subst ht
      exact not_aligned_of_take hs hframe (by omega) haligned

/-- A client that knows version 2 is ready for all that fits. -/
theorem guarded_of_fits {l : List UpdateEvent} (hversion : 1 < s.client.monitorVersion)
    (hfits : ∀ e ∈ l, Fits e) : Guarded (step fresh beyond) Ready s l := by
  induction l generalizing s with
  | nil => trivial
  | cons e l ih =>
    intro t h
    have hfits' : ∀ e ∈ l, Fits e := fun e' he' => hfits e' (List.mem_cons_of_mem e he')
    have hfit := hfits e List.mem_cons_self
    cases eventStep h with
    | keepAlive ht =>
      subst ht
      exact ⟨trivial, ih (show (1 : UInt32) < 2 by decide) hfits'⟩
    | sent _ ht =>
      subst ht
      exact ⟨⟨hversion, hfit⟩, ih hversion hfits'⟩
    | overflowed hover ht => exact absurd hfit (by rw [Fits]; omega)

end UpdateState

/-- **When updates arrive.** In every run of a client, whatever its version at the start, it
stays inside its buffer, its messages are cut out of the stream by the channel of the monitor
and each makes the monitor write the data of its call, precisely if each update is sent by a
client of version 2 or more and fits the buffer behind the header. A keep-alive before the
first update is enough for the version. -/
theorem UpdateState.always_agrees_iff (fresh : ℕ → ℕ → UInt8) (beyond : ℕ → UInt8)
    (client : MonitorClient) (l : List UpdateEvent) :
    (Always (UpdateState.step fresh beyond) UpdateState.Agrees (UpdateState.init client) l ↔
        Guarded (UpdateState.step fresh beyond) UpdateState.Ready (UpdateState.init client) l) ∧
      ∀ now, (∀ e ∈ l, UpdateState.Fits e) →
        Always (UpdateState.step fresh beyond) UpdateState.Agrees (UpdateState.init client)
          (.keepAlive now :: l) := by
  have hframed : (UpdateState.init client).Framed := fun m hm => absurd hm List.not_mem_nil
  have hagrees : (UpdateState.init client).Agrees := by
    refine ⟨rfl, fun buffers hbuf => ?_, .nil⟩
    rw [List.length_eq_zero_iff.mp hbuf]
    rfl
  have hiff (l : List UpdateEvent) :
      Always (UpdateState.step fresh beyond) UpdateState.Agrees (UpdateState.init client) l ↔
        Guarded (UpdateState.step fresh beyond) UpdateState.Ready (UpdateState.init client) l :=
    always_iff_guarded_of_ok l
      (fun s e t hs _ hok h => UpdateState.framed_step hs hok h)
      (fun s e t hs hP h => UpdateState.agrees_step_iff hs hP h) hframed hagrees
  refine ⟨hiff l, fun now hfits => (hiff _).mpr fun t ht => ⟨trivial, ?_⟩⟩
  cases UpdateState.eventStep ht with
  | keepAlive ht =>
    subst ht
    exact UpdateState.guarded_of_fits (show (1 : UInt32) < 2 by decide) hfits

/-- A client whose version is `0` before the first keep-alive. -/
def newClient : MonitorClient := { MonitorClient.fourBytes with monitorVersion := 0 }

/-- An update of two bytes. -/
def twoBytes : UpdateCall := ⟨0, 0, [7, 8]⟩

/-- Before the first keep-alive, the channel of the monitor takes four bytes of the update for
the whole of it. -/
theorem update_before_keepAlive :
    ∃ t, run (UpdateState.step (fun _ _ => 0) fun _ => 0) (UpdateState.init newClient)
        [.sendSingleData twoBytes] = some t ∧
      t.sent = [[2, 0, 0x13, 0, 0, 0, 0, 0, 0, 0, 0, 7, 8]] ∧
      monitorFrame.create.recieves streamPort [fun _ => 0] t.sent.flatten =
        some ([[2, 0, 0x13, 0]], [0, 0, 0, 0, 0, 0, 0, 7, 8]) ∧
      ¬t.Agrees := by
  refine ⟨_, rfl, rfl, rfl, fun h => ?_⟩
  have haligned := h.aligned [fun _ => 0] rfl
  revert haligned
  decide

/-- After it, the update arrives. -/
theorem update_after_keepAlive :
    Always (UpdateState.step (fun _ _ => 0) fun _ => 0) UpdateState.Agrees
      (UpdateState.init newClient) [.keepAlive 0, .sendSingleData twoBytes] :=
  (UpdateState.always_agrees_iff (fun _ _ => 0) (fun _ => 0) newClient
    [.sendSingleData twoBytes]).2 0 (by
      intro e he
      rw [List.mem_singleton] at he
      subst he
      exact show 11 + 2 ≤ 32767 by decide)

end UtilityFramework
