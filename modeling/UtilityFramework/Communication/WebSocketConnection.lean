import UtilityFramework.Communication.WebSocketFrames
import UtilityFramework.Lib.Transition

/-!
# The send queue of a WebSocket connection

`websocket_connection::send` puts the frame of a message into the queue of the connection, and
writes it if the queue was empty. When a write has come to its end, its handler takes the
message off the queue, starts to write the next one and calls the callback; when a write has
failed, it calls all callbacks with the error and clears the queue. Once the handlers have been
stopped, a handler does nothing. The mutex of the queue makes each of these one step; a write
goes on in any number of parts.

In every run, however sends, parts of writes and handlers follow one another, each callback is
called once, in the order of the sends, or waits with its message in the queue
(`called_of_run`). If no write has failed, a server that reads what has been written so far
finds messages in the order in which they were sent, all but those in the queue, of which it may
have the first one (`recieved_of_run`).
-/

namespace UtilityFramework

namespace WebSocket

open Transition

/-- `q_out_data`, with the frame whose bytes are in its buffer. -/
structure QOutData where
  frame : ClientFrame
  callback : Option ℕ

/-- The bytes in the buffer. -/
def QOutData.bytes (o : QOutData) : List UInt8 := sendFrame o.frame

/-- `websocket_connection`. A write that is under way has still to write the bytes `writing`.
Recorded are the bytes that have been written, the callbacks that have been called, with whether
this was without an error, and all that has been put into the queue. -/
structure Connection where
  closed : Bool
  sendQueue : List QOutData
  writing : Option (List UInt8)
  stopped : Bool
  written : List UInt8
  called : List (ℕ × Bool)
  accepted : List QOutData

/-- What clients and the socket do. -/
inductive ConnectionStep
  | send (frame : ClientFrame) (callback : Option ℕ)
  | sendClose (status : ℕ) (reason mask : List UInt8) (callback : Option ℕ)
  | write (n : ℕ)
  | wrote
  | failed
  | stop
  deriving DecidableEq

namespace Connection

/-- A connection that has just been made. -/
def start (closed : Bool) : Connection := ⟨closed, [], none, false, [], [], []⟩

/-- `send_from_queue`. -/
def sendFromQueue (s : Connection) : Connection :=
  match s.sendQueue with
  | [] => s
  | o :: _ => { s with writing := some o.bytes }

/-- The end of `send`. -/
def enqueue (s : Connection) (o : QOutData) : Connection :=
  let s := { s with sendQueue := s.sendQueue ++ [o], accepted := s.accepted ++ [o] }
  if s.sendQueue.length = 1 then s.sendFromQueue else s

/-- The payload of a close frame. -/
def closePayload (status : ℕ) (reason : List UInt8) : List UInt8 :=
  UInt8.ofNat (status >>> 8) :: UInt8.ofNat (status % 256) :: reason

/-- The handler of a write that has come to its end. -/
def onWritten (s : Connection) : Connection :=
  let s := { s with writing := none }
  if s.stopped then s
  else
    match s.sendQueue with
    | [] => s
    | o :: queue =>
      let s := { s with sendQueue := queue }.sendFromQueue
      { s with called := s.called ++ o.callback.toList.map fun c => (c, true) }

/-- The handler of a write that has failed. -/
def onFailed (s : Connection) : Connection :=
  let s := { s with writing := none }
  if s.stopped then s
  else
    { s with
      sendQueue := []
      called := s.called ++ (s.sendQueue.filterMap QOutData.callback).map fun c => (c, false) }

/-- One step. -/
def step (s : Connection) : ConnectionStep → Option Connection
  | .send frame callback => if frame.Valid then some (s.enqueue ⟨frame, callback⟩) else none
  | .sendClose status reason mask callback =>
    let frame : ClientFrame := ⟨136, mask, closePayload status reason⟩
    if frame.Valid then
      some (if s.closed then s else { s with closed := true }.enqueue ⟨frame, callback⟩)
    else none
  | .write n =>
    match s.writing with
    | none => none
    | some bytes =>
      if 0 < n ∧ n ≤ bytes.length then
        some { s with writing := some (bytes.drop n), written := s.written ++ bytes.take n }
      else none
  | .wrote => if s.writing = some [] then some s.onWritten else none
  | .failed => if s.writing.isSome then some s.onFailed else none
  | .stop => some { s with stopped := true }

/-! ### Callbacks -/

/-- Callbacks have been called, or wait in the queue. -/
def Calls (s : Connection) : Prop :=
  s.called.map Prod.fst ++ s.sendQueue.filterMap QOutData.callback =
    s.accepted.filterMap QOutData.callback

/-- What has been written: the messages `done`, and the part `part` of the next one. -/
structure Sending (s : Connection) (done : List QOutData) (part : List UInt8) : Prop where
  accepted_eq : s.accepted = done ++ s.sendQueue
  valid : ∀ o ∈ s.accepted, o.frame.Valid
  written_eq : s.written = done.flatMap QOutData.bytes ++ part
  part_eq : part ++ s.writing.getD [] = s.sendQueue.head?.elim [] QOutData.bytes
  idle : s.writing = none → s.sendQueue = [] ∨ s.stopped = true
  busy : s.writing.isSome → s.sendQueue ≠ []

variable {s t : Connection} {a : ConnectionStep} {o : QOutData} {done : List QOutData}
  {part : List UInt8}

theorem sendFromQueue_eq (s : Connection) :
    s.sendFromQueue = { s with
      writing := (s.sendQueue.head?.map QOutData.bytes).or s.writing } := by
  rcases s with ⟨_, - | ⟨o, queue⟩, _, _, _, _, _⟩ <;> rfl

theorem enqueue_eq (s : Connection) (o : QOutData) :
    s.enqueue o = { s with
      sendQueue := s.sendQueue ++ [o]
      accepted := s.accepted ++ [o]
      writing := if s.sendQueue = [] then some o.bytes else s.writing } := by
  rw [enqueue]
  dsimp only
  by_cases hq : s.sendQueue = []
  · rw [if_pos (by rw [hq]; rfl), sendFromQueue_eq, if_pos hq, hq]
    rfl
  · have hpos := List.length_pos_iff.mpr hq
    rw [if_neg (by rw [List.length_append, List.length_singleton]; omega), if_neg hq]

theorem onWritten_of_not_stopped (hstopped : s.stopped = false) {queue : List QOutData}
    (hq : s.sendQueue = o :: queue) :
    s.onWritten = { s with
      sendQueue := queue
      writing := queue.head?.map QOutData.bytes
      called := s.called ++ o.callback.toList.map fun c => (c, true) } := by
  rw [onWritten, hq]
  simp only [hstopped, Bool.false_eq_true, if_false, sendFromQueue_eq, Option.or_none]

theorem Calls.enqueue (h : s.Calls) (o : QOutData) : (s.enqueue o).Calls := by
  rw [enqueue_eq, Calls, List.filterMap_append, List.filterMap_append, ← h, List.append_assoc]

theorem Calls.onWritten (h : s.Calls) : s.onWritten.Calls := by
  cases hstopped : s.stopped with
  | true =>
    rw [Connection.onWritten]
    dsimp only
    rw [if_pos hstopped]
    exact h
  | false =>
    cases hq : s.sendQueue with
    | nil =>
      simp only [Connection.onWritten, hstopped, Bool.false_eq_true, if_false, hq]
      rwa [Calls, hq] at h
    | cons o queue =>
      rw [onWritten_of_not_stopped hstopped hq, Calls, ← h, hq, List.map_append, List.map_map,
        List.append_assoc]
      congr 1
      cases hc : o.callback with
      | none => simp [hc]
      | some c => simp [hc]

theorem Calls.onFailed (h : s.Calls) : s.onFailed.Calls := by
  rw [Connection.onFailed]
  dsimp only
  split_ifs
  · exact h
  · rw [Calls, ← h, List.filterMap_nil, List.append_nil, List.map_append, List.map_map]
    simp [Function.comp_def]

theorem Calls.step (h : s.Calls) (ht : s.step a = some t) : t.Calls := by
  cases a with
  | send frame callback =>
    rw [Connection.step] at ht
    split_ifs at ht
    exact Option.some.inj ht ▸ h.enqueue _
  | sendClose status reason mask callback =>
    rw [Connection.step] at ht
    split_ifs at ht
    · exact Option.some.inj ht ▸ h
    · exact Option.some.inj ht ▸ Calls.enqueue (s := { s with closed := true }) h _
  | write n =>
    rw [Connection.step] at ht
    split at ht
    · cases ht
    · split_ifs at ht
      exact Option.some.inj ht ▸ h
  | wrote =>
    rw [Connection.step] at ht
    split_ifs at ht
    exact Option.some.inj ht ▸ h.onWritten
  | failed =>
    rw [Connection.step] at ht
    split_ifs at ht
    exact Option.some.inj ht ▸ h.onFailed
  | stop => exact Option.some.inj ht ▸ h

/-- **Every callback is called once**, in the order of the sends, or waits with its message. -/
theorem called_of_run {closed : Bool} {l : List ConnectionStep}
    (h : run step (start closed) l = some s) :
    s.called.map Prod.fst ++ s.sendQueue.filterMap QOutData.callback =
      s.accepted.filterMap QOutData.callback :=
  run_invariant (J := Calls) h (fun _ _ _ hs ht => hs.step ht) rfl

/-! ### What has been written -/

theorem Sending.enqueue (h : s.Sending done part) (ho : o.frame.Valid) :
    (s.enqueue o).Sending done part := by
  rw [enqueue_eq]
  have hvalid : ∀ o' ∈ s.accepted ++ [o], o'.frame.Valid :=
    List.forall_mem_append.mpr ⟨h.valid, List.forall_mem_singleton.mpr ho⟩
  have haccepted : s.accepted ++ [o] = done ++ (s.sendQueue ++ [o]) := by
    rw [h.accepted_eq, List.append_assoc]
  by_cases hq : s.sendQueue = []
  · have hpart := h.part_eq
    rw [hq, List.head?_nil, Option.elim_none, List.append_eq_nil_iff] at hpart
    refine ⟨haccepted, hvalid, h.written_eq, ?_, fun hw => ?_, fun _ => by simp⟩
    · dsimp only
      rw [if_pos hq, hpart.1, hq]
      rfl
    · rw [if_pos hq] at hw
      cases hw
  · refine ⟨haccepted, hvalid, h.written_eq, ?_, fun hw => ?_, fun _ => by simp⟩
    · dsimp only
      rw [if_neg hq, h.part_eq, List.head?_append_of_ne_nil _ hq]
    · rw [if_neg hq] at hw
      exact .inr ((h.idle hw).resolve_left hq)

theorem Sending.write {bytes : List UInt8} (h : s.Sending done part)
    (hw : s.writing = some bytes) (n : ℕ) :
    Sending { s with writing := some (bytes.drop n), written := s.written ++ bytes.take n } done
      (part ++ bytes.take n) := by
  refine ⟨h.accepted_eq, h.valid, ?_, ?_, nofun, fun _ => h.busy (hw ▸ rfl)⟩
  · dsimp only
    rw [h.written_eq, List.append_assoc]
  · rw [← h.part_eq, hw, Option.getD_some, Option.getD_some, List.append_assoc,
      List.take_append_drop]

theorem Sending.onWritten (h : s.Sending done part) (hw : s.writing = some []) :
    ∃ done' part', s.onWritten.Sending done' part' := by
  have hpart := h.part_eq
  rw [hw, Option.getD_some, List.append_nil] at hpart
  cases hstopped : s.stopped with
  | true =>
    refine ⟨done, part, ?_⟩
    rw [Connection.onWritten]
    dsimp only
    rw [if_pos hstopped]
    refine ⟨h.accepted_eq, h.valid, h.written_eq, ?_, fun _ => .inr hstopped, nofun⟩
    rw [Option.getD_none, List.append_nil, hpart]
  | false =>
    obtain ⟨o, queue, hq⟩ := List.exists_cons_of_ne_nil (h.busy (hw ▸ rfl))
    rw [onWritten_of_not_stopped hstopped hq]
    rw [hq, List.head?_cons, Option.elim_some] at hpart
    refine ⟨done ++ [o], [], ?_, h.valid, ?_, ?_, fun hw' => ?_, fun hw' hq' => ?_⟩
    · dsimp only
      rw [h.accepted_eq, hq, List.append_assoc, List.singleton_append]
    · dsimp only
      rw [h.written_eq, hpart, List.flatMap_append, List.flatMap_singleton, List.append_nil]
    · dsimp only
      rw [List.nil_append]
      cases queue <;> rfl
    · refine .inl ?_
      rwa [Option.map_eq_none_iff, List.head?_eq_none_iff] at hw'
    · dsimp only at hq' hw'
      rw [hq'] at hw'
      cases hw'

theorem Sending.step (h : s.Sending done part) (hne : a ≠ .failed) (ht : s.step a = some t) :
    ∃ done' part', t.Sending done' part' := by
  cases a with
  | send frame callback =>
    rw [Connection.step] at ht
    split_ifs at ht with hvalid
    exact Option.some.inj ht ▸ ⟨done, part, h.enqueue hvalid⟩
  | sendClose status reason mask callback =>
    rw [Connection.step] at ht
    split_ifs at ht with hvalid
    · exact Option.some.inj ht ▸ ⟨done, part, h⟩
    · have h' : Sending { s with closed := true } done part :=
        ⟨h.accepted_eq, h.valid, h.written_eq, h.part_eq, h.idle, h.busy⟩
      exact Option.some.inj ht ▸ ⟨done, part, h'.enqueue hvalid⟩
  | write n =>
    rw [Connection.step] at ht
    split at ht
    · cases ht
    · next bytes hw =>
      split_ifs at ht
      exact Option.some.inj ht ▸ ⟨done, _, h.write hw n⟩
  | wrote =>
    rw [Connection.step] at ht
    split_ifs at ht with hw
    exact Option.some.inj ht ▸ h.onWritten hw
  | failed => exact absurd rfl hne
  | stop =>
    refine Option.some.inj ht ▸ ⟨done, part, h.accepted_eq, h.valid, h.written_eq, h.part_eq,
      fun _ => .inr rfl, h.busy⟩

theorem exists_sending {closed : Bool} {l : List ConnectionStep}
    (h : run step (start closed) l = some s) (hl : .failed ∉ l) :
    ∃ done part, s.Sending done part := by
  have hg : Guarded step (fun _ a => a ≠ .failed) (start closed) l :=
    Guarded.of_forall (fun _ ha _ => ne_of_mem_of_not_mem ha hl) _
  refine hg.always (J := fun s => ∃ done part, s.Sending done part) ?_ ?_ l s
    (List.prefix_rfl) h
  · rintro s a t ⟨done, part, hs⟩ hne ht
    exact hs.step hne ht
  · exact ⟨[], [], rfl, fun _ h => (nomatch h), rfl, rfl, fun _ => .inl rfl, nofun⟩

/-- **A server reads the messages in the order in which they were sent**, from what has been
written at any time, as long as no write has failed. The messages that it does not find are those
in the queue, but for the first one if this has been written; and once nothing is written any
more it has found all, unless handlers were stopped. -/
theorem recieved_of_run {closed : Bool} {l : List ConnectionStep}
    (h : run step (start closed) l = some s) (hl : .failed ∉ l) :
    clientFraming.readAll s.written <+: s.accepted.map QOutData.frame ∧
    (s.accepted.drop (clientFraming.readAll s.written).length = s.sendQueue ∨
      s.accepted.drop (clientFraming.readAll s.written).length = s.sendQueue.tail) ∧
    (s.writing = none → s.stopped = false →
      clientFraming.readAll s.written = s.accepted.map QOutData.frame) := by
  obtain ⟨done, part, hs⟩ := exists_sending h hl
  have hdone : ∀ f ∈ done.map QOutData.frame, clientFraming.Valid f := by
    rintro f hf
    obtain ⟨o, ho, rfl⟩ := List.mem_map.mp hf
    exact hs.valid o (hs.accepted_eq ▸ List.mem_append_left _ ho)
  have hbytes : done.flatMap QOutData.bytes =
      (done.map QOutData.frame).flatMap clientFraming.encode := by
    rw [List.flatMap_map]
    rfl
  rw [hs.accepted_eq, hs.written_eq, hbytes]
  cases hq : s.sendQueue with
  | nil =>
    have hpart := hs.part_eq
    rw [hq, List.head?_nil, Option.elim_none, List.append_eq_nil_iff] at hpart
    rw [hpart.1, List.append_nil, Framing.readAll_flatMap hdone, List.append_nil]
    refine ⟨List.prefix_rfl, .inl ?_, fun _ _ => rfl⟩
    rw [List.length_map, List.drop_length]
  | cons o queue =>
    have hvalid : clientFraming.Valid o.frame := by
      refine hs.valid o ?_
      rw [hs.accepted_eq, hq]
      exact List.mem_append_right _ List.mem_cons_self
    have hpart : part <+: clientFraming.encode o.frame := by
      have := hs.part_eq
      rw [hq, List.head?_cons, Option.elim_some] at this
      exact ⟨_, this⟩
    rw [Framing.readAll_flatMap_append hdone hvalid hpart, List.map_append, List.map_cons]
    refine ⟨?_, ?_, fun hw hstopped => ?_⟩
    · refine (List.prefix_append_right_inj _).mpr ?_
      split_ifs
      · exact List.prefix_append [o.frame] _
      · exact List.nil_prefix
    · rw [List.length_append, List.length_map, List.drop_length_add_append]
      split_ifs
      -- the first message of the queue has been written, and its handler has not run yet
      · exact .inr rfl
      · exact .inl rfl
    · rcases hs.idle hw with hnil | htrue
      · rw [hq] at hnil
        cases hnil
      · rw [hstopped] at htrue
        cases htrue

/-- Two messages, of which the second one waits while the first one is written. -/
theorem recieved_of_run_two :
    ∃ s, run step (start false) [.send ⟨129, [1, 2, 3, 4], [72, 105]⟩ (some 0),
        .send ⟨129, [5, 6, 7, 8], []⟩ none, .write 3, .write 5, .wrote, .write 2] = some s ∧
      .failed ∉ [ConnectionStep.send ⟨129, [1, 2, 3, 4], [72, 105]⟩ (some 0),
        .send ⟨129, [5, 6, 7, 8], []⟩ none, .write 3, .write 5, .wrote, .write 2] ∧
      clientFraming.readAll s.written <+: s.accepted.map QOutData.frame ∧
      (s.accepted.drop (clientFraming.readAll s.written).length = s.sendQueue ∨
        s.accepted.drop (clientFraming.readAll s.written).length = s.sendQueue.tail) ∧
      (s.writing = none → s.stopped = false →
        clientFraming.readAll s.written = s.accepted.map QOutData.frame) :=
  ⟨_, rfl, by decide, recieved_of_run (l := [.send ⟨129, [1, 2, 3, 4], [72, 105]⟩ (some 0),
    .send ⟨129, [5, 6, 7, 8], []⟩ none, .write 3, .write 5, .wrote, .write 2]) rfl (by decide)⟩

/-- The callbacks of a write that has failed. -/
theorem called_of_run_failed :
    ∃ s, run step (start false) [.send ⟨129, [1, 2, 3, 4], [72, 105]⟩ (some 0),
        .send ⟨129, [5, 6, 7, 8], []⟩ (some 1), .write 3, .failed] = some s ∧
      s.called.map Prod.fst ++ s.sendQueue.filterMap QOutData.callback =
        s.accepted.filterMap QOutData.callback :=
  ⟨_, rfl, called_of_run (l := [.send ⟨129, [1, 2, 3, 4], [72, 105]⟩ (some 0),
    .send ⟨129, [5, 6, 7, 8], []⟩ (some 1), .write 3, .failed]) rfl⟩

end Connection

end WebSocket

end UtilityFramework
