import UtilityFramework.Communication.WebSocketFrames

/-!
# Reading WebSocket messages

`read_message` of the client reads the header of a frame, `read_message_content` its payload; a
message may be cut into several frames, with control frames between them. The bytes go through
the buffer of the message, which may hold bytes already when reading starts: what the server
has sent behind its response to the handshake. The reader is told how many these are, and reads
from the socket only what is missing.

But the number that it passes on to the reading of the payload is the one before the two bytes of
the header were taken, and the one it passes on to the next frame the one before the payload was.
If the bytes behind the response end within a frame, then, bytes are missing. If they are whole
frames, of which the last one has not just one byte as its payload, the client reads what the
server has sent: `readLoop_frames` says that it does with the frames what `deliver` says,
whatever follows them.
-/

namespace UtilityFramework

namespace WebSocket

/-! ### The reader -/

/-- `in_message`: the bytes are those in its buffer, and `failed` is the state of the stream once
a byte has been read that is not there. -/
structure InMessage where
  finRsvOpcode : UInt8
  length : ℕ
  streambuf : List UInt8
  failed : Bool

/-- What the client does with what it reads. -/
inductive ReaderEvent
  | message (text : List UInt8)
  | pong (finRsvOpcode : UInt8) (text : List UInt8)
  | close (status : ℕ) (reason : List UInt8)
  | messageSize
  | error
  deriving DecidableEq

/-- The client and its connection. The bytes that come from the socket until it is closed are
`socket`. -/
structure Reader where
  maxMessageSize : ℕ
  socket : List UInt8
  inMessage : InMessage
  fragmented : Option InMessage
  events : List ReaderEvent

/-- How a frame is read: the next one is read, with what is said about the bytes that are there;
nothing more is read; or a byte that is used was not there. -/
inductive ReadResult
  | next (r : Reader) (numAdditionalBytes : ℕ)
  | stopped (r : Reader)
  | undefined

namespace Reader

/-- The argument of `transfer_exactly`. -/
def missing (numAdditionalBytes needed : ℕ) : ℕ :=
  if numAdditionalBytes > needed then 0 else needed - numAdditionalBytes

/-- `async_read` of `n` bytes into the buffer; `none` if the socket is closed before. -/
def asyncRead (r : Reader) (n : ℕ) : Option Reader :=
  if n ≤ r.socket.length then
    some { r with
      socket := r.socket.drop n
      inMessage := { r.inMessage with
        streambuf := r.inMessage.streambuf ++ r.socket.take n } }
  else none

/-- `read` of `n` bytes from the buffer. -/
def takeBytes (r : Reader) (n : ℕ) : Option (List UInt8 × Reader) :=
  if r.inMessage.failed = false ∧ n ≤ r.inMessage.streambuf.length then
    some (r.inMessage.streambuf.take n,
      { r with inMessage := { r.inMessage with
        streambuf := r.inMessage.streambuf.drop n } })
  else none

/-- The client does something. -/
def emit (r : Reader) (e : ReaderEvent) : Reader := { r with events := r.events ++ [e] }

/-- `get` of `n` bytes; what is not there is read as `EOF`. -/
def getBytes (m : InMessage) (n : ℕ) : List UInt8 :=
  m.streambuf.take n ++ List.replicate (n - m.streambuf.length) 0xff

/-- The message and the next one, once the payload has been read and `numAdditionalBytes` were
there before. -/
def splitMessage (m : InMessage) (numAdditionalBytes : ℕ) : InMessage × InMessage :=
  if 0 < numAdditionalBytes then
    (⟨m.finRsvOpcode, m.length, getBytes m m.length, false⟩,
      { m with
        streambuf := m.streambuf.drop m.length
        failed := m.failed || decide (m.streambuf.length < m.length) })
  else (m, ⟨0, 0, [], false⟩)

/-- The status of a close frame and the bytes behind it. -/
def closeStatus (m : InMessage) : ℕ × List UInt8 :=
  if 2 ≤ m.length then
    let bytes := getBytes m 2
    ((bytes.getD 0 0).toNat * 256 + (bytes.getD 1 0).toNat, m.streambuf.drop 2)
  else (0, m.streambuf)

/-- What is done with a frame that has been read. -/
def handle (r : Reader) (m next : InMessage) (numAdditionalBytes : ℕ) : ReadResult :=
  if m.finRsvOpcode &&& 0x0f = 8 then
    .stopped (r.emit (.close (closeStatus m).1 (closeStatus m).2))
  else if m.finRsvOpcode &&& 0x0f = 9 then
    .next { r.emit (.pong (m.finRsvOpcode + 1) m.streambuf) with inMessage := next }
      numAdditionalBytes
  else if m.finRsvOpcode &&& 0x0f = 10 then .next { r with inMessage := next } numAdditionalBytes
  else if m.finRsvOpcode &&& 0x80 = 0 then
    let fragmented := match r.fragmented with
      | none => { m with finRsvOpcode := m.finRsvOpcode ||| 0x80 }
      | some f => { f with
        length := (f.length + m.length) % 2 ^ 64
        streambuf := f.streambuf ++ m.streambuf }
    .next { r with inMessage := next, fragmented := some fragmented } numAdditionalBytes
  else
    let text := match r.fragmented with
      | none => m.streambuf
      | some f => f.streambuf ++ m.streambuf
    .next { r.emit (.message text) with inMessage := next, fragmented := none } numAdditionalBytes

/-- `read_message_content`. -/
def readMessageContent (r : Reader) (numAdditionalBytes : ℕ) : ReadResult :=
  let fragmentedLength := r.fragmented.elim 0 InMessage.length
  if r.maxMessageSize < (r.inMessage.length + fragmentedLength) % 2 ^ 64 then
    .stopped (r.emit .messageSize)
  else
    let n := missing numAdditionalBytes r.inMessage.length
    match r.asyncRead n with
    | none => .stopped (r.emit .error)
    | some r =>
      let numAdditionalBytes := r.inMessage.streambuf.length - n
      let (m, next) := splitMessage r.inMessage numAdditionalBytes
      r.handle m next numAdditionalBytes

/-- The length that is in `numBytes` bytes behind the header, and then the payload. -/
def readLength (r : Reader) (numBytes numAdditionalBytes : ℕ) : ReadResult :=
  let n := missing numAdditionalBytes numBytes
  match r.asyncRead n with
  | none => .stopped (r.emit .error)
  | some r =>
    let numAdditionalBytes := r.inMessage.streambuf.length - n
    match r.takeBytes numBytes with
    | none => .undefined
    | some (lengthBytes, r) =>
      readMessageContent
        { r with inMessage := { r.inMessage with length := ofLengthBytes lengthBytes } }
        numAdditionalBytes

/-- The reason for which a masked frame closes the connection. -/
def maskedReason : List UInt8 :=
  "message from server masked".toList.map fun c => UInt8.ofNat c.toNat

/-- What is read behind the two bytes of the header, of which `second` is the second one. -/
def readRest (r : Reader) (second : UInt8) (numAdditionalBytes : ℕ) : ReadResult :=
  if 128 ≤ second then .stopped (r.emit (.close 1002 maskedReason))
  else if second = 126 then r.readLength 2 numAdditionalBytes
  else if second = 127 then r.readLength 8 numAdditionalBytes
  else
    readMessageContent { r with inMessage := { r.inMessage with length := second.toNat } }
      numAdditionalBytes

/-- `read_message`. -/
def readMessage (r : Reader) (numAdditionalBytes : ℕ) : ReadResult :=
  let n := missing numAdditionalBytes 2
  match r.asyncRead n with
  | none => .stopped (r.emit .error)
  | some r =>
    if n = 0 ∧ r.inMessage.streambuf.length = 0 then .next r 0
    else
      let numAdditionalBytes := r.inMessage.streambuf.length - n
      match r.takeBytes 2 with
      | none => .undefined
      | some (firstBytes, r) =>
        readRest
          { r with inMessage := { r.inMessage with finRsvOpcode := firstBytes.getD 0 0 } }
          (firstBytes.getD 1 0) numAdditionalBytes

/-- At most `n` frames are read. -/
def readLoop : ℕ → ReadResult → ReadResult
  | n + 1, .next r numAdditionalBytes => readLoop n (r.readMessage numAdditionalBytes)
  | _, result => result

end Reader

/-! ### What the server sends -/

/-- The three forms of a length. -/
inductive LengthForm
  | short
  | medium
  | long
  deriving DecidableEq

/-- A frame of the server. -/
structure ServerFrame where
  finRsvOpcode : UInt8
  form : LengthForm
  payload : List UInt8
  deriving DecidableEq

/-- The lengths that have a form. -/
def LengthForm.bound : LengthForm → ℕ
  | .short => 126
  | .medium => 2 ^ 16
  | .long => 2 ^ 64

/-- The length byte and the bytes behind it. -/
def LengthForm.encode : LengthForm → ℕ → List UInt8
  | .short, length => [UInt8.ofNat length]
  | .medium, length => 126 :: lengthBytes 2 length
  | .long, length => 127 :: lengthBytes 8 length

/-- The bytes of a frame, which is not masked. -/
def ServerFrame.bytes (f : ServerFrame) : List UInt8 :=
  f.finRsvOpcode :: f.form.encode f.payload.length ++ f.payload

/-- The length has its form. -/
def ServerFrame.Valid (f : ServerFrame) : Prop := f.payload.length < f.form.bound

instance (f : ServerFrame) : Decidable f.Valid := inferInstanceAs (Decidable (_ < _))

/-- What is to be done with frames: the events, and whether further frames are read, with the
fragments of a message that is not complete. -/
structure Delivered where
  events : List ReaderEvent
  fragments : Option (List UInt8)
  more : Bool

/-- What is to be done with a frame that is not too big, after fragments. -/
def deliverPayload (fragments : Option (List UInt8)) (f : ServerFrame) : Delivered :=
  let text := fragments.getD [] ++ f.payload
  if f.finRsvOpcode &&& 0x0f = 8 then
    let event := match f.payload with
      | a :: b :: reason => .close (a.toNat * 256 + b.toNat) reason
      | reason => .close 0 reason
    ⟨[event], fragments, false⟩
  else if f.finRsvOpcode &&& 0x0f = 9 then
    ⟨[.pong (f.finRsvOpcode + 1) f.payload], fragments, true⟩
  else if f.finRsvOpcode &&& 0x0f = 10 then ⟨[], fragments, true⟩
  else if f.finRsvOpcode &&& 0x80 = 0 then ⟨[], some text, true⟩
  else ⟨[.message text], none, true⟩

/-- What is to be done with a frame, after fragments. Sizes are `size_t` values. -/
def deliverFrame (maxMessageSize : ℕ) (fragments : Option (List UInt8)) (f : ServerFrame) :
    Delivered :=
  if maxMessageSize < (fragments.getD [] ++ f.payload).length % 2 ^ 64 then
    ⟨[.messageSize], fragments, false⟩
  else deliverPayload fragments f

/-- If further frames are read, what is to be done with them. -/
def Delivered.andThen (first : Delivered) (next : Option (List UInt8) → Delivered) : Delivered :=
  if first.more then
    let rest := next first.fragments
    ⟨first.events ++ rest.events, rest.fragments, rest.more⟩
  else first

/-- What is to be done with frames, after fragments. -/
def deliver (maxMessageSize : ℕ) : Option (List UInt8) → List ServerFrame → Delivered
  | fragments, [] => ⟨[], fragments, true⟩
  | fragments, f :: fs =>
    (deliverFrame maxMessageSize fragments f).andThen fun fragments =>
      deliver maxMessageSize fragments fs

theorem deliver_append (maxMessageSize : ℕ) (fragments : Option (List UInt8))
    (fs gs : List ServerFrame) :
    deliver maxMessageSize fragments (fs ++ gs) =
      (deliver maxMessageSize fragments fs).andThen fun fragments =>
        deliver maxMessageSize fragments gs := by
  induction fs generalizing fragments with
  | nil => simp [deliver, Delivered.andThen]
  | cons f fs ih =>
    rw [List.cons_append, deliver, deliver]
    cases hmore : (deliverFrame maxMessageSize fragments f).more with
    | false => simp [Delivered.andThen, hmore]
    | true =>
      cases hrest : (deliver maxMessageSize
        (deliverFrame maxMessageSize fragments f).fragments fs).more with
      | false => simp [Delivered.andThen, hmore, ih, hrest]
      | true => simp [Delivered.andThen, hmore, ih, hrest]

/-! ### One frame -/

namespace Reader

/-- The client when it has read the response: the bytes behind it are in the buffer. -/
def upgraded (maxMessageSize : ℕ) (streambuf socket : List UInt8) : Reader :=
  ⟨maxMessageSize, socket, ⟨0, 0, streambuf, false⟩, none, []⟩

/-- The fragments that have been read. -/
def Fragments (o : Option InMessage) (fragments : Option (List UInt8)) : Prop :=
  o.map InMessage.streambuf = fragments ∧ ∀ m ∈ o, m.length = m.streambuf.length % 2 ^ 64

/-- The client has done what is to be done, and it goes on, if it does, with the bytes `buf` in
its buffer and `rest` to come. -/
def Follows (result : ReadResult) (r : Reader) (d : Delivered) (buf rest : List UInt8)
    (numAdditionalBytes : ℕ) : Prop :=
  if d.more = true then
    ∃ r', result = .next r' numAdditionalBytes ∧ r'.maxMessageSize = r.maxMessageSize ∧
      r'.socket = rest ∧ r'.inMessage.streambuf = buf ∧ r'.inMessage.failed = false ∧
      Fragments r'.fragmented d.fragments ∧ r'.events = r.events ++ d.events
  else ∃ r', result = .stopped r' ∧ r'.events = r.events ++ d.events

variable {r : Reader} {m next : InMessage} {f : ServerFrame} {fragments : Option (List UInt8)}
  {buf rest : List UInt8} {c : ℕ}

/-- A frame that has been read. -/
structure Holds (m : InMessage) (f : ServerFrame) : Prop where
  finRsvOpcode : m.finRsvOpcode = f.finRsvOpcode
  streambuf : m.streambuf = f.payload
  length : m.length = f.payload.length

theorem closeStatus_of_holds (hm : Holds m f) :
    ReaderEvent.close (closeStatus m).1 (closeStatus m).2 =
      match f.payload with
      | a :: b :: reason => .close (a.toNat * 256 + b.toNat) reason
      | reason => .close 0 reason := by
  rw [closeStatus, hm.length, getBytes, hm.streambuf]
  rcases f.payload with - | ⟨a, - | ⟨b, reason⟩⟩
  · rfl
  · rfl
  · rw [if_pos (by simp)]
    rfl

theorem follows_handle (hm : Holds m f) (hbuf : next.streambuf = buf)
    (hfailed : next.failed = false) (hrest : r.socket = rest)
    (hlt : f.payload.length < 2 ^ 64) (hfr : Fragments r.fragmented fragments) :
    Follows (r.handle m next c) r (deliverPayload fragments f) buf rest c := by
  obtain ⟨hmap, hlen⟩ := hfr
  rw [handle, deliverPayload, hm.finRsvOpcode]
  dsimp only
  by_cases h8 : f.finRsvOpcode &&& 0x0f = 8
  · rw [if_pos h8, if_pos h8]
    exact ⟨_, rfl, congrArg (r.events ++ [·]) (closeStatus_of_holds hm)⟩
  rw [if_neg h8, if_neg h8]
  by_cases h9 : f.finRsvOpcode &&& 0x0f = 9
  · rw [if_pos h9, if_pos h9, hm.streambuf]
    exact ⟨_, rfl, rfl, hrest, hbuf, hfailed, ⟨hmap, hlen⟩, rfl⟩
  rw [if_neg h9, if_neg h9]
  by_cases h10 : f.finRsvOpcode &&& 0x0f = 10
  · rw [if_pos h10, if_pos h10]
    exact ⟨_, rfl, rfl, hrest, hbuf, hfailed, ⟨hmap, hlen⟩, (List.append_nil _).symm⟩
  rw [if_neg h10, if_neg h10]
  by_cases hfin : f.finRsvOpcode &&& 0x80 = 0
  · rw [if_pos hfin, if_pos hfin]
    refine ⟨_, rfl, rfl, hrest, hbuf, hfailed, ?_, (List.append_nil _).symm⟩
    cases hf : r.fragmented with
    | none =>
      rw [hf, Option.map_none] at hmap
      subst hmap
      refine ⟨congrArg some hm.streambuf, ?_⟩
      rintro _ ⟨⟩
      dsimp only
      rw [hm.length, hm.streambuf, Nat.mod_eq_of_lt hlt]
    | some g =>
      rw [hf, Option.map_some] at hmap
      subst hmap
      refine ⟨congrArg (fun l => some (g.streambuf ++ l)) hm.streambuf, ?_⟩
      rintro _ ⟨⟩
      dsimp only
      rw [hlen g hf, hm.length, hm.streambuf, List.length_append, Nat.mod_add_mod]
  · rw [if_neg hfin, if_neg hfin]
    refine ⟨_, rfl, rfl, hrest, hbuf, hfailed, ⟨rfl, nofun⟩, ?_⟩
    cases hf : r.fragmented with
    | none =>
      rw [hf, Option.map_none] at hmap
      subst hmap
      exact congrArg (fun l => r.events ++ [ReaderEvent.message l]) hm.streambuf
    | some g =>
      rw [hf, Option.map_some] at hmap
      subst hmap
      exact congrArg (fun l => r.events ++ [ReaderEvent.message (g.streambuf ++ l)]) hm.streambuf

/-- In the middle of a frame, of which the first byte has been read: what `r` has done is what `r'`
has done before the frame. -/
structure Ready (r r' : Reader) (finRsvOpcode : UInt8) (buf rest : List UInt8) : Prop where
  maxMessageSize : r.maxMessageSize = r'.maxMessageSize
  events : r.events = r'.events
  fragmented : r.fragmented = r'.fragmented
  finRsvOpcode : r.inMessage.finRsvOpcode = finRsvOpcode
  streambuf : r.inMessage.streambuf = buf
  failed : r.inMessage.failed = false
  socket : r.socket = rest

/-- The test of the size. -/
theorem size_eq (hlength : r.inMessage.length = f.payload.length)
    (hfr : Fragments r.fragmented fragments) :
    (r.inMessage.length + r.fragmented.elim 0 InMessage.length) % 2 ^ 64 =
      (fragments.getD [] ++ f.payload).length % 2 ^ 64 := by
  obtain ⟨rfl, hlen⟩ := hfr
  rw [hlength, List.length_append]
  cases hf : r.fragmented with
  | none => simp
  | some g =>
    rw [Option.elim_some, hlen g hf, Option.map_some, Option.getD_some, Nat.add_mod_mod,
      Nat.add_comm]

theorem getBytes_of_append {payload : List UInt8} (hm : m.streambuf = payload ++ buf) :
    getBytes m payload.length = payload := by
  rw [getBytes, hm, List.take_left]
  simp

variable {r' : Reader}

/-- The payload comes from the socket. -/
theorem follows_content_socket (hr : Ready r r' f.finRsvOpcode [] (f.payload ++ rest))
    (hlength : r.inMessage.length = f.payload.length) (hlt : f.payload.length < 2 ^ 64)
    (hfr : Fragments r'.fragmented fragments) :
    Follows (r.readMessageContent 0) r' (deliverFrame r'.maxMessageSize fragments f) [] rest 0 := by
  rw [readMessageContent, size_eq hlength (hr.fragmented ▸ hfr), hr.maxMessageSize, deliverFrame]
  dsimp only
  split_ifs with hmax
  · exact ⟨_, rfl, congrArg (· ++ [ReaderEvent.messageSize]) hr.events⟩
  · have hmissing : missing 0 r.inMessage.length = f.payload.length := by
      rw [missing, hlength, if_neg (Nat.not_lt_zero _), Nat.sub_zero]
    have hle : f.payload.length ≤ r.socket.length := by simp [hr.socket]
    rw [hmissing, asyncRead, if_pos hle, hr.socket, List.take_left, List.drop_left, hr.streambuf,
      List.nil_append]
    dsimp only
    rw [Nat.sub_self, splitMessage, if_neg (Nat.lt_irrefl 0), Follows, ← hr.maxMessageSize,
      ← hr.events]
    exact follows_handle (r := { r with socket := rest, inMessage := { r.inMessage with
      streambuf := f.payload } }) ⟨hr.finRsvOpcode, rfl, hlength⟩ rfl rfl rfl hlt
      (hr.fragmented ▸ hfr)

/-- The payload is in the buffer. -/
theorem follows_content_buffer (hr : Ready r r' f.finRsvOpcode (f.payload ++ buf) rest)
    (hlength : r.inMessage.length = f.payload.length) (hlt : f.payload.length < 2 ^ 64)
    (hfr : Fragments r'.fragmented fragments) (hc : f.payload.length < c) :
    Follows (r.readMessageContent c) r' (deliverFrame r'.maxMessageSize fragments f) buf rest
      (f.payload.length + buf.length) := by
  rw [readMessageContent, size_eq hlength (hr.fragmented ▸ hfr), hr.maxMessageSize, deliverFrame]
  dsimp only
  split_ifs with hmax
  · exact ⟨_, rfl, congrArg (· ++ [ReaderEvent.messageSize]) hr.events⟩
  · have hmissing : missing c r.inMessage.length = 0 := by
      rw [missing, hlength, if_pos hc]
    have hread : r.asyncRead 0 = some r := by
      rw [asyncRead, if_pos (Nat.zero_le _), List.take_zero, List.append_nil, List.drop_zero]
    rw [hmissing, hread]
    dsimp only
    rw [Nat.sub_zero, hr.streambuf, List.length_append]
    have hfr' : Fragments r.fragmented fragments := hr.fragmented ▸ hfr
    have hsplit : ∃ m next, splitMessage r.inMessage (f.payload.length + buf.length) = (m, next) ∧
        Holds m f ∧ next.streambuf = buf ∧ next.failed = false := by
      rw [splitMessage]
      split_ifs with hpos
      · refine ⟨_, _, rfl, ⟨hr.finRsvOpcode, ?_, hlength⟩, ?_, ?_⟩
        · dsimp only
          rw [hlength]
          exact getBytes_of_append hr.streambuf
        · dsimp only
          rw [hlength, hr.streambuf, List.drop_left]
        · simp [hr.failed, hr.streambuf, hlength]
      · have hbuf : buf = [] := List.length_eq_zero_iff.mp (by omega)
        refine ⟨_, _, rfl, ⟨hr.finRsvOpcode, ?_, hlength⟩, hbuf.symm, rfl⟩
        rw [hr.streambuf, hbuf, List.append_nil]
    obtain ⟨m, next, hsplit, hm, hbuf, hfailed⟩ := hsplit
    rw [hsplit]
    have hhandle : Follows (r.handle m next (f.payload.length + buf.length)) r
        (deliverPayload fragments f) buf rest (f.payload.length + buf.length) :=
      follows_handle hm hbuf hfailed hr.socket hlt hfr'
    rw [Follows, hr.maxMessageSize, hr.events] at hhandle
    exact hhandle

/-- A length and a payload that come from the socket. -/
theorem follows_length_socket {n : ℕ}
    (hr : Ready r r' f.finRsvOpcode []
      (lengthBytes n f.payload.length ++ (f.payload ++ rest)))
    (hn : ofLengthBytes (lengthBytes n f.payload.length) = f.payload.length)
    (hlt : f.payload.length < 2 ^ 64) (hfr : Fragments r'.fragmented fragments) :
    Follows (r.readLength n 0) r' (deliverFrame r'.maxMessageSize fragments f) [] rest 0 := by
  have hmissing : missing 0 n = n := by
    rw [missing, if_neg (Nat.not_lt_zero _), Nat.sub_zero]
  have htake : (lengthBytes n f.payload.length ++ (f.payload ++ rest)).take n =
      lengthBytes n f.payload.length := List.take_left' (length_lengthBytes n _)
  have hdrop : (lengthBytes n f.payload.length ++ (f.payload ++ rest)).drop n =
      f.payload ++ rest := List.drop_left' (length_lengthBytes n _)
  rw [readLength, hmissing, asyncRead, if_pos (by simp [hr.socket]), hr.socket, htake, hdrop,
    hr.streambuf, List.nil_append]
  dsimp only
  rw [takeBytes, if_pos ⟨hr.failed, (length_lengthBytes n _).ge⟩]
  dsimp only
  rw [length_lengthBytes, Nat.sub_self, List.take_of_length_le (length_lengthBytes n _).le,
    List.drop_eq_nil_of_le (length_lengthBytes n _).le]
  exact follows_content_socket ⟨hr.maxMessageSize, hr.events, hr.fragmented, hr.finRsvOpcode, rfl,
    hr.failed, rfl⟩ hn hlt hfr

/-- A length and a payload that are in the buffer. -/
theorem follows_length_buffer {n : ℕ}
    (hr : Ready r r' f.finRsvOpcode
      (lengthBytes n f.payload.length ++ (f.payload ++ buf)) rest)
    (hn : ofLengthBytes (lengthBytes n f.payload.length) = f.payload.length)
    (hlt : f.payload.length < 2 ^ 64) (hfr : Fragments r'.fragmented fragments) (hpos : 0 < n)
    (hc : n < c) :
    Follows (r.readLength n c) r' (deliverFrame r'.maxMessageSize fragments f) buf rest
      (f.payload.length + buf.length) := by
  have hmissing : missing c n = 0 := by rw [missing, if_pos hc]
  have htake : (lengthBytes n f.payload.length ++ (f.payload ++ buf)).take n =
      lengthBytes n f.payload.length := List.take_left' (length_lengthBytes n _)
  have hdrop : (lengthBytes n f.payload.length ++ (f.payload ++ buf)).drop n =
      f.payload ++ buf := List.drop_left' (length_lengthBytes n _)
  have hread : r.asyncRead 0 = some r := by
    rw [asyncRead, if_pos (Nat.zero_le _), List.take_zero, List.append_nil, List.drop_zero]
  rw [readLength, hmissing, hread]
  dsimp only
  rw [takeBytes, if_pos ⟨hr.failed, by simp [hr.streambuf]⟩, hr.streambuf]
  dsimp only
  rw [htake, hdrop, Nat.sub_zero]
  refine follows_content_buffer ⟨hr.maxMessageSize, hr.events, hr.fragmented, hr.finRsvOpcode, rfl,
    hr.failed, hr.socket⟩ hn hlt hfr ?_
  simp
  omega

theorem length_lt_of_valid (hf : f.Valid) : f.payload.length < 2 ^ 64 := by
  have hbound : f.form.bound ≤ 2 ^ 64 := by cases f.form <;> decide
  exact Nat.lt_of_lt_of_le hf hbound

theorem toNat_ofNat_short {length : ℕ} (h : length < 126) :
    (UInt8.ofNat length).toNat = length := by
  rw [UInt8.toNat_ofNat']
  omega

/-- The length byte of the short form. -/
theorem short_second {length : ℕ} (h : length < 126) :
    ¬128 ≤ UInt8.ofNat length ∧ UInt8.ofNat length ≠ 126 ∧ UInt8.ofNat length ≠ 127 := by
  rw [UInt8.le_iff_toNat_le, Ne, Ne, ← UInt8.toNat_inj, ← UInt8.toNat_inj, toNat_ofNat_short h]
  refine ⟨?_, ?_, ?_⟩
  · have : (128 : UInt8).toNat = 128 := rfl
    omega
  · have : (126 : UInt8).toNat = 126 := rfl
    omega
  · have : (127 : UInt8).toNat = 127 := rfl
    omega

/-- The bytes that a length is written as. -/
theorem ofLengthBytes_of_valid {n length : ℕ} (h : length < 256 ^ n) :
    ofLengthBytes (lengthBytes n length) = length := by
  rw [ofLengthBytes_lengthBytes, Nat.mod_eq_of_lt h]

/-- The header of a frame that comes from the socket. -/
theorem readMessage_socket {finRsvOpcode second : UInt8} (hbuf : r.inMessage.streambuf = [])
    (hfailed : r.inMessage.failed = false) (hsocket : r.socket = finRsvOpcode :: second :: rest) :
    ∃ s, r.readMessage 0 = s.readRest second 0 ∧ Ready s r finRsvOpcode [] rest := by
  have hmissing : missing 0 2 = 2 := rfl
  have hread : r.asyncRead 2 = some { r with
      socket := rest
      inMessage := { r.inMessage with streambuf := [finRsvOpcode, second] } } := by
    rw [asyncRead, if_pos (by simp [hsocket]), hsocket, hbuf]
    rfl
  rw [readMessage, hmissing, hread]
  dsimp only
  rw [if_neg (by simp), takeBytes, if_pos ⟨hfailed, by simp⟩]
  exact ⟨_, rfl, rfl, rfl, rfl, rfl, rfl, hfailed, rfl⟩

/-- The header of a frame that is in the buffer. -/
theorem readMessage_buffer {finRsvOpcode second : UInt8}
    (hbuf : r.inMessage.streambuf = finRsvOpcode :: second :: buf)
    (hfailed : r.inMessage.failed = false) (hc : 2 ≤ c) :
    ∃ s, r.readMessage c = s.readRest second (buf.length + 2) ∧
      Ready s r finRsvOpcode buf r.socket := by
  have hmissing : missing c 2 = 0 := by
    rw [missing]
    split_ifs
    · rfl
    · omega
  have hread : r.asyncRead 0 = some r := by
    rw [asyncRead, if_pos (Nat.zero_le _), List.take_zero, List.append_nil, List.drop_zero]
  rw [readMessage, hmissing, hread]
  dsimp only
  rw [if_neg (by simp [hbuf]), takeBytes, if_pos ⟨hfailed, by simp [hbuf]⟩, hbuf]
  exact ⟨_, rfl, rfl, rfl, rfl, rfl, rfl, hfailed, rfl⟩

/-- **A frame that comes from the socket.** -/
theorem follows_socket (hf : f.Valid) (hbuf : r.inMessage.streambuf = [])
    (hfailed : r.inMessage.failed = false) (hsocket : r.socket = f.bytes ++ rest)
    (hfr : Fragments r.fragmented fragments) :
    Follows (r.readMessage 0) r (deliverFrame r.maxMessageSize fragments f) [] rest 0 := by
  have hlt := length_lt_of_valid hf
  rw [ServerFrame.bytes] at hsocket
  rw [ServerFrame.Valid] at hf
  cases hform : f.form with
  | short =>
    rw [hform] at hsocket hf
    simp only [LengthForm.encode, List.cons_append, List.append_assoc] at hsocket
    obtain ⟨h128, h126, h127⟩ := short_second hf
    obtain ⟨s, hs, hready⟩ := readMessage_socket hbuf hfailed hsocket
    rw [hs, readRest, if_neg h128, if_neg h126, if_neg h127]
    exact follows_content_socket ⟨hready.maxMessageSize, hready.events, hready.fragmented,
      hready.finRsvOpcode, hready.streambuf, hready.failed, hready.socket⟩ (toNat_ofNat_short hf)
      hlt hfr
  | medium =>
    rw [hform] at hsocket hf
    simp only [LengthForm.encode, List.cons_append, List.append_assoc] at hsocket
    obtain ⟨s, hs, hready⟩ := readMessage_socket hbuf hfailed hsocket
    rw [hs, readRest, if_neg (by decide), if_pos rfl]
    exact follows_length_socket hready (ofLengthBytes_of_valid hf) hlt hfr
  | long =>
    rw [hform] at hsocket hf
    simp only [LengthForm.encode, List.cons_append, List.append_assoc] at hsocket
    obtain ⟨s, hs, hready⟩ := readMessage_socket hbuf hfailed hsocket
    rw [hs, readRest, if_neg (by decide), if_neg (by decide), if_pos rfl]
    exact follows_length_socket hready
      (ofLengthBytes_of_valid (Nat.lt_of_lt_of_le hf (by decide))) hlt hfr

/-- **A frame that is in the buffer.** -/
theorem follows_buffer (hf : f.Valid) (hbuf : r.inMessage.streambuf = f.bytes ++ buf)
    (hfailed : r.inMessage.failed = false) (hfr : Fragments r.fragmented fragments)
    (hc : 2 ≤ c) :
    Follows (r.readMessage c) r (deliverFrame r.maxMessageSize fragments f) buf r.socket
      (f.payload.length + buf.length) := by
  have hlt := length_lt_of_valid hf
  rw [ServerFrame.bytes] at hbuf
  rw [ServerFrame.Valid] at hf
  cases hform : f.form with
  | short =>
    rw [hform] at hbuf hf
    simp only [LengthForm.encode, List.cons_append, List.append_assoc] at hbuf
    obtain ⟨h128, h126, h127⟩ := short_second hf
    obtain ⟨s, hs, hready⟩ := readMessage_buffer hbuf hfailed hc
    rw [hs, readRest, if_neg h128, if_neg h126, if_neg h127]
    refine follows_content_buffer ⟨hready.maxMessageSize, hready.events, hready.fragmented,
      hready.finRsvOpcode, hready.streambuf, hready.failed, hready.socket⟩ (toNat_ofNat_short hf)
      hlt hfr ?_
    simp
    omega
  | medium =>
    rw [hform] at hbuf hf
    simp only [LengthForm.encode, List.cons_append, List.append_assoc] at hbuf
    obtain ⟨s, hs, hready⟩ := readMessage_buffer hbuf hfailed hc
    rw [hs, readRest, if_neg (by decide), if_pos rfl]
    refine follows_length_buffer hready (ofLengthBytes_of_valid hf) hlt hfr (by decide) ?_
    simp
  | long =>
    rw [hform] at hbuf hf
    simp only [LengthForm.encode, List.cons_append, List.append_assoc] at hbuf
    obtain ⟨s, hs, hready⟩ := readMessage_buffer hbuf hfailed hc
    rw [hs, readRest, if_neg (by decide), if_neg (by decide), if_pos rfl]
    refine follows_length_buffer hready
      (ofLengthBytes_of_valid (Nat.lt_of_lt_of_le hf (by decide))) hlt hfr (by decide) ?_
    simp
    omega

/-! ### All frames -/

theorem readLoop_add (n m : ℕ) (result : ReadResult) :
    readLoop (n + m) result = readLoop m (readLoop n result) := by
  induction n generalizing result with
  | zero => rw [Nat.zero_add]; cases result <;> rfl
  | succ n ih =>
    rw [Nat.succ_add]
    cases result with
    | next r c => exact ih (r.readMessage c)
    | stopped r => cases m <;> rfl
    | undefined => cases m <;> rfl

theorem readLoop_stopped (n : ℕ) (r : Reader) : readLoop n (.stopped r) = .stopped r := by
  cases n <;> rfl

/-- Before any frame. -/
theorem follows_refl (hbuf : r.inMessage.streambuf = buf) (hfailed : r.inMessage.failed = false)
    (hfr : Fragments r.fragmented fragments) :
    Follows (.next r c) r ⟨[], fragments, true⟩ buf r.socket c :=
  ⟨r, rfl, rfl, rfl, hbuf, hfailed, hfr, (List.append_nil _).symm⟩

/-- What is read after what has been read. -/
theorem Follows.andThen {start : ReadResult} {n c' : ℕ} {d : Delivered}
    {next : Option (List UInt8) → Delivered} {buf' rest' : List UInt8}
    (h : Follows (readLoop n start) r d buf rest c)
    (hnext : ∀ s : Reader, s.maxMessageSize = r.maxMessageSize → s.socket = rest →
      s.inMessage.streambuf = buf → s.inMessage.failed = false →
      Fragments s.fragmented d.fragments →
      ∃ m, Follows (readLoop m (.next s c)) s (next d.fragments) buf' rest' c') :
    ∃ m, Follows (readLoop m start) r (d.andThen next) buf' rest' c' := by
  rw [Follows] at h
  rw [Delivered.andThen]
  split_ifs at h ⊢ with hmore
  · obtain ⟨s, hs, hmax, hsocket, hbuf, hfailed, hfr, hevents⟩ := h
    obtain ⟨m, hm⟩ := hnext s hmax hsocket hbuf hfailed hfr
    refine ⟨n + m, ?_⟩
    rw [readLoop_add, hs]
    rw [Follows, hmax, hevents] at hm
    simpa only [Follows, List.append_assoc] using hm
  · refine ⟨n, ?_⟩
    rw [Follows, if_neg hmore]
    exact h

/-- **Frames that come from the socket.** -/
theorem readLoop_socket {fs : List ServerFrame} {maxMessageSize : ℕ}
    (hfs : ∀ f ∈ fs, f.Valid) (hmax : r.maxMessageSize = maxMessageSize)
    (hbuf : r.inMessage.streambuf = []) (hfailed : r.inMessage.failed = false)
    (hsocket : r.socket = fs.flatMap ServerFrame.bytes ++ rest)
    (hfr : Fragments r.fragmented fragments) :
    ∃ n, Follows (readLoop n (.next r 0)) r (deliver maxMessageSize fragments fs) [] rest 0 := by
  induction fs generalizing r fragments with
  | nil =>
    refine ⟨0, ?_⟩
    rw [List.flatMap_nil, List.nil_append] at hsocket
    exact hsocket ▸ follows_refl hbuf hfailed hfr
  | cons f fs ih =>
    rw [List.forall_mem_cons] at hfs
    rw [List.flatMap_cons, List.append_assoc] at hsocket
    have hfirst : Follows (readLoop 1 (.next r 0)) r
        (deliverFrame maxMessageSize fragments f) [] (fs.flatMap ServerFrame.bytes ++ rest) 0 :=
      hmax ▸ follows_socket hfs.1 hbuf hfailed hsocket hfr
    exact hfirst.andThen fun s hs hsocket hbuf hfailed hfr =>
      ih hfs.2 (hs.trans hmax) hbuf hfailed hsocket hfr

theorem two_le_length_bytes (f : ServerFrame) : 2 ≤ f.bytes.length := by
  cases hform : f.form <;> simp [ServerFrame.bytes, hform, LengthForm.encode]

theorem two_le_length_flatMap {fs : List ServerFrame} (hne : fs ≠ []) :
    2 ≤ (fs.flatMap ServerFrame.bytes).length := by
  obtain ⟨f, fs, rfl⟩ := List.exists_cons_of_ne_nil hne
  have := two_le_length_bytes f
  rw [List.flatMap_cons, List.length_append]
  omega

/-- **Frames that are in the buffer.** What the client takes for the number of bytes that are
still there is, at the end, the length of the last payload. -/
theorem readLoop_buffer {pre : List ServerFrame} {maxMessageSize : ℕ}
    (hpre : ∀ f ∈ pre, f.Valid) (hmax : r.maxMessageSize = maxMessageSize)
    (hbuf : r.inMessage.streambuf = pre.flatMap ServerFrame.bytes)
    (hfailed : r.inMessage.failed = false) (hsocket : r.socket = rest)
    (hfr : Fragments r.fragmented fragments) (hc : pre ≠ [] → 2 ≤ c) :
    ∃ n, Follows (readLoop n (.next r c)) r (deliver maxMessageSize fragments pre) [] rest
      (pre.getLast?.elim c fun f => f.payload.length) := by
  induction pre generalizing r fragments c with
  | nil => exact ⟨0, hsocket ▸ follows_refl hbuf hfailed hfr⟩
  | cons f pre ih =>
    rw [List.forall_mem_cons] at hpre
    rw [List.flatMap_cons] at hbuf
    have hfirst : Follows (readLoop 1 (.next r c)) r
        (deliverFrame maxMessageSize fragments f) (pre.flatMap ServerFrame.bytes) rest
        (f.payload.length + (pre.flatMap ServerFrame.bytes).length) :=
      hmax ▸ hsocket ▸ follows_buffer hpre.1 hbuf hfailed hfr (hc (List.cons_ne_nil _ _))
    have hlast : (f :: pre).getLast?.elim c (fun f => f.payload.length) =
        pre.getLast?.elim (f.payload.length + (pre.flatMap ServerFrame.bytes).length)
          fun f => f.payload.length := by
      cases pre with
      | nil => simp
      | cons g pre => simp [List.getLast?_cons]
    rw [hlast]
    refine hfirst.andThen fun s hs hsocket hbuf hfailed hfr =>
      ih hpre.2 (hs.trans hmax) hbuf hfailed hsocket hfr fun hne => ?_
    exact (two_le_length_flatMap hne).trans (Nat.le_add_left _ _)

/-- Nothing is in the buffer: the next byte that is read comes from the socket. -/
theorem readLoop_retry (hbuf : r.inMessage.streambuf = []) (hc : c ≠ 1) :
    ∃ n, readLoop n (.next r c) = .next r 0 := by
  rcases Nat.eq_zero_or_pos c with rfl | hpos
  · exact ⟨0, rfl⟩
  · refine ⟨1, ?_⟩
    have hmissing : missing c 2 = 0 := by
      rw [missing]
      split_ifs
      · rfl
      · omega
    have hread : r.asyncRead 0 = some r := by
      rw [asyncRead, if_pos (Nat.zero_le _), List.take_zero, List.append_nil, List.drop_zero]
    rw [readLoop, readLoop, readMessage, hmissing, hread]
    · dsimp only
      rw [if_pos ⟨rfl, by rw [hbuf]; rfl⟩]
    · nofun

/-- **The frames of a server.** If the bytes that are in the buffer are whole frames, of which the
last one has not just one byte as its payload, then the client does what is to be done with these
frames and with those that come from the socket, whatever follows them. -/
theorem readLoop_frames {pre fs : List ServerFrame} (hpre : ∀ f ∈ pre, f.Valid)
    (hfs : ∀ f ∈ fs, f.Valid) (hlast : ∀ f ∈ pre.getLast?, f.payload.length ≠ 1)
    (hbuf : r.inMessage.streambuf = pre.flatMap ServerFrame.bytes)
    (hfailed : r.inMessage.failed = false)
    (hsocket : r.socket = fs.flatMap ServerFrame.bytes ++ rest)
    (hfr : Fragments r.fragmented fragments) :
    ∃ n, Follows (readLoop n (.next r r.inMessage.streambuf.length)) r
      (deliver r.maxMessageSize fragments (pre ++ fs)) [] rest 0 := by
  have hc (hne : pre ≠ []) : 2 ≤ r.inMessage.streambuf.length :=
    hbuf ▸ two_le_length_flatMap hne
  obtain ⟨n, hn⟩ := readLoop_buffer hpre rfl hbuf hfailed hsocket hfr hc
  rw [deliver_append]
  refine hn.andThen fun s hs hsocket hbuf' hfailed hfr => ?_
  have hne : (pre.getLast?.elim r.inMessage.streambuf.length fun f => f.payload.length) ≠ 1 := by
    cases hl : pre.getLast? with
    | none =>
      rw [List.getLast?_eq_none_iff] at hl
      rw [hbuf, hl]
      exact Nat.zero_ne_one
    | some f => exact hlast f hl
  obtain ⟨k, hk⟩ := readLoop_retry hbuf' hne
  obtain ⟨m, hm⟩ := readLoop_socket hfs hs hbuf' hfailed hsocket hfr
  refine ⟨k + m, ?_⟩
  rw [readLoop_add, hk]
  exact hm

/-- The server sends the first part of a text behind its response; a ping and the other part
follow. -/
theorem readLoop_frames_text : ∃ n, Follows
    (readLoop n (.next (upgraded 100 [0x01, 2, 72, 105] [0x89, 0, 0x80, 126, 0, 1, 33]) 4))
    (upgraded 100 [0x01, 2, 72, 105] [0x89, 0, 0x80, 126, 0, 1, 33])
    ⟨[.pong 0x8a [], .message [72, 105, 33]], none, true⟩ [] [] 0 :=
  @readLoop_frames (upgraded 100 [0x01, 2, 72, 105] [0x89, 0, 0x80, 126, 0, 1, 33]) none []
    [⟨0x01, .short, [72, 105]⟩] [⟨0x89, .short, []⟩, ⟨0x80, .medium, [33]⟩]
    (by decide) (by decide) (by decide) rfl rfl rfl ⟨rfl, nofun⟩

/-! ### What is not there -/

/-- Nothing is in the buffer, and the client knows. -/
def Boundary : ReadResult → Prop
  | .next r numAdditionalBytes =>
    r.inMessage.streambuf = [] ∧ r.inMessage.failed = false ∧ numAdditionalBytes = 0
  | .stopped _ => True
  | .undefined => False

theorem boundary_handle (hbuf : next.streambuf = []) (hfailed : next.failed = false) :
    Boundary (r.handle m next 0) := by
  rw [handle]
  split_ifs
  · trivial
  · exact ⟨hbuf, hfailed, rfl⟩
  · exact ⟨hbuf, hfailed, rfl⟩
  · exact ⟨hbuf, hfailed, rfl⟩
  · exact ⟨hbuf, hfailed, rfl⟩

/-- What is asked for is what comes. -/
theorem asyncRead_missing {s : Reader} {n : ℕ} (hbuf : r.inMessage.streambuf = [])
    (hfailed : r.inMessage.failed = false) (h : r.asyncRead (missing 0 n) = some s) :
    missing 0 n = n ∧ s.inMessage.streambuf.length = n ∧ s.inMessage.failed = false := by
  have hmissing : missing 0 n = n := by rw [missing, if_neg (Nat.not_lt_zero _), Nat.sub_zero]
  rw [hmissing, asyncRead] at h
  split_ifs at h with hle
  cases h
  refine ⟨hmissing, ?_, hfailed⟩
  dsimp only
  rw [hbuf, List.nil_append, List.length_take, Nat.min_eq_left hle]

theorem boundary_content (hbuf : r.inMessage.streambuf = [])
    (hfailed : r.inMessage.failed = false) : Boundary (r.readMessageContent 0) := by
  rw [readMessageContent]
  dsimp only
  split_ifs
  · trivial
  · cases hs : r.asyncRead (missing 0 r.inMessage.length) with
    | none => trivial
    | some s =>
      obtain ⟨hn, hlength, -⟩ := asyncRead_missing hbuf hfailed hs
      dsimp only
      rw [hn, hlength, Nat.sub_self, splitMessage, if_neg (Nat.lt_irrefl 0)]
      exact boundary_handle rfl rfl

theorem boundary_length {n : ℕ} (hbuf : r.inMessage.streambuf = [])
    (hfailed : r.inMessage.failed = false) : Boundary (r.readLength n 0) := by
  rw [readLength]
  dsimp only
  cases hs : r.asyncRead (missing 0 n) with
  | none => trivial
  | some s =>
    obtain ⟨hn, hlength, hfailed⟩ := asyncRead_missing hbuf hfailed hs
    dsimp only
    rw [takeBytes, if_pos ⟨hfailed, hlength.ge⟩]
    dsimp only
    rw [hn, hlength, Nat.sub_self]
    exact boundary_content (List.drop_eq_nil_of_le hlength.le) hfailed

theorem boundary_message (hbuf : r.inMessage.streambuf = [])
    (hfailed : r.inMessage.failed = false) : Boundary (r.readMessage 0) := by
  rw [readMessage]
  dsimp only
  cases hs : r.asyncRead (missing 0 2) with
  | none => trivial
  | some s =>
    obtain ⟨hn, hlength, hfailed⟩ := asyncRead_missing hbuf hfailed hs
    dsimp only
    rw [hn, if_neg (fun h => absurd h.1 (by decide)), takeBytes, if_pos ⟨hfailed, hlength.ge⟩]
    dsimp only
    rw [hlength, Nat.sub_self, readRest]
    have hdrop : s.inMessage.streambuf.drop 2 = [] := List.drop_eq_nil_of_le hlength.le
    split_ifs
    · trivial
    · exact boundary_length hdrop hfailed
    · exact boundary_length hdrop hfailed
    · exact boundary_content hdrop hfailed

/-- **Whatever comes from the socket**, a client with nothing in its buffer uses no byte that is
not there. -/
theorem boundary_readLoop {start : ReadResult} (hstart : Boundary start) (n : ℕ) :
    Boundary (readLoop n start) := by
  induction n generalizing start with
  | zero => cases start <;> exact hstart
  | succ n ih =>
    cases start with
    | next r c =>
      obtain ⟨hbuf, hfailed, rfl⟩ := hstart
      exact ih (boundary_message hbuf hfailed)
    | stopped r => exact hstart
    | undefined => exact hstart

theorem readLoop_undefined_of_add {start : ReadResult} {n k : ℕ}
    (h : readLoop k start = .undefined) : readLoop k (readLoop n start) = .undefined := by
  rw [← readLoop_add, Nat.add_comm, readLoop_add, h]
  cases n <;> rfl

/-- The client has read the header, and takes one byte of the next frame to be there. -/
theorem readMessage_one (hbuf : r.inMessage.streambuf = []) :
    r.readMessage 1 = if r.socket = [] then .stopped (r.emit .error) else .undefined := by
  have hmissing : missing 1 2 = 1 := rfl
  rw [readMessage, hmissing, asyncRead]
  split_ifs with hle hnil hnil
  · simp [hnil] at hle
  · dsimp only
    rw [if_neg (fun h => absurd h.1 (by decide)), takeBytes, if_neg]
    simp [hbuf]
  · rfl
  · exact absurd (List.length_pos_iff.mpr hnil) hle

/-- **When a byte is used that is not there.** If the bytes that are in the buffer are whole
frames, this happens in just one case: the last one has one byte as its payload, further frames
are read after it, and the server sends something else. -/
theorem readLoop_undefined_iff {pre : List ServerFrame} (hpre : ∀ f ∈ pre, f.Valid)
    (hbuf : r.inMessage.streambuf = pre.flatMap ServerFrame.bytes)
    (hfailed : r.inMessage.failed = false) (hfr : Fragments r.fragmented fragments) :
    (∃ n, readLoop n (.next r r.inMessage.streambuf.length) = .undefined) ↔
      (∃ f ∈ pre.getLast?, f.payload.length = 1) ∧
        (deliver r.maxMessageSize fragments pre).more = true ∧ r.socket ≠ [] := by
  have hc (hne : pre ≠ []) : 2 ≤ r.inMessage.streambuf.length :=
    hbuf ▸ two_le_length_flatMap hne
  obtain ⟨n, hn⟩ := readLoop_buffer hpre rfl hbuf hfailed rfl hfr hc
  rw [Follows] at hn
  split_ifs at hn with hmore
  · obtain ⟨s, hs, -, hsocket, hbuf', hfailed', -⟩ := hn
    constructor
    · rintro ⟨k, hk⟩
      have hk' := readLoop_undefined_of_add (n := n) hk
      rw [hs] at hk'
      by_cases hone : (pre.getLast?.elim r.inMessage.streambuf.length
          fun f => f.payload.length) = 1
      · cases hl : pre.getLast? with
        | none =>
          rw [List.getLast?_eq_none_iff] at hl
          rw [hl, hbuf, hl] at hone
          cases hone
        | some f =>
          rw [hl] at hone hk'
          refine ⟨⟨f, rfl, hone⟩, hmore, fun hnil => ?_⟩
          rw [Option.elim_some] at hone hk'
          rw [hone] at hk'
          cases k with
          | zero => cases hk'
          | succ k =>
            rw [readLoop, readMessage_one hbuf', hsocket, if_pos hnil, readLoop_stopped] at hk'
            cases hk'
      · obtain ⟨j, hj⟩ := readLoop_retry hbuf' hone
        have hk'' := readLoop_undefined_of_add (n := j) hk'
        rw [hj] at hk''
        have hstart : Boundary (.next s 0) := ⟨hbuf', hfailed', rfl⟩
        have hboundary := boundary_readLoop hstart k
        rw [hk''] at hboundary
        exact hboundary.elim
    · rintro ⟨⟨f, hf, hone⟩, -, hne⟩
      refine ⟨n + 1, ?_⟩
      rw [readLoop_add, hs, Option.mem_def.mp hf, Option.elim_some, hone, readLoop, readLoop,
        readMessage_one hbuf', hsocket, if_neg hne]
      nofun
  · obtain ⟨s, hs, -⟩ := hn
    constructor
    · rintro ⟨k, hk⟩
      have hk' := readLoop_undefined_of_add (n := n) hk
      rw [hs, readLoop_stopped] at hk'
      cases hk'
    · rintro ⟨-, hmore', -⟩
      exact absurd hmore' hmore

/-- A text of one byte behind the response, and an empty one after it. -/
theorem readLoop_undefined_iff_byte :
    ∃ n, readLoop n (.next (upgraded 100 [0x81, 1, 72] [0x81, 0]) 3) = .undefined :=
  (@readLoop_undefined_iff (upgraded 100 [0x81, 1, 72] [0x81, 0]) none [⟨0x81, .short, [72]⟩]
    (by decide) rfl rfl ⟨rfl, nofun⟩).mpr ⟨⟨_, rfl, rfl⟩, rfl, nofun⟩

end Reader

end WebSocket

end UtilityFramework
