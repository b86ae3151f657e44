import UtilityFramework.Files.LogStored

/-!
# Log files that are not cyclic

A flush that is refused because of the size limit leaves the stream open and its buffer waiting.
The next flush then fails to open the stream and takes the file for an empty one: it writes a new
position line and the header text, and the buffer, if it fits behind them, over the data.

The data region, which is what follows the position line, is extended by a flush precisely if
the bytes it writes agree with those they go over (`extends_step_iff`, and over whole runs
`extends_iff_spares`). They do as long as no flush that finds the stream open writes its buffer
(`OwnInv.step`).
-/

namespace UtilityFramework

open Transition

namespace LogFile

/-- The position that the first line of a file holds; 0 if there is none. -/
def position (content : List UInt8) : ℕ :=
  (getCyclicFileCurrPos (.opened content 0)).elim 0 fun p => p.2

/-- The buffer that the next flush writes. -/
def nextBuffer (s : LogFile) : List UInt8 :=
  if s.buffToWrite.isSome then s.pending else s.current

variable (c : LogConfig)

/-- Where the next flush writes its buffer. -/
def writePos (s : LogFile) : ℕ :=
  if s.file.isOpen ∨ position s.file.content = 0 then fileHeaderLength + c.headerData.length
  else position s.file.content

/-- The next flush is refused: with its buffer, the size limit is reached. -/
def Refused (s : LogFile) : Prop := c.maxFileSize ≤ s.writePos c + s.nextBuffer.length

instance (s : LogFile) : Decidable (Refused c s) := inferInstanceAs (Decidable (_ ≤ _))

/-- The bytes that the next flush of a file that is not empty writes behind the position line:
the header text once more, if the stream is still open, and the buffer, if it is not refused. -/
def rewritten (s : LogFile) : List UInt8 :=
  (if s.file.isOpen then c.headerData else []) ++ if s.Refused c then [] else s.nextBuffer

/-- The bytes from where on the next flush writes. -/
def overwritten (s : LogFile) : List UInt8 :=
  s.file.content.drop (if s.file.isOpen then fileHeaderLength else s.writePos c)

/-- A file that a log file can have written. -/
def IsLog (content : List UInt8) : Prop :=
  content = [] ∨ ∃ pos tail, content = posLine pos ++ tail ∧ pos < 10 ^ 20 ∧
    21 ≤ pos ∧ pos ≤ 21 + tail.length

/-- What holds between two calls. -/
structure AppendInv (s : LogFile) : Prop where
  buffers : BufferInv c s
  closed : s.file.isOpen = false → IsLog s.file.content
  opened : s.file.isOpen = true → ∃ pos tail q,
    s.file = .opened (posLine pos ++ tail) q ∧ pos < 10 ^ 20

/-- What a flush leaves that writes `written` over `back`, which follows `front` behind the
position line. -/
structure Appended (refused : Prop) (front written back : List UInt8) (s : LogFile) : Prop where
  inv : AppendInv c s
  isOpen : refused → s.file.isOpen = true
  content : ∃ pos, pos < 10 ^ 20 ∧
    s.file.content = posLine pos ++ (front ++ (written ++ back.drop written.length)) ∧
    (s.file.isOpen = false → pos = 21 + (front ++ written).length)

section Flush

variable {c} {s : LogFile}

theorem BufferInv.pending_prepare (h : BufferInv c s) :
    (s.prepare c).pending = s.nextBuffer := by
  rw [prepare, nextBuffer]
  cases hw : s.buffToWrite with
  | none =>
    have hinv : BufferInv c { s with created := true, file := s.file.openFile } :=
      ⟨h.length, h.currBuffSize_le, h.buffToWrite⟩
    exact hinv.switchBuffers.2.1
  | some i =>
    rw [if_neg (by rintro ⟨⟩), pending, pending, hw]
    rfl

theorem BufferInv.length_nextBuffer (h : BufferInv c s) :
    (s.prepare c).buffSizeToWrite = s.nextBuffer.length ∧
      s.nextBuffer.length ≤ c.maxBuffSize := by
  obtain ⟨hinv, hsome, -⟩ := prepare_data h
  have hlen := hinv.length_pending hsome
  obtain ⟨i, hi⟩ := Option.isSome_iff_exists.mp hsome
  rw [← h.pending_prepare, hlen]
  exact ⟨rfl, (hinv.buffToWrite i hi).2⟩

theorem position_posLine {pos : ℕ} (h : pos < 10 ^ 20) (hlt : pos < 2 ^ 31)
    (tail : List UInt8) : position (posLine pos ++ tail) = pos := by
  rw [position, getCyclicFileCurrPos_posLine h, if_pos hlt]
  rfl

theorem drop_posLine {pos : ℕ} (h : pos < 10 ^ 20) (tail : List UInt8) :
    (posLine pos ++ tail).drop 21 = tail :=
  List.drop_left' (length_posLine h)

/-- The end of a flush, which writes its buffer unless the size limit is reached. -/
theorem writeOut_ready (hcyclic : c.isCyclic = false) (hinv : BufferInv c s)
    (hsome : s.buffToWrite.isSome) {pos : ℕ} (hpos : pos < 10 ^ 20) (front back : List UInt8)
    (empty : Bool) (hsum : 21 + front.length + s.buffSizeToWrite < 10 ^ 20) :
    Appended c (c.maxFileSize ≤ 21 + front.length + s.buffSizeToWrite) front
      (if c.maxFileSize ≤ 21 + front.length + s.buffSizeToWrite then [] else s.pending) back
      ((s.ready (posLine pos ++ (front ++ back)) (21 + front.length) empty).writeOut c).1 := by
  have hlen := hinv.length_pending hsome
  have hlimit : (s.ready (posLine pos ++ (front ++ back)) (21 + front.length)
      empty).limitReached c = decide (c.maxFileSize ≤ 21 + front.length + s.buffSizeToWrite) := rfl
  rw [writeOut, hlimit, hcyclic, if_neg Bool.false_ne_true]
  by_cases hle : c.maxFileSize ≤ 21 + front.length + s.buffSizeToWrite
  -- refused: the stream stays open behind the header text
  · rw [if_pos hle, decide_eq_true hle, if_pos rfl]
    refine ⟨⟨⟨hinv.length, hinv.currBuffSize_le, hinv.buffToWrite⟩, ?_, ?_⟩, fun _ => rfl,
      pos, hpos, rfl, ?_⟩
    · exact fun h => by cases h
    · exact fun _ => ⟨pos, front ++ back, 21 + front.length, rfl, hpos⟩
    · exact fun h => by cases h
  · rw [if_neg hle, decide_eq_false hle, if_neg Bool.false_ne_true,
      writeBuffer_ready hpos front back empty hlen hsum]
    refine ⟨⟨⟨hinv.length, hinv.currBuffSize_le, fun i hi => by cases hi⟩, fun _ => ?_, ?_⟩,
      fun h => absurd h hle, _, hsum, ?_, fun _ => ?_⟩
    · refine .inr ⟨_, _, rfl, hsum, by omega, ?_⟩
      rw [List.length_append, List.length_append, hlen]
      omega
    · exact fun h => by cases h
    · rw [hlen]
    · rw [List.length_append, hlen, Nat.add_assoc]

/-- A flush of a stream that is still open. -/
theorem flush_opened (hcyclic : c.isCyclic = false) (h : AppendInv c s)
    (hopen : s.file.isOpen = true) :
    s.file.content.drop 21 = s.overwritten c ∧ ∃ p, s.flush c = some p ∧
      Appended c (s.Refused c) [] (s.rewritten c) (s.overwritten c) p.1 := by
  obtain ⟨pos, tail, q, hs, hpos⟩ := h.opened hopen
  obtain ⟨hinv, hsome, -, hfile, -⟩ := prepare_data h.buffers
  obtain ⟨hsize, hbuffer⟩ := h.buffers.length_nextBuffer
  have hheader := c.headerData_lt
  have hmax := c.maxBuffSize_lt
  -- Opening a stream that is open makes it fail, so that no position is found.
  have hflush := flush_of_no_position (c := c) (s := s) (posLine pos ++ tail) q
    (by rw [hfile, hs]; exact getCyclicFileCurrPos_of_failbit _ _)
  have hput : FileStream.put (posLine 21 ++ tail) 21 c.headerData =
      posLine 21 ++ (c.headerData ++ tail.drop c.headerData.length) := by
    have happend := FileStream.put_append (posLine 21) tail c.headerData
    rwa [length_posLine (by decide)] at happend
  have hrefused : s.Refused c ↔
      c.maxFileSize ≤ 21 + c.headerData.length + (s.prepare c).buffSizeToWrite := by
    rw [Refused, writePos, if_pos (.inl hopen), hsize]
    rfl
  have hover : s.overwritten c = s.file.content.drop 21 := by
    rw [overwritten, if_pos hopen]
    rfl
  have htail : s.file.content.drop 21 = tail := by
    rw [hs]
    exact drop_posLine hpos tail
  rw [put_posLine hpos (by decide), hput] at hflush
  have hout := writeOut_ready hcyclic hinv hsome (show 21 < 10 ^ 20 by decide) c.headerData
    (tail.drop c.headerData.length) c.headerData.isEmpty (by omega)
  refine ⟨hover.symm, _, hflush.1, hout.inv, fun href => hout.isOpen (hrefused.mp href), ?_⟩
  obtain ⟨pos', hpos', hcontent, hclosed⟩ := hout.content
  have hrewritten : s.rewritten c = c.headerData ++
      if c.maxFileSize ≤ 21 + c.headerData.length + (s.prepare c).buffSizeToWrite then []
      else (s.prepare c).pending := by
    rw [rewritten, if_pos hopen, h.buffers.pending_prepare]
    simp only [hrefused]
  refine ⟨pos', hpos', ?_, ?_⟩
  · rw [hcontent, hover, htail, hrewritten, List.length_append, List.drop_drop, List.nil_append,
      List.append_assoc]
  · rw [hrewritten, List.nil_append]
    exact hclosed

/-- A flush of a stream that is not open, which writes its buffer behind `front`. -/
theorem flush_closed (hcyclic : c.isCyclic = false) (h : AppendInv c s)
    (hclosed : s.file.isOpen = false) (front back : List UInt8)
    (hcontent : (s.file.content = [] ∧ front = c.headerData ∧ back = []) ∨
      (s.file.content = posLine (21 + front.length) ++ (front ++ back) ∧
        21 + front.length < 2 ^ 31)) :
    s.writePos c = 21 + front.length ∧ s.overwritten c = back ∧ ∃ p, s.flush c = some p ∧
      Appended c (s.Refused c) front (s.rewritten c) back p.1 := by
  obtain ⟨hinv, hsome, -, hfile, -⟩ := prepare_data h.buffers
  obtain ⟨hsize, hbuffer⟩ := h.buffers.length_nextBuffer
  have hheader := c.headerData_lt
  have hmax := c.maxBuffSize_lt
  obtain ⟨pos, empty, hpos, hflush, -⟩ := flush_of_closed hclosed hfile _ _ hcontent
  have hfront : 21 + front.length < 2 ^ 64 := by
    rcases hcontent with ⟨-, rfl, -⟩ | ⟨-, hlt⟩
    · omega
    · omega
  have hwritePos : s.writePos c = 21 + front.length ∧
      s.file.content.drop (s.writePos c) = back := by
    rcases hcontent with ⟨hempty, rfl, rfl⟩ | ⟨hcontent, hlt⟩
    · rw [hempty, List.drop_nil, writePos, hempty, if_pos (.inr rfl)]
      exact ⟨rfl, rfl⟩
    · have hposition : position s.file.content = 21 + front.length := by
        rw [hcontent, position_posLine (by omega) hlt]
      have heq : s.writePos c = 21 + front.length := by
        rw [writePos, hposition, hclosed, if_neg]
        rintro (h | h)
        · cases h
        · omega
      refine ⟨heq, ?_⟩
      rw [heq, hcontent, ← List.append_assoc]
      refine List.drop_left' ?_
      rw [List.length_append, length_posLine (by omega)]
  have hrefused : s.Refused c ↔
      c.maxFileSize ≤ 21 + front.length + (s.prepare c).buffSizeToWrite := by
    rw [Refused, hwritePos.1, hsize]
  have hrewritten : s.rewritten c =
      if c.maxFileSize ≤ 21 + front.length + (s.prepare c).buffSizeToWrite then []
      else (s.prepare c).pending := by
    rw [rewritten, hclosed, if_neg Bool.false_ne_true, h.buffers.pending_prepare,
      List.nil_append]
    simp only [hrefused]
  refine ⟨hwritePos.1, ?_, _, hflush, ?_⟩
  · rw [overwritten, hclosed, if_neg Bool.false_ne_true, hwritePos.2]
  · have hout := writeOut_ready hcyclic hinv hsome hpos front back empty (by omega)
    rw [hrewritten]
    exact ⟨hout.inv, fun href => hout.isOpen (hrefused.mp href), hout.content⟩

/-- A position that does not fit an `int` has no result. -/
theorem lt_of_flush (hclosed : s.file.isOpen = false) (h : BufferInv c s) {pos : ℕ}
    {tail : List UInt8} (hcontent : s.file.content = posLine pos ++ tail) (hpos : pos < 10 ^ 20)
    {p : LogFile × Bool} (hp : s.flush c = some p) : pos < 2 ^ 31 := by
  by_contra hlt
  obtain ⟨-, -, -, hfile, -⟩ := prepare_data h
  have hopen : (s.prepare c).file = .opened (posLine pos ++ tail) 0 := by
    rw [hfile, FileStream.openFile, hclosed, ← hcontent]
    rfl
  have hnone : (s.prepare c).repositionToWrite = none := by
    rw [repositionToWrite, hopen, getCyclicFileCurrPos_posLine hpos, if_neg hlt]
    rfl
  rw [flush, hnone] at hp
  cases hp

end Flush

end LogFile

/-- A log file, and what its file was before the last call. -/
structure AppendRun where
  log : LogFile
  before : List UInt8

namespace AppendRun

variable (c : LogConfig)

/-- A log file, with the file as it is. -/
def init (content : Option (List UInt8)) : AppendRun := ⟨.new c content, content.getD []⟩

/-- One call. -/
def step (r : AppendRun) : LogAction → Option AppendRun
  | .write buffer => some ⟨(r.log.write c buffer).1, r.log.file.content⟩
  | .flush => (r.log.flush c).map fun p => ⟨p.1, r.log.file.content⟩

/-- The last call has extended the data region, which follows the position line. -/
def Extends (r : AppendRun) : Prop := r.before.drop 21 <+: r.log.file.content.drop 21

/-- What a flush writes agrees with what it goes over. -/
def Spares (r : AppendRun) : LogAction → Prop
  | .write _ => True
  | .flush => FileStream.Agrees (r.log.rewritten c) (r.log.overwritten c)

instance (r : AppendRun) : Decidable (Extends r) := inferInstanceAs (Decidable (_ <+: _))

/-- A flush is refused because of the size limit, or it finds the stream closed, as the last one
was not refused, and keeps the file below `2 ^ 31` bytes. -/
def RefusedOrClosed (r : AppendRun) : LogAction → Prop
  | .write _ => True
  | .flush => r.log.Refused c ∨
      (r.log.file.isOpen = false ∧ r.log.writePos c + r.log.nextBuffer.length < 2 ^ 31)

instance (r : AppendRun) : DecidablePred (RefusedOrClosed c r)
  | .write _ => .isTrue trivial
  | .flush => inferInstanceAs (Decidable (_ ∨ _))

/-- A file that a log file with the same header text has left. -/
def IsOwn (content : List UInt8) : Prop :=
  content = [] ∨ ∃ tail, content = LogFile.posLine (21 + (c.headerData ++ tail).length) ++
    (c.headerData ++ tail) ∧ 21 + (c.headerData ++ tail).length < 2 ^ 31

/-- What holds besides if the condition above is met: a file that is not open is one that the log
file has left, and one that is open begins with the position line and the header text. -/
structure OwnInv (s : LogFile) : Prop where
  inv : LogFile.AppendInv c s
  closed : s.file.isOpen = false → IsOwn c s.file.content
  header : s.file.isOpen = true → c.headerData <+: s.file.content.drop 21

section Steps

variable {c} {r t : AppendRun}

theorem appendInv_init (content : Option (List UInt8)) (h : LogFile.IsLog (content.getD [])) :
    LogFile.AppendInv c (init c content).log where
  buffers := LogFile.bufferInv_new c content
  closed _ := h
  opened h := by cases h

/-- A call of `write` does not change the file. -/
theorem appendInv_write {s : LogFile} (h : LogFile.AppendInv c s) (buffer : List UInt8) :
    LogFile.AppendInv c (s.write c buffer).1 ∧ (s.write c buffer).1.file = s.file := by
  rcases LogFile.write_cases h.buffers buffer with heq | ⟨s', heq, -, hinv, -, hf, -, -⟩
  · rw [heq]
    exact ⟨h, rfl⟩
  · rw [heq]
    exact ⟨⟨hinv, hf ▸ h.closed, hf ▸ h.opened⟩, hf⟩

/-- What a flush does to a file, unless that is empty and not open. -/
theorem flush_cases (hcyclic : c.isCyclic = false) {s : LogFile} (h : LogFile.AppendInv c s)
    {p : LogFile × Bool} (hp : s.flush c = some p) :
    LogFile.AppendInv c p.1 ∧ ((s.file.isOpen = false ∧ s.file.content = []) ∨
      ∃ front, s.file.content.drop 21 = front ++ s.overwritten c ∧
        LogFile.Appended c (s.Refused c) front (s.rewritten c) (s.overwritten c) p.1) := by
  cases hopen : s.file.isOpen with
  | true =>
    obtain ⟨hover, p', hp', hout⟩ := LogFile.flush_opened hcyclic h hopen
    obtain rfl := Option.some.inj (hp.symm.trans hp')
    exact ⟨hout.inv, .inr ⟨[], hover, hout⟩⟩
  | false =>
    rcases h.closed hopen with hempty | ⟨pos, tail, hcontent, hpos, hlo, hhi⟩
    · obtain ⟨-, -, p', hp', hout⟩ :=
        LogFile.flush_closed hcyclic h hopen _ _ (.inl ⟨hempty, rfl, rfl⟩)
      obtain rfl := Option.some.inj (hp.symm.trans hp')
      exact ⟨hout.inv, .inl ⟨rfl, hempty⟩⟩
    -- The data region is cut where the position points to.
    · have hlt := LogFile.lt_of_flush hopen h.buffers hcontent hpos hp
      have hfront : 21 + (tail.take (pos - 21)).length = pos := by
        rw [List.length_take]
        omega
      have htail := List.take_append_drop (pos - 21) tail
      obtain ⟨-, hover, p', hp', hout⟩ := LogFile.flush_closed hcyclic h hopen
        (tail.take (pos - 21)) (tail.drop (pos - 21))
        (.inr ⟨by rw [hfront, htail, hcontent], by omega⟩)
      obtain rfl := Option.some.inj (hp.symm.trans hp')
      rw [hover]
      refine ⟨hout.inv, .inr ⟨_, ?_, hout⟩⟩
      rw [htail, hcontent, LogFile.drop_posLine hpos]

theorem appendInv_step (hcyclic : c.isCyclic = false) {a : LogAction}
    (h : LogFile.AppendInv c r.log) (ht : r.step c a = some t) : LogFile.AppendInv c t.log := by
  cases a with
  | write buffer =>
    obtain rfl := Option.some.inj ht
    exact (appendInv_write h buffer).1
  | flush =>
    rw [step] at ht
    obtain ⟨p, hp, rfl⟩ := Option.map_eq_some_iff.mp ht
    exact (flush_cases hcyclic h hp).1

/-- **One call** extends the data region precisely if what it writes agrees with what it goes
over. -/
theorem extends_step_iff (hcyclic : c.isCyclic = false) {a : LogAction}
    (h : LogFile.AppendInv c r.log) (ht : r.step c a = some t) : Extends t ↔ r.Spares c a := by
  cases a with
  | write buffer =>
    obtain rfl := Option.some.inj ht
    refine iff_of_true ?_ trivial
    rw [Extends, (appendInv_write h buffer).2]
  | flush =>
    rw [step] at ht
    obtain ⟨p, hp, rfl⟩ := Option.map_eq_some_iff.mp ht
    rw [Extends, Spares]
    rcases (flush_cases hcyclic h hp).2 with ⟨hopen, hempty⟩ | ⟨front, hfront, hout⟩
    -- an empty file: there is nothing to go over
    · have hover : r.log.overwritten c = [] := by
        rw [LogFile.overwritten, hempty, List.drop_nil]
      rw [hover, hempty, List.drop_nil]
      exact iff_of_true List.nil_prefix (FileStream.agrees_nil_right _)
    · obtain ⟨pos, hpos, hcontent, -⟩ := hout.content
      rw [hfront, hcontent, LogFile.drop_posLine hpos, List.prefix_append_right_inj]
      exact FileStream.prefix_overwrite_iff _ _

/-- What a flush leaves that writes behind the end of the file. -/
theorem ownInv_of_appended {s : LogFile} {refused : Prop} {tail written : List UInt8}
    (h : LogFile.Appended c refused (c.headerData ++ tail) written [] s)
    (hlt : ¬ refused → 21 + (c.headerData ++ (tail ++ written)).length < 2 ^ 31) :
    OwnInv c s := by
  obtain ⟨pos, hpos, hcontent, hclosed⟩ := h.content
  rw [List.drop_nil, List.append_nil, List.append_assoc] at hcontent
  refine ⟨h.inv, fun hopen => .inr ⟨tail ++ written, ?_⟩, fun _ => ?_⟩
  -- A refused flush has left the stream open.
  · have heq := hclosed hopen
    have hnot : ¬ refused := fun href =>
      absurd (hopen.symm.trans (h.isOpen href)) (by decide)
    rw [List.append_assoc] at heq
    exact ⟨heq ▸ hcontent, hlt hnot⟩
  · rw [hcontent, LogFile.drop_posLine hpos]
    exact List.prefix_append _ _

/-- A flush of a stream that is not open. -/
theorem OwnInv.flush_closed (hcyclic : c.isCyclic = false) {s : LogFile} (h : OwnInv c s)
    (hopen : s.file.isOpen = false) : s.overwritten c = [] ∧ ∃ p, s.flush c = some p ∧
      ((s.Refused c ∨ s.writePos c + s.nextBuffer.length < 2 ^ 31) → OwnInv c p.1) := by
  obtain ⟨tail, hcontent⟩ : ∃ tail, (s.file.content = [] ∧ c.headerData ++ tail = c.headerData) ∨
      (s.file.content = LogFile.posLine (21 + (c.headerData ++ tail).length) ++
        (c.headerData ++ tail) ∧ 21 + (c.headerData ++ tail).length < 2 ^ 31) := by
    rcases h.closed hopen with hempty | ⟨tail, htail⟩
    · exact ⟨[], .inl ⟨hempty, List.append_nil _⟩⟩
    · exact ⟨tail, .inr htail⟩
  obtain ⟨hpos, hover, p, hp, hout⟩ := LogFile.flush_closed hcyclic h.inv hopen
    (c.headerData ++ tail) []
    (hcontent.imp (fun h => ⟨h.1, h.2, rfl⟩) fun h => ⟨by rw [List.append_nil, h.1], h.2⟩)
  refine ⟨hover, p, hp, fun hsmall => ownInv_of_appended hout fun hnot => ?_⟩
  have hlt := hsmall.resolve_left hnot
  rw [LogFile.rewritten, hopen, if_neg Bool.false_ne_true, if_neg hnot, List.nil_append,
    ← List.append_assoc, List.length_append, ← Nat.add_assoc, ← hpos]
  exact hlt

/-- A flush of a stream that is still open. -/
theorem OwnInv.flush_opened (hcyclic : c.isCyclic = false) {s : LogFile} (h : OwnInv c s)
    (hopen : s.file.isOpen = true) : ∃ p, s.flush c = some p ∧
      (s.Refused c → OwnInv c p.1 ∧ FileStream.Agrees (s.rewritten c) (s.overwritten c)) := by
  obtain ⟨hover, p, hp, hout⟩ := LogFile.flush_opened hcyclic h.inv hopen
  refine ⟨p, hp, fun hrefused => ?_⟩
  have hrewritten : s.rewritten c = c.headerData := by
    rw [LogFile.rewritten, if_pos hopen, if_pos hrefused, List.append_nil]
  have hstill := hout.isOpen hrefused
  obtain ⟨pos, hpos, hcontent, -⟩ := hout.content
  refine ⟨⟨hout.inv, fun hc => absurd (hstill.symm.trans hc) (by decide), fun _ => ?_⟩, ?_⟩
  · rw [hcontent, LogFile.drop_posLine hpos, hrewritten]
    exact List.prefix_append _ _
  · rw [hrewritten, ← hover]
    exact FileStream.agrees_of_prefix (h.header hopen)

theorem OwnInv.enabled (hcyclic : c.isCyclic = false) (h : OwnInv c r.log) (a : LogAction) :
    ∃ t, r.step c a = some t := by
  cases a with
  | write buffer => exact ⟨_, rfl⟩
  | flush =>
    obtain ⟨p, hp⟩ : ∃ p, r.log.flush c = some p := by
      cases hopen : r.log.file.isOpen with
      | true => exact (h.flush_opened hcyclic hopen).imp fun p hp => hp.1
      | false => exact (h.flush_closed hcyclic hopen).2.imp fun p hp => hp.1
    exact ⟨_, by rw [step, hp]; rfl⟩

/-- A call that meets the condition. -/
theorem OwnInv.step (hcyclic : c.isCyclic = false) {a : LogAction} (h : OwnInv c r.log)
    (hok : r.RefusedOrClosed c a) (ht : r.step c a = some t) :
    OwnInv c t.log ∧ r.Spares c a := by
  cases a with
  | write buffer =>
    obtain rfl := Option.some.inj ht
    obtain ⟨hinv, hfile⟩ := appendInv_write h.inv buffer
    exact ⟨⟨hinv, hfile ▸ h.closed, hfile ▸ h.header⟩, trivial⟩
  | flush =>
    rw [AppendRun.step] at ht
    obtain ⟨p, hp, rfl⟩ := Option.map_eq_some_iff.mp ht
    cases hopen : r.log.file.isOpen with
    | true =>
      obtain ⟨p', hp', hout⟩ := h.flush_opened hcyclic hopen
      obtain rfl := Option.some.inj (hp.symm.trans hp')
      -- By the condition this flush is refused again, and only writes the header text once more.
      exact hout (hok.resolve_right fun hc => absurd (hopen.symm.trans hc.1) (by decide))
    | false =>
      obtain ⟨hover, p', hp', hout⟩ := h.flush_closed hcyclic hopen
      obtain rfl := Option.some.inj (hp.symm.trans hp')
      refine ⟨hout (hok.imp_right fun hc => hc.2), ?_⟩
      rw [Spares, hover]
      exact FileStream.agrees_nil_right _

theorem ownInv_init (content : Option (List UInt8)) (h : IsOwn c (content.getD [])) :
    OwnInv c (init c content).log where
  inv := appendInv_init content <| by
    refine h.imp_right ?_
    rintro ⟨tail, hcontent, hlt⟩
    exact ⟨_, _, hcontent, by omega, by omega, le_refl _⟩
  closed _ := h
  header h := by cases h

end Steps

/-- **Append-only log files.** For every log file that is not cyclic, missing or left by a log
file at first, and any sequence of calls, each call extends the data region precisely if what
each flush writes agrees with what it goes over. In particular it does, and every call returns,
if the file is missing or has been left by a log file with the same header text at first, no
flush that finds the stream open writes its buffer, and the file stays below `2 ^ 31` bytes. -/
theorem extends_iff_spares (hcyclic : c.isCyclic = false) (content : Option (List UInt8))
    (l : List LogAction) :
    (LogFile.IsLog (content.getD []) →
      (Always (step c) Extends (init c content) l ↔
        Guarded (step c) (Spares c) (init c content) l)) ∧
    (IsOwn c (content.getD []) → Guarded (step c) (RefusedOrClosed c) (init c content) l →
      (∃ t, run (step c) (init c content) l = some t) ∧
        Always (step c) Extends (init c content) l) := by
  have hiff (hlog : LogFile.IsLog (content.getD [])) :
      Always (step c) Extends (init c content) l ↔
        Guarded (step c) (Spares c) (init c content) l :=
    always_iff_guarded l (J := fun r => LogFile.AppendInv c r.log)
      (fun _ _ _ h ht => appendInv_step hcyclic h ht)
      (fun _ _ _ h _ ht => extends_step_iff hcyclic h ht)
      (appendInv_init content hlog) (List.prefix_refl _)
  refine ⟨hiff, fun hown hguard => ⟨?_, ?_⟩⟩
  · exact hguard.exists_run (J := fun r => OwnInv c r.log) (fun _ a h => h.enabled hcyclic a)
      (fun _ _ _ h hok ht => (h.step hcyclic hok ht).1) (ownInv_init content hown)
  · have hlog := (ownInv_init content hown).inv.closed rfl
    refine (hiff hlog).mpr (hguard.imp (J := fun r => OwnInv c r.log)
      (fun _ _ _ h hok ht => (h.step hcyclic hok ht).1) ?_ (ownInv_init content hown))
    intro r a h hok
    obtain ⟨t, ht⟩ := h.enabled hcyclic a
    exact (h.step hcyclic hok ht).2

/-- A run whose last flush is refused, with a write after it. -/
theorem extends_iff_spares_sample :
    Always (step LogRun.sampleConfig) Extends (init LogRun.sampleConfig none)
      [.write (Text.toBytes "abcde"), .flush, .write (Text.toBytes "fghij"), .flush,
        .write (Text.toBytes "klmnopq"), .flush, .write (Text.toBytes "rst")] :=
  ((extends_iff_spares LogRun.sampleConfig rfl none _).2 (.inl rfl) (by decide +kernel)).2

/-- The flush after a refused one writes its buffer behind the header text, where there are
data. -/
theorem flush_after_refused_overwrites :
    ¬ Always (step LogRun.sampleConfig) Extends (init LogRun.sampleConfig none)
      [.write (Text.toBytes "abcde"), .flush, .write (Text.toBytes "fghij"), .flush,
        .write (Text.toBytes "klmnopq"), .flush, .flush] := by
  intro h
  have hrun : (run (step LogRun.sampleConfig) (init LogRun.sampleConfig none)
      [.write (Text.toBytes "abcde"), .flush, .write (Text.toBytes "fghij"), .flush,
        .write (Text.toBytes "klmnopq"), .flush, .flush]).any
      (fun t => !decide (Extends t)) = true := by decide +kernel
  obtain ⟨t, ht, hnot⟩ := (Option.any_eq_true _ _).mp hrun
  rw [Bool.not_eq_true', decide_eq_false_iff_not] at hnot
  exact hnot (h _ t (List.prefix_refl _) ht)

end AppendRun

end UtilityFramework
