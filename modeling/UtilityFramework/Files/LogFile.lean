import UtilityFramework.Lib.Decimal
import UtilityFramework.Lib.FileStream
import UtilityFramework.Lib.Transition
import UtilityFramework.Parsers.Json

/-!
# Log files

`log_file` collects what is written in one of two buffers and hands full buffers to `flush`. The
file begins with a line of `FILE_HEADER_LENGTH` bytes that holds the position at which the next
buffer goes; a header text and the data follow. A file that would reach its size limit is
restarted behind its header if it is cyclic; otherwise nothing is written.

The operations of the file succeed, and a file that is opened is created if there is none. A
position line whose number does not fit an `int` makes `std::atoi` undefined, which has no
result here. A buffer and a string are shorter than `2 ^ 63` bytes, and sums of sizes fit a
`size_t`.
-/

namespace UtilityFramework

open Text

/-- What a `log_file` is constructed with. -/
structure LogConfig where
  isCyclic : Bool
  maxBuffSize : ℕ
  maxFileSize : ℕ
  headerData : List UInt8
  linesToSkip : UInt8
  maxBuffSize_lt : maxBuffSize < 2 ^ 63
  headerData_lt : headerData.length < 2 ^ 63

/-- `log_file`. The buffers are of `maxBuffSize` bytes; a number of bytes in use is kept beside
each of the two that hold data. -/
structure LogFile where
  buffers : Fin 2 → List UInt8
  currBuff : Fin 2
  currBuffSize : ℕ
  buffToWrite : Option (Fin 2)
  buffSizeToWrite : ℕ
  currFileSize : ℕ
  isEmpty : Bool
  created : Bool
  file : FileStream

namespace LogFile

/-- `FILE_HEADER_LENGTH`. -/
def fileHeaderLength : ℕ := 21

/-- `%20lu`: a position, in at least twenty columns. -/
def posText (pos : ℕ) : List UInt8 :=
  toBytes (String.ofList (List.leftpad 20 ' ' (Nat.toDigits 10 pos)))

/-- `%20lu\n`: the line with a position. -/
def posLine (pos : ℕ) : List UInt8 := posText pos ++ [FileStream.lineFeed]

/-- `std::atoi` of a C string; `none` if the number does not fit an `int`. -/
def atoi (bytes : List UInt8) : Option ℤ :=
  (some ((Decimal.parseInteger (ofBytes bytes)).getD 0)).filter fun n => -2 ^ 31 ≤ n ∧ n < 2 ^ 31

/-- A `log_file` as it is constructed, with the file as it is. -/
def new (c : LogConfig) (content : Option (List UInt8)) : LogFile where
  buffers _ := List.replicate c.maxBuffSize 0
  currBuff := 0
  currBuffSize := 0
  buffToWrite := none
  buffSizeToWrite := 0
  currFileSize := 0
  isEmpty := true
  created := content.isSome
  file := .closed (content.getD [])

/-- `switch_buffers`. -/
def switchBuffers (c : LogConfig) (s : LogFile) : LogFile :=
  { s with
    buffToWrite := some s.currBuff
    buffSizeToWrite := s.currBuffSize
    currBuff := s.currBuff + 1
    currBuffSize := 0
    buffers := Function.update s.buffers (s.currBuff + 1) (List.replicate c.maxBuffSize 0) }

/-- Copying bytes into the active buffer. -/
def append (s : LogFile) (buffer : List UInt8) : LogFile :=
  { s with
    buffers := Function.update s.buffers s.currBuff
      (Bytes.blit (s.buffers s.currBuff) s.currBuffSize buffer)
    currBuffSize := s.currBuffSize + buffer.length }

/-- `write`: the number of bytes accepted. -/
def write (c : LogConfig) (s : LogFile) (buffer : List UInt8) : LogFile × ℕ :=
  if buffer.length = 0 ∨ c.maxBuffSize ≤ buffer.length then (s, 0)
  else if c.maxBuffSize < s.currBuffSize + buffer.length then
    -- The active buffer is full: it is switched unless the other one still waits.
    if s.buffToWrite.isSome then (s, 0) else ((s.switchBuffers c).append buffer, buffer.length)
  else (s.append buffer, buffer.length)

/-- `get_cyclic_file_curr_pos`. -/
def getCyclicFileCurrPos (f : FileStream) : Option (FileStream × ℕ) :=
  let r := (f.seekp 0).getline (fileHeaderLength - 1)
  let f := if r.1.eofbit || r.1.failbit then r.1.clear else r.1
  (atoi (untilNul r.2)).map fun n => (f, (n % 2 ^ 64).toNat)

/-- `set_cyclic_file_curr_pos`. -/
def setCyclicFileCurrPos (f : FileStream) (pos : ℕ) : FileStream × ℕ :=
  let f := (f.seekp 0).write (posLine pos)
  (f, if f.failbit then 0 else (posLine pos).length)

/-- `reposition_to_write`. -/
def repositionToWrite (s : LogFile) : Option (LogFile × ℕ) :=
  (getCyclicFileCurrPos s.file).map fun p =>
    if p.2 = 0 then
      let r := setCyclicFileCurrPos p.1 fileHeaderLength
      ({ s with file := r.1, isEmpty := true, currFileSize := fileHeaderLength }, r.2)
    else ({ s with file := p.1.seekp p.2, isEmpty := false, currFileSize := p.2 }, p.2)

/-- The loop of `restart_file`: the bytes of the lines read, `none` if there are too few
lines. -/
def skipLines (c : LogConfig) : ℕ → FileStream → ℕ → FileStream × Option ℕ
  | 0, f, bytesCount => (f, some bytesCount)
  | lines + 1, f, bytesCount =>
    let r := f.getLine
    if r.1.eofbit || r.1.failbit || c.maxFileSize < bytesCount then (r.1.clear, none)
    else skipLines c lines r.1 (bytesCount + (r.2.length + 1))

/-- `restart_file`. -/
def restartFile (c : LogConfig) (f : FileStream) (skipHeader : Bool) : FileStream × ℕ :=
  match skipLines c (if skipHeader then c.linesToSkip.toNat + 1 else 1) (f.seekp 0) 0 with
  | (f, some bytesCount) => (f.seekp bytesCount, bytesCount)
  | (f, none) => (f, 0)

/-- Opening the file in `flush`, and switching the buffers if no full one waits. -/
def prepare (c : LogConfig) (s : LogFile) : LogFile :=
  let s := { s with created := true, file := s.file.openFile }
  if s.buffToWrite = none then s.switchBuffers c else s

/-- Whether `flush` writes the header text. -/
def needsHeader (c : LogConfig) (s : LogFile) : Bool := !c.headerData.isEmpty && s.isEmpty

/-- Writing the header text in `flush`, where that is needed. -/
def writeHeader (c : LogConfig) (s : LogFile) : LogFile :=
  if s.needsHeader c then
    { s with
      file := s.file.write c.headerData
      currFileSize := s.currFileSize + c.headerData.length
      isEmpty := false }
  else s

/-- The size limit is reached. -/
def limitReached (c : LogConfig) (s : LogFile) : Bool :=
  c.maxFileSize ≤ s.currFileSize + s.buffSizeToWrite

/-- Starting a cyclic file again in `flush`. -/
def restart (c : LogConfig) (s : LogFile) : LogFile :=
  let r := restartFile c s.file true
  { s with file := r.1, currFileSize := r.2 }

/-- The bytes of the buffer that waits to be written. -/
def pending (s : LogFile) : List UInt8 :=
  match s.buffToWrite with
  | some i => (s.buffers i).take s.buffSizeToWrite
  | none => []

/-- Writing the buffer in `flush`, and the new position. -/
def writeBuffer (s : LogFile) : LogFile × Bool :=
  let f := s.file.write s.pending
  -- Every other failure closes the file, too.
  if f.failbit then ({ s with file := f.close }, false)
  else
    let pos := s.currFileSize + s.buffSizeToWrite
    ({ s with
      currFileSize := pos
      file := (setCyclicFileCurrPos f pos).1.close
      buffToWrite := none
      buffSizeToWrite := 0 }, true)

/-- The end of `flush`: the limit is tested and the buffer written. The stream stays open if a
file that is not cyclic has reached its limit. -/
def writeOut (c : LogConfig) (s : LogFile) : LogFile × Bool :=
  if s.limitReached c then
    if c.isCyclic then (s.restart c).writeBuffer else (s, false)
  else s.writeBuffer

/-- `flush`. -/
def flush (c : LogConfig) (s : LogFile) : Option (LogFile × Bool) :=
  (s.prepare c).repositionToWrite.map fun p =>
    -- `reposition_to_write` has failed
    if p.2 = 0 then (p.1, false)
    else if p.1.needsHeader c && (p.1.writeHeader c).file.failbit then
      ({ p.1.writeHeader c with file := (p.1.writeHeader c).file.close }, false)
    else (p.1.writeHeader c).writeOut c

end LogFile

end UtilityFramework
