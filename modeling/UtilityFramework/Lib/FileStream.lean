import UtilityFramework.Lib.Bytes

/-!
# File streams

A `std::fstream` that is open for reading and writing: the bytes of the file, one position for
both, and the two bits of its state. An operation on a stream that is not good does nothing, a
seek on one that has failed does not either, and opening a stream that is open makes it fail.
Writes reach the file at once. Operations other than `open` and `close` are meant for a stream
that is open.

* `getline_opened`, `getLine_opened`: reading a line that ends with LF.
* `put_append`: writing where the file goes on or ends.
* `prefix_overwrite_iff`: when overwriting changes nothing that was there.
-/

namespace UtilityFramework

/-- A file, and a stream for it. -/
structure FileStream where
  content : List UInt8
  isOpen : Bool
  eofbit : Bool
  failbit : Bool
  pos : ℕ

namespace FileStream

/-- The line feed. -/
def lineFeed : UInt8 := 10

/-- Lines with their ends. -/
def unlines (lines : List (List UInt8)) : List UInt8 :=
  lines.flatMap fun line => line ++ [lineFeed]

/-- A stream that is not open. -/
def closed (content : List UInt8) : FileStream := ⟨content, false, false, false, 0⟩

/-- A good stream that is open, at a position. -/
def opened (content : List UInt8) (pos : ℕ) : FileStream := ⟨content, true, false, false, pos⟩

/-- `good`. -/
def good (f : FileStream) : Bool := !f.eofbit && !f.failbit

/-- `clear`. -/
def clear (f : FileStream) : FileStream := { f with eofbit := false, failbit := false }

/-- `open`. -/
def openFile (f : FileStream) : FileStream :=
  if f.isOpen then { f with failbit := true }
  else { f with isOpen := true, eofbit := false, failbit := false, pos := 0 }

/-- `close`. -/
def close (f : FileStream) : FileStream :=
  if f.isOpen then { f with isOpen := false } else { f with failbit := true }

/-- `seekp` from the beginning, which fails for an offset that is negative as a signed
number. -/
def seekp (f : FileStream) (pos : ℕ) : FileStream :=
  if f.failbit then f
  else if pos < 2 ^ 63 then { f with pos := pos }
  else { f with failbit := true }

/-- The bytes from the position on. -/
def rest (f : FileStream) : List UInt8 := f.content.drop f.pos

/-- The line that starts at the position, without its end. -/
def line (f : FileStream) : List UInt8 := f.rest.takeWhile fun c => c ≠ lineFeed

/-- What reading `line` does to the stream: its end is taken off as well, or the end of the file
is noticed. -/
def afterLine (f : FileStream) : FileStream :=
  if f.line.length < f.rest.length then { f with pos := f.pos + f.line.length + 1 }
  else
    { f with pos := f.pos + f.line.length, eofbit := true, failbit := f.rest.isEmpty }

/-- `istream::getline` into a buffer of `n + 1` bytes: it fails if the line is longer. -/
def getline (f : FileStream) (n : ℕ) : FileStream × List UInt8 :=
  if f.good then
    if f.line.length ≤ n then (f.afterLine, f.line)
    else ({ f with pos := f.pos + n, failbit := true }, f.line.take n)
  else ({ f with failbit := true }, [])

/-- `std::getline` into a string. -/
def getLine (f : FileStream) : FileStream × List UInt8 :=
  if f.good then (f.afterLine, f.line) else ({ f with failbit := true }, [])

/-- Overwriting a file from a position on. A gap behind its end is filled with zeros. -/
def put (content : List UInt8) (pos : ℕ) (bytes : List UInt8) : List UInt8 :=
  if bytes.isEmpty then content
  else Bytes.blit (content ++ List.replicate (pos - content.length) 0) pos bytes

/-- `write`. -/
def write (f : FileStream) (bytes : List UInt8) : FileStream :=
  if f.good then
    { f with content := put f.content f.pos bytes, pos := f.pos + bytes.length }
  else f

/-! ### Overwriting -/

theorem put_of_le {content : List UInt8} {pos : ℕ} (h : pos ≤ content.length)
    (bytes : List UInt8) : put content pos bytes = Bytes.blit content pos bytes := by
  rw [put]
  split_ifs with hb
  · rw [List.isEmpty_iff] at hb
    rw [hb, Bytes.blit, List.append_nil, List.length_nil, Nat.add_zero, List.take_append_drop]
  · rw [Nat.sub_eq_zero_of_le h, List.replicate_zero, List.append_nil]

/-- Overwriting the end of a file. -/
theorem put_append (front tail bytes : List UInt8) :
    put (front ++ tail) front.length bytes = front ++ (bytes ++ tail.drop bytes.length) := by
  rw [put_of_le (by rw [List.length_append]; exact Nat.le_add_right _ _), Bytes.blit,
    List.take_left, List.drop_append, List.drop_eq_nil_of_le (Nat.le_add_right _ _),
    Nat.add_sub_cancel_left, List.nil_append, List.append_assoc]

/-- Overwriting the beginning of a file by as many bytes. -/
theorem put_front {front bytes : List UInt8} (h : bytes.length = front.length)
    (tail : List UInt8) : put (front ++ tail) 0 bytes = bytes ++ tail := by
  have hput := put_append [] (front ++ tail) bytes
  rwa [List.nil_append, List.length_nil, List.nil_append, h, List.drop_left] at hput

/-- The bytes agree with those of the list from its beginning on. -/
def Agrees (bytes tail : List UInt8) : Prop :=
  ∀ i, i < bytes.length → i < tail.length → bytes[i]? = tail[i]?

theorem agrees_nil_right (bytes : List UInt8) : Agrees bytes [] :=
  fun _ _ h => absurd h (Nat.not_lt_zero _)

theorem agrees_of_prefix {bytes tail : List UInt8} (h : bytes <+: tail) : Agrees bytes tail := by
  intro i hb _
  rw [List.prefix_iff_getElem?.mp h i hb, List.getElem?_eq_getElem hb]

/-- Overwriting a list from its beginning on extends it precisely if the bytes agree. -/
theorem prefix_overwrite_iff (bytes tail : List UInt8) :
    tail <+: bytes ++ tail.drop bytes.length ↔ Agrees bytes tail := by
  rw [List.prefix_iff_getElem?]
  constructor
  · intro h i hb ht
    have := h i ht
    rw [List.getElem?_append_left hb] at this
    rw [this, List.getElem?_eq_getElem ht]
  · intro h i ht
    rcases Nat.lt_or_ge i bytes.length with hb | hb
    · rw [List.getElem?_append_left hb, h i hb ht, List.getElem?_eq_getElem ht]
    · rw [List.getElem?_append_right hb, List.getElem?_drop, Nat.add_sub_cancel' hb,
        List.getElem?_eq_getElem ht]

/-! ### Lines -/

theorem unlines_cons (line : List UInt8) (lines : List (List UInt8)) :
    unlines (line :: lines) = line ++ lineFeed :: unlines lines := by
  rw [unlines, List.flatMap_cons, List.append_assoc]
  rfl

theorem length_unlines_cons (line : List UInt8) (lines : List (List UInt8)) :
    (unlines (line :: lines)).length = line.length + 1 + (unlines lines).length := by
  rw [unlines_cons, List.length_append, List.length_cons]
  omega

/-! ### Operations on a good stream -/

section Opened

variable (content : List UInt8) (pos : ℕ)

@[simp] theorem good_opened : (opened content pos).good = true := rfl

@[simp] theorem failbit_opened : (opened content pos).failbit = false := rfl

@[simp] theorem write_opened (bytes : List UInt8) :
    (opened content pos).write bytes =
      opened (put content pos bytes) (pos + bytes.length) := rfl

theorem seekp_opened {pos' : ℕ} (h : pos' < 2 ^ 63) :
    (opened content pos).seekp pos' = opened content pos' := by
  rw [seekp, failbit_opened, if_neg Bool.false_ne_true, if_pos h]
  rfl

end Opened

section Lines

variable {before text tail : List UInt8}

theorem line_opened (hline : lineFeed ∉ text) :
    (opened (before ++ (text ++ lineFeed :: tail)) before.length).line = text := by
  rw [line, rest, opened, List.drop_left, List.takeWhile_append_of_pos,
    List.takeWhile_cons_of_neg (by simp), List.append_nil]
  exact fun c hc => decide_eq_true fun heq => hline (heq ▸ hc)

theorem afterLine_opened (hline : lineFeed ∉ text) :
    (opened (before ++ (text ++ lineFeed :: tail)) before.length).afterLine =
      opened (before ++ (text ++ lineFeed :: tail)) (before.length + text.length + 1) := by
  rw [afterLine, line_opened hline, if_pos]
  · rfl
  · rw [rest, opened, List.drop_left, List.length_append, List.length_cons]
    omega

/-- Reading a line that ends with LF and fits the buffer. -/
theorem getline_opened (hline : lineFeed ∉ text) {n : ℕ} (hn : text.length ≤ n)
    (before tail : List UInt8) :
    (opened (before ++ (text ++ lineFeed :: tail)) before.length).getline n =
      (opened (before ++ (text ++ lineFeed :: tail)) (before.length + text.length + 1), text) := by
  rw [getline, if_pos (good_opened _ _), line_opened hline, if_pos hn, afterLine_opened hline]

/-- Reading a line that ends with LF. -/
theorem getLine_opened (hline : lineFeed ∉ text) (before tail : List UInt8) :
    (opened (before ++ (text ++ lineFeed :: tail)) before.length).getLine =
      (opened (before ++ (text ++ lineFeed :: tail)) (before.length + text.length + 1), text) := by
  rw [getLine, if_pos (good_opened _ _), line_opened hline, afterLine_opened hline]

end Lines

end FileStream

end UtilityFramework
