import Mathlib.Tactic.Ring
import UtilityFramework.Lib.Bytes
import UtilityFramework.Lib.Responses
import UtilityFramework.Streams.MemoryStream

/-!
# Runs of memory streams

A `memory_stream` keeps its position and computes with it in the integers of the platform:
`size_t` for reads and writes, `int64_t` for seeks, whose sums wrap around in two's complement.
`SizedStream` is the stream in this arithmetic.

A `Cursor` is what the stream is meant to be, a byte array with a position in exact arithmetic.
On a buffer of less than `2 ^ 63` bytes, as every object is, no sum of a read or a write of less
than `2 ^ 63` bytes wraps, and a seek whose sum wraps has a target far beyond the end and a
negative index (`AtCursor.setPosition`). So the stream gives the answers of the cursor in every
run (`refines_cursor`), its position stays in the buffer, and what it reads has been stored last.
-/

namespace UtilityFramework

open Bytes Responses

/-- The operations of a stream. -/
inductive StreamOp
  | readBytes (numberOfBytesToRead : UInt64)
  | writeBytes (data : List UInt8)
  | setPosition (offset : Int64) (relativeTo : RelativePosition)
  | getPosition
  | reset (wipeData : Bool)

/-- Fewer than `2 ^ 63` bytes are to be read or written. -/
def StreamOp.Counted : StreamOp → Prop
  | .readBytes n => n.toNat < 2 ^ 63
  | .writeBytes data => data.length < 2 ^ 63
  | _ => True

instance : DecidablePred StreamOp.Counted
  | .readBytes n => inferInstanceAs (Decidable (n.toNat < 2 ^ 63))
  | .writeBytes data => inferInstanceAs (Decidable (data.length < 2 ^ 63))
  | .setPosition _ _ | .getPosition | .reset _ => .isTrue trivial

/-- What an operation answers: whether its status is `status_no_error`, and what it stores in
its parameters. -/
inductive StreamReply
  | read (noError : Bool) (stored : List UInt8) (bytesRead : ℕ)
  | written (noError : Bool) (bytesWritten : ℕ)
  | position (noError : Bool) (position : ℕ)
  | done
  deriving DecidableEq

/-! ### The stream -/

/-- `memory_stream` in the integers of the platform. -/
structure SizedStream where
  memory : ℕ → UInt8
  data : ℕ
  size : UInt64
  position : UInt64

namespace SizedStream

variable (s : SizedStream)

def readBytes (numberOfBytesToRead : UInt64) : StreamRead SizedStream :=
  if s.position + numberOfBytesToRead > s.size then ⟨false, [], 0, s⟩
  else
    ⟨true, Memory.load s.memory (s.data + s.position.toNat) numberOfBytesToRead.toNat,
      numberOfBytesToRead.toNat, { s with position := s.position + numberOfBytesToRead }⟩

def writeBytes (data : List UInt8) : StreamWrite SizedStream :=
  let numberOfBytesToWrite := UInt64.ofNat data.length
  if s.position + numberOfBytesToWrite > s.size then ⟨false, 0, s⟩
  else
    ⟨true, data.length,
      { s with
        memory := Memory.store s.memory (s.data + s.position.toNat) data
        position := s.position + numberOfBytesToWrite }⟩

/-- `set_position`; the position that is reported is that of the stream afterwards. -/
def setPosition (offset : Int64) (relativeTo : RelativePosition) : Bool × SizedStream :=
  let index : Int64 := match relativeTo with
    | .begin => 0
    | .end => s.size.toInt64
    | .current => s.position.toInt64
  let index := index + offset
  if index < 0 ∨ index.toUInt64 ≥ s.size then (false, s)
  else (true, { s with position := index.toUInt64 })

def reset (wipeData : Bool) : SizedStream :=
  { s with
    memory := if wipeData then Memory.store s.memory s.data (List.replicate s.size.toNat 0)
      else s.memory
    position := 0 }

/-- One operation and its answer. -/
def step : StreamOp → StreamReply × SizedStream
  | .readBytes n =>
    let r := s.readBytes n
    (.read r.noError r.stored r.bytesRead, r.stream)
  | .writeBytes data =>
    let w := s.writeBytes data
    (.written w.noError w.bytesWritten, w.stream)
  | .setPosition offset relativeTo =>
    let (noError, t) := s.setPosition offset relativeTo
    (.position noError t.position.toNat, t)
  | .getPosition => (.position true s.position.toNat, s)
  | .reset wipeData => (.done, s.reset wipeData)

/-- The stream with exact sums. -/
def exact : MemoryStream := ⟨s.memory, s.data, s.size.toNat, s.position.toNat⟩

end SizedStream

/-- A buffer in memory. No object has `2 ^ 63` bytes. -/
structure StreamBuffer where
  memory : ℕ → UInt8
  data : ℕ
  size : UInt64
  size_lt : size.toNat < 2 ^ 63

/-- The constructor of `memory_stream` for a buffer. -/
def StreamBuffer.stream (b : StreamBuffer) : SizedStream := ⟨b.memory, b.data, b.size, 0⟩

/-! ### The cursor -/

/-- A byte array with a position. -/
structure Cursor where
  bytes : List UInt8
  position : ℕ

namespace Cursor

variable (c : Cursor)

/-- Where a seek goes. -/
def target (offset : ℤ) : RelativePosition → ℤ
  | .begin => offset
  | .end => c.bytes.length + offset
  | .current => c.position + offset

/-- What a stream is meant to do. -/
def step : StreamOp → StreamReply × Cursor
  | .readBytes n =>
    if c.position + n.toNat ≤ c.bytes.length then
      (.read true (slice c.bytes c.position n.toNat) n.toNat,
        { c with position := c.position + n.toNat })
    else (.read false [] 0, c)
  | .writeBytes data =>
    if c.position + data.length ≤ c.bytes.length then
      (.written true data.length,
        ⟨blit c.bytes c.position data, c.position + data.length⟩)
    else (.written false 0, c)
  | .setPosition offset relativeTo =>
    let t := c.target offset.toInt relativeTo
    if 0 ≤ t ∧ t < c.bytes.length then
      (.position true t.toNat, { c with position := t.toNat })
    else (.position false c.position, c)
  | .getPosition => (.position true c.position, c)
  | .reset wipeData =>
    (.done, ⟨if wipeData then List.replicate c.bytes.length 0 else c.bytes, 0⟩)

/-- What an operation stores at a place of the array. -/
def stores : StreamOp → ℕ → Option UInt8
  | .writeBytes data, i =>
    if c.position + data.length ≤ c.bytes.length ∧ c.position ≤ i then data[i - c.position]?
    else none
  | .reset true, i => if i < c.bytes.length then some 0 else none
  | _, _ => none

/-- A place that nothing is stored at keeps its byte. -/
theorem getElem?_step (op : StreamOp) (i : ℕ) :
    (c.step op).2.bytes[i]? = (c.stores op i).or c.bytes[i]? := by
  cases op with
  | readBytes n =>
    rw [step]
    split_ifs <;> rfl
  | writeBytes data =>
    rw [step, stores]
    by_cases hfit : c.position + data.length ≤ c.bytes.length
    · rw [if_pos hfit]
      dsimp only
      rw [getElem?_blit hfit]
      by_cases hi : c.position ≤ i
      · by_cases hlt : i < c.position + data.length
        · rw [if_pos ⟨hi, hlt⟩, if_pos ⟨hfit, hi⟩, List.getElem?_eq_getElem (by omega),
            Option.some_or]
        · rw [if_neg (fun h => hlt h.2), if_pos ⟨hfit, hi⟩,
            List.getElem?_eq_none (l := data) (by omega), Option.none_or]
      · rw [if_neg (fun h => hi h.1), if_neg (fun h => hi h.2), Option.none_or]
    · rw [if_neg hfit, if_neg (fun h => hfit h.1), Option.none_or]
  | setPosition offset relativeTo =>
    rw [step]
    split_ifs <;> rfl
  | getPosition => rfl
  | reset wipeData =>
    cases wipeData with
    | false => rfl
    | true =>
      change (List.replicate c.bytes.length 0)[i]? = _
      rw [List.getElem?_replicate, stores]
      split_ifs with hi
      · rfl
      · rw [List.getElem?_eq_none (not_lt.mp hi)]
        rfl

end Cursor

/-- The bytes of the buffer. -/
def StreamBuffer.bytes (b : StreamBuffer) : List UInt8 := Memory.load b.memory b.data b.size.toNat

def StreamBuffer.cursor (b : StreamBuffer) : Cursor := ⟨b.bytes, 0⟩

/-! ### The stream behaves as the cursor -/

/-- The stream over `b` is at the cursor `c`, and has left the memory around the buffer as it
was. -/
structure AtCursor (b : StreamBuffer) (s : SizedStream) (c : Cursor) : Prop where
  data : s.data = b.data
  size : s.size = b.size
  bytes : c.bytes = Memory.load s.memory b.data b.size.toNat
  position : c.position = s.position.toNat
  position_le : s.position.toNat ≤ b.size.toNat
  outside : Memory.SameOutside b.memory s.memory b.data b.size.toNat

namespace AtCursor

variable {b : StreamBuffer} {s : SizedStream} {c : Cursor}

theorem stream (b : StreamBuffer) : AtCursor b b.stream b.cursor where
  data := rfl
  size := rfl
  bytes := rfl
  position := rfl
  position_le := Nat.zero_le _
  outside := .refl _ _ _

theorem length_bytes (h : AtCursor b s c) : c.bytes.length = b.size.toNat := by
  rw [h.bytes, Memory.length_load]

/-- No sum of the position and a count wraps. -/
theorem toNat_position_add (h : AtCursor b s c) {n : UInt64} (hn : n.toNat < 2 ^ 63) :
    (s.position + n).toNat = s.position.toNat + n.toNat := by
  have hsize := b.size_lt
  have hle := h.position_le
  rw [UInt64.toNat_add, Nat.mod_eq_of_lt (by omega)]

/-- The test of reads and writes. -/
theorem add_gt_size_iff (h : AtCursor b s c) {n : UInt64} (hn : n.toNat < 2 ^ 63) :
    s.position + n > s.size ↔ ¬c.position + n.toNat ≤ c.bytes.length := by
  rw [gt_iff_lt, UInt64.lt_iff_toNat_lt, h.toNat_position_add hn, h.size, h.position,
    h.length_bytes, not_le]

theorem readBytes (h : AtCursor b s c) {n : UInt64} (hn : n.toNat < 2 ^ 63) :
    (s.step (.readBytes n)).1 = (c.step (.readBytes n)).1 ∧
      AtCursor b (s.step (.readBytes n)).2 (c.step (.readBytes n)).2 := by
  rw [SizedStream.step, SizedStream.readBytes, Cursor.step]
  by_cases hfit : c.position + n.toNat ≤ c.bytes.length
  · rw [if_neg (mt (h.add_gt_size_iff hn).mp (not_not.mpr hfit)), if_pos hfit]
    have hle := hfit
    rw [h.length_bytes, h.position] at hle
    refine ⟨?_, h.data, h.size, h.bytes, ?_, ?_, h.outside⟩
    · rw [slice, h.bytes, h.position, Memory.take_drop_load _ _ hle, h.data]
    · rw [h.toNat_position_add hn, ← h.position]
    · rwa [h.toNat_position_add hn]
  · rw [if_pos ((h.add_gt_size_iff hn).mpr hfit), if_neg hfit]
    exact ⟨rfl, h⟩

/-- Storing inside a window of memory is storing into its bytes. -/
theorem load_store_inside (m : ℕ → UInt8) (off : ℕ) {n i : ℕ} {src : List UInt8}
    (hfit : i + src.length ≤ n) :
    Memory.load (Memory.store m (off + i) src) off n = blit (Memory.load m off n) i src := by
  have hlen : i + src.length ≤ (Memory.load m off n).length := by rwa [Memory.length_load]
  refine List.ext_getElem? fun j => ?_
  rw [getElem?_blit hlen, Memory.getElem?_load, Memory.getElem?_load, Memory.store]
  by_cases hj : j < n
  · rw [if_pos hj, if_pos hj]
    by_cases hi : i ≤ j
    · have hsub : off + j - (off + i) = j - i := by omega
      rw [if_pos (Nat.add_le_add_left hi off), hsub]
      by_cases hlt : j < i + src.length
      · rw [if_pos ⟨hi, hlt⟩, List.getElem?_eq_getElem (by omega), Option.getD_some]
      · rw [if_neg (fun h => hlt h.2), List.getElem?_eq_none (by omega), Option.getD_none]
    · rw [if_neg (by omega), if_neg (fun h => hi h.1)]
  · rw [if_neg hj, if_neg hj, if_neg (by omega)]

theorem writeBytes (h : AtCursor b s c) {data : List UInt8} (hdata : data.length < 2 ^ 63) :
    (s.step (.writeBytes data)).1 = (c.step (.writeBytes data)).1 ∧
      AtCursor b (s.step (.writeBytes data)).2 (c.step (.writeBytes data)).2 := by
  have hcount : (UInt64.ofNat data.length).toNat = data.length :=
    UInt64.toNat_ofNat_of_lt' (hdata.trans (by decide))
  have hn : (UInt64.ofNat data.length).toNat < 2 ^ 63 := hcount.symm ▸ hdata
  have htest := h.add_gt_size_iff hn
  have hsum := h.toNat_position_add hn
  rw [hcount] at htest hsum
  rw [SizedStream.step, SizedStream.writeBytes, Cursor.step]
  dsimp only
  by_cases hfit : c.position + data.length ≤ c.bytes.length
  · rw [if_neg (mt htest.mp (not_not.mpr hfit)), if_pos hfit]
    have hle := hfit
    rw [h.length_bytes, h.position] at hle
    refine ⟨rfl, h.data, h.size, ?_, ?_, ?_, ?_⟩
    · dsimp only
      rw [h.data, load_store_inside _ _ hle, h.bytes, h.position]
    · exact (hsum.trans (congrArg (· + data.length) h.position.symm)).symm
    · exact hsum.symm ▸ hle
    · dsimp only
      rw [h.data]
      exact h.outside.store (Nat.le_add_right _ _) (by omega)
  · rw [if_pos (htest.mpr hfit), if_neg hfit]
    exact ⟨rfl, h⟩

/-- Where a seek starts from. -/
theorem toInt_toInt64 {x : UInt64} (hx : x.toNat < 2 ^ 63) : x.toInt64.toInt = x.toNat := by
  have hof : x.toInt64 = Int64.ofNat x.toNat := by
    rw [← UInt64.toInt64_ofNat', UInt64.ofNat_toNat]
  rw [hof, Int64.toInt_ofNat_of_lt hx]

/-- The index of a seek that starts from `x`: where the sum wraps, it is negative. -/
theorem toInt_add_eq {x : UInt64} (hx : x.toNat < 2 ^ 63) (offset : Int64) :
    (x.toInt64 + offset).toInt =
      if x.toNat + offset.toInt < 2 ^ 63 then x.toNat + offset.toInt
      else x.toNat + offset.toInt - 2 ^ 64 := by
  have hlo := offset.le_toInt
  have hhi := offset.toInt_lt
  rw [Int64.toInt_add, toInt_toInt64 hx, Int.bmod]
  split_ifs <;> omega

/-- The test of a seek that starts from `x` is about the exact target. -/
theorem seek_iff {x size : UInt64} (hx : x.toNat < 2 ^ 63) (hsize : size.toNat < 2 ^ 63)
    (offset : Int64) :
    (x.toInt64 + offset < 0 ∨ (x.toInt64 + offset).toUInt64 ≥ size) ↔
      ¬(0 ≤ x.toNat + offset.toInt ∧ x.toNat + offset.toInt < size.toNat) := by
  have hindex := toInt_add_eq hx offset
  have hlo := offset.le_toInt
  have hhi := offset.toInt_lt
  by_cases hneg : x.toInt64 + offset < 0
  · have hneg' : (x.toInt64 + offset).toInt < 0 := Int64.lt_iff_toInt_lt.mp hneg
    refine iff_of_true (.inl hneg) ?_
    rw [hindex] at hneg'
    split_ifs at hneg' <;> omega
  · have hnonneg : 0 ≤ x.toInt64 + offset := Int64.not_lt.mp hneg
    have hnonneg' : 0 ≤ (x.toInt64 + offset).toInt := Int64.le_iff_toInt_le.mp hnonneg
    have hcast : ((x.toInt64 + offset).toUInt64.toNat : ℤ) = (x.toInt64 + offset).toInt := by
      rw [Int64.toNat_toUInt64_of_le hnonneg, Int64.cast_toNatClampNeg _ hnonneg]
    rw [or_iff_right hneg, ge_iff_le, UInt64.le_iff_toNat_le]
    rw [hindex] at hcast hnonneg'
    split_ifs at hcast hnonneg' <;> omega

/-- The index of a seek that succeeds. -/
theorem toNat_index {x : UInt64} (hx : x.toNat < 2 ^ 63) {offset : Int64}
    (hpos : 0 ≤ x.toNat + offset.toInt) (hlt : x.toNat + offset.toInt < 2 ^ 63) :
    (x.toInt64 + offset).toUInt64.toNat = (x.toNat + offset.toInt).toNat := by
  have hindex := toInt_add_eq hx offset
  rw [if_pos hlt] at hindex
  have hnonneg : 0 ≤ x.toInt64 + offset := Int64.le_iff_toInt_le.mpr (hindex.symm ▸ hpos)
  rw [Int64.toNat_toUInt64_of_le hnonneg, Int64.toNatClampNeg, hindex]

/-- A seek from `x`, which stands for the origin that the seek is relative to. -/
theorem seek (h : AtCursor b s c) {x : UInt64} (hx : x.toNat < 2 ^ 63) (offset : Int64) {t : ℤ}
    (ht : t = x.toNat + offset.toInt) :
    let r : Bool × SizedStream :=
      if x.toInt64 + offset < 0 ∨ (x.toInt64 + offset).toUInt64 ≥ s.size then (false, s)
      else (true, { s with position := (x.toInt64 + offset).toUInt64 })
    let r' : StreamReply × Cursor :=
      if 0 ≤ t ∧ t < c.bytes.length then
        (.position true t.toNat, { c with position := t.toNat })
      else (.position false c.position, c)
    StreamReply.position r.1 r.2.position.toNat = r'.1 ∧ AtCursor b r.2 r'.2 := by
  subst ht
  have hsize := b.size_lt
  have htest := seek_iff hx (h.size.symm ▸ hsize) offset
  rw [h.size, ← h.length_bytes] at htest
  dsimp only
  rw [h.size]
  by_cases hin : 0 ≤ x.toNat + offset.toInt ∧ x.toNat + offset.toInt < c.bytes.length
  · rw [if_neg (mt htest.mp (not_not.mpr hin)), if_pos hin]
    rw [h.length_bytes] at hin
    have hindex := toNat_index hx hin.1 (by omega)
    refine ⟨?_, h.data, rfl, h.bytes, hindex.symm, ?_, h.outside⟩
    · rw [hindex]
    · dsimp only
      rw [hindex]
      omega
  · rw [if_pos (htest.mpr hin), if_neg hin]
    exact ⟨congrArg (StreamReply.position false) h.position.symm, h⟩

theorem setPosition (h : AtCursor b s c) (offset : Int64) (relativeTo : RelativePosition) :
    (s.step (.setPosition offset relativeTo)).1 = (c.step (.setPosition offset relativeTo)).1 ∧
      AtCursor b (s.step (.setPosition offset relativeTo)).2
        (c.step (.setPosition offset relativeTo)).2 := by
  have hsize := b.size_lt
  have hle := h.position_le
  cases relativeTo with
  | begin => exact h.seek (x := 0) (by decide) offset (Int.zero_add _).symm
  | current =>
    exact h.seek (by omega) offset (congrArg (fun p : ℕ => p + offset.toInt) h.position)
  | «end» =>
    refine h.seek (h.size.symm ▸ hsize) offset ?_
    rw [Cursor.target, h.length_bytes, h.size]

theorem reset (h : AtCursor b s c) (wipeData : Bool) :
    AtCursor b (s.reset wipeData) (c.step (.reset wipeData)).2 := by
  cases wipeData with
  | false => exact ⟨h.data, h.size, h.bytes, rfl, Nat.zero_le _, h.outside⟩
  | true =>
    have hlen : (List.replicate s.size.toNat (0 : UInt8)).length = b.size.toNat := by
      rw [List.length_replicate, h.size]
    refine ⟨h.data, h.size, ?_, rfl, Nat.zero_le _, ?_⟩
    · change List.replicate c.bytes.length 0 = Memory.load (Memory.store _ _ _) _ _
      rw [h.data, Memory.load_store_of_length hlen, h.length_bytes, h.size]
    · change Memory.SameOutside _ (Memory.store _ _ _) _ _
      rw [h.data]
      exact h.outside.store le_rfl (by omega)

/-- **One operation.** The stream answers as the cursor does and stays at it. -/
theorem of_step (h : AtCursor b s c) {op : StreamOp} (hop : op.Counted) :
    (s.step op).1 = (c.step op).1 ∧ AtCursor b (s.step op).2 (c.step op).2 := by
  cases op with
  | readBytes n => exact h.readBytes hop
  | writeBytes data => exact h.writeBytes hop
  | setPosition offset relativeTo => exact h.setPosition offset relativeTo
  | getPosition => exact ⟨congrArg (StreamReply.position true) h.position.symm, h⟩
  | reset wipeData => exact ⟨rfl, h.reset wipeData⟩

end AtCursor

namespace AtCursor

variable {b : StreamBuffer} {s : SizedStream} {c : Cursor}

/-! ### The exact stream -/

theorem exact_readBytes (h : AtCursor b s c) {n : UInt64} (hn : n.toNat < 2 ^ 63) :
    s.exact.readBytes n.toNat =
      let r := s.readBytes n
      ⟨r.noError, r.stored, r.bytesRead, r.stream.exact⟩ := by
  have htest := h.add_gt_size_iff hn
  rw [h.position, h.length_bytes, ← h.size, not_le] at htest
  rw [SizedStream.readBytes, MemoryStream.readBytes, SizedStream.exact]
  dsimp only
  by_cases hfit : s.size.toNat < s.position.toNat + n.toNat
  · rw [if_pos hfit, if_pos (htest.mpr hfit)]
    rfl
  · rw [if_neg hfit, if_neg (mt htest.mp hfit), SizedStream.exact, h.toNat_position_add hn]

theorem exact_writeBytes (h : AtCursor b s c) {data : List UInt8}
    (hdata : data.length < 2 ^ 63) :
    s.exact.writeBytes data =
      let w := s.writeBytes data
      ⟨w.noError, w.bytesWritten, w.stream.exact⟩ := by
  have hcount : (UInt64.ofNat data.length).toNat = data.length :=
    UInt64.toNat_ofNat_of_lt' (hdata.trans (by decide))
  have hn : (UInt64.ofNat data.length).toNat < 2 ^ 63 := hcount.symm ▸ hdata
  have htest := h.add_gt_size_iff hn
  rw [hcount, h.position, h.length_bytes, ← h.size, not_le] at htest
  rw [SizedStream.writeBytes, MemoryStream.writeBytes, SizedStream.exact]
  dsimp only
  by_cases hfit : s.size.toNat < s.position.toNat + data.length
  · rw [if_pos hfit, if_pos (htest.mpr hfit)]
    rfl
  · rw [if_neg hfit, if_neg (mt htest.mp hfit), SizedStream.exact, h.toNat_position_add hn, hcount]

/-- A seek from `x` with the exact sum. -/
theorem exact_seek (h : AtCursor b s c) {x : UInt64} (hx : x.toNat < 2 ^ 63) (offset : Int64) :
    let index : ℤ := x.toNat + offset.toInt
    let r : Bool × SizedStream :=
      if x.toInt64 + offset < 0 ∨ (x.toInt64 + offset).toUInt64 ≥ s.size then (false, s)
      else (true, { s with position := (x.toInt64 + offset).toUInt64 })
    (if index < 0 ∨ s.size.toNat ≤ index.toNat then (false, s.exact)
      else (true, { s.exact with position := index.toNat })) = (r.1, r.2.exact) := by
  have hsize : s.size.toNat < 2 ^ 63 := h.size.symm ▸ b.size_lt
  have htest := seek_iff hx hsize offset
  have hexact : (x.toNat + offset.toInt < 0 ∨ s.size.toNat ≤ (x.toNat + offset.toInt).toNat) ↔
      ¬(0 ≤ x.toNat + offset.toInt ∧ x.toNat + offset.toInt < s.size.toNat) := by omega
  by_cases hin : 0 ≤ x.toNat + offset.toInt ∧ x.toNat + offset.toInt < s.size.toNat
  · have hindex := toNat_index hx hin.1 (by omega)
    dsimp only
    rw [if_neg (mt hexact.mp (not_not.mpr hin)), if_neg (mt htest.mp (not_not.mpr hin)),
      SizedStream.exact, SizedStream.exact, hindex]
  · dsimp only
    rw [if_pos (hexact.mpr hin), if_pos (htest.mpr hin)]

theorem exact_setPosition (h : AtCursor b s c) (offset : Int64)
    (relativeTo : RelativePosition) :
    s.exact.setPosition offset.toInt relativeTo =
      let r := s.setPosition offset relativeTo
      (r.1, r.2.exact) := by
  have hsize := b.size_lt
  have hle := h.position_le
  cases relativeTo with
  | begin => exact h.exact_seek (x := 0) (by decide) offset
  | current => exact h.exact_seek (x := s.position) (by omega) offset
  | «end» => exact h.exact_seek (x := s.size) (h.size.symm ▸ hsize) offset

end AtCursor

/-! ### Runs -/

/-- Every run of the stream is a run of the cursor. -/
theorem StreamBuffer.simulates (b : StreamBuffer) {ops : List StreamOp}
    (hops : ∀ op ∈ ops, op.Counted) :
    answers SizedStream.step b.stream ops = answers Cursor.step b.cursor ops ∧
      AtCursor b (after SizedStream.step b.stream ops) (after Cursor.step b.cursor ops) :=
  Responses.simulates hops (fun _ _ _ hop h => h.of_step hop) (AtCursor.stream b)

/-- A read that succeeds stores the bytes of the cursor. -/
theorem AtCursor.getElem?_stored {b : StreamBuffer} {s : SizedStream} {c : Cursor}
    (h : AtCursor b s c) {n : UInt64} (hn : n.toNat < 2 ^ 63)
    (hread : (s.readBytes n).noError = true) {i : ℕ} (hi : i < n.toNat) :
    (s.readBytes n).stored[i]? = c.bytes[s.position.toNat + i]? := by
  have hanswer := (h.readBytes hn).1
  rw [SizedStream.step, Cursor.step] at hanswer
  dsimp only at hanswer
  split_ifs at hanswer with hfit
  · injection hanswer with _ hstored _
    rw [hstored, getElem?_slice, if_pos hi, h.position]
  · injection hanswer with hfailed
    exact absurd (hread.symm.trans hfailed) Bool.false_ne_true.symm

/-- **A memory stream is a byte array with a cursor.** In every run it gives the answers of the
cursor and stays at it, and a read stores the bytes that have been stored last at their
places. -/
theorem refines_cursor (b : StreamBuffer) (ops : List StreamOp)
    (hops : ∀ op ∈ ops, op.Counted) :
    answers SizedStream.step b.stream ops = answers Cursor.step b.cursor ops ∧
      AtCursor b (after SizedStream.step b.stream ops) (after Cursor.step b.cursor ops) ∧
      ∀ n : UInt64, n.toNat < 2 ^ 63 →
        let s := after SizedStream.step b.stream ops
        (s.readBytes n).noError = true → ∀ i < n.toNat,
          (s.readBytes n).stored[i]? =
            (lastStored Cursor.step Cursor.stores (s.position.toNat + i) b.cursor ops).or
              b.bytes[s.position.toNat + i]? := by
  obtain ⟨hanswers, hafter⟩ := b.simulates hops
  refine ⟨hanswers, hafter, fun n hn => ?_⟩
  intro s hread i hi
  rw [hafter.getElem?_stored hn hread hi]
  exact get_after (fun c k => c.bytes[k]?) Cursor.getElem?_step b.cursor ops _

theorem refines_cursor_sample :
    answers SizedStream.step (StreamBuffer.stream ⟨fun _ => 9, 100, 4, by decide⟩)
        [.writeBytes [1, 2], .setPosition (-3) .end, .readBytes 2, .readBytes 2] =
      [.written true 2, .position true 1, .read true [2, 9] 2, .read false [] 0] :=
  (refines_cursor ⟨fun _ => 9, 100, 4, by decide⟩ _ (by decide)).1.trans (by decide)

end UtilityFramework
