import UtilityFramework.Lib.Memory
import UtilityFramework.Lib.Codec

/-!
# Streams

`stream_interface`, as those use it who are given a stream, and the `memory_stream`, which
reads and writes a buffer in memory.

* `MemoryStream.readObject_eq`, `MemoryStream.writeObject_eq`: what a stream over a buffer does
  when the object fits.
* `MemoryStream.setPosition_current`: a position inside the buffer is reached.
-/

namespace UtilityFramework

/-- `relative_position`. -/
inductive RelativePosition
  | begin
  | current
  | end
  deriving DecidableEq

/-- What `read_bytes` does: whether its status is `status_no_error`, the bytes that it stores
from the pointer on which it is given, and the number that it reports. -/
structure StreamRead (σ : Type) where
  noError : Bool
  stored : List UInt8
  bytesRead : ℕ
  stream : σ

/-- What `write_bytes` does. -/
structure StreamWrite (σ : Type) where
  noError : Bool
  bytesWritten : ℕ
  stream : σ

/-- `stream_interface`. No more bytes are stored than have been asked for. -/
structure StreamInterface (σ : Type) where
  readBytes : σ → ℕ → StreamRead σ
  writeBytes : σ → List UInt8 → StreamWrite σ
  setPosition : σ → ℤ → RelativePosition → Bool × σ
  length_stored_le : ∀ s n, (readBytes s n).stored.length ≤ n

namespace StreamInterface

variable {σ : Type} {α : Type*} (i : StreamInterface σ)

/-- `read_object` into an object whose bytes are zero; `none` for a status that is an error. -/
def readObject (p : Codec α) (s : σ) : Option α × σ :=
  let r := i.readBytes s p.size
  (if r.noError ∧ r.bytesRead = p.size then
    some (p.decode (Bytes.blit (List.replicate p.size 0) 0 r.stored))
  else none, r.stream)

/-- `write_object`: whether the status is `status_no_error`. -/
def writeObject (p : Codec α) (s : σ) (value : α) : Bool × σ :=
  let w := i.writeBytes s (p.encode value)
  (w.noError && w.bytesWritten == p.size, w.stream)

end StreamInterface

/-- `memory_stream`, with the memory that holds its buffer: `data` is where the buffer starts. -/
structure MemoryStream where
  memory : ℕ → UInt8
  data : ℕ
  size : ℕ
  position : ℕ

namespace MemoryStream

def readBytes (s : MemoryStream) (numberOfBytesToRead : ℕ) : StreamRead MemoryStream :=
  if s.position + numberOfBytesToRead > s.size then ⟨false, [], 0, s⟩
  else
    ⟨true, Memory.load s.memory (s.data + s.position) numberOfBytesToRead, numberOfBytesToRead,
      { s with position := s.position + numberOfBytesToRead }⟩

def writeBytes (s : MemoryStream) (data : List UInt8) : StreamWrite MemoryStream :=
  if s.position + data.length > s.size then ⟨false, 0, s⟩
  else
    ⟨true, data.length,
      { s with
        memory := Memory.store s.memory (s.data + s.position) data
        position := s.position + data.length }⟩

def setPosition (s : MemoryStream) (offset : ℤ) (relativeTo : RelativePosition) :
    Bool × MemoryStream :=
  let index : ℤ := match relativeTo with
    | .begin => 0
    | .end => s.size
    | .current => s.position
  let index := index + offset
  if index < 0 ∨ s.size ≤ index.toNat then (false, s)
  else (true, { s with position := index.toNat })

/-- `memory_stream` as a `stream_interface`. -/
def interface : StreamInterface MemoryStream where
  readBytes := readBytes
  writeBytes := writeBytes
  setPosition := setPosition
  length_stored_le s n := by
    rw [readBytes]
    split_ifs
    · exact Nat.zero_le n
    · exact (Memory.length_load _ _ _).le

variable {α : Type*} (p : Codec α) (memory : ℕ → UInt8) {data size position : ℕ}

theorem readBytes_eq {n : ℕ} (h : position + n ≤ size) :
    interface.readBytes ⟨memory, data, size, position⟩ n =
      ⟨true, Memory.load memory (data + position) n, n, ⟨memory, data, size, position + n⟩⟩ :=
  if_neg (not_lt.mpr h)

theorem writeBytes_eq {bytes : List UInt8} (h : position + bytes.length ≤ size) :
    interface.writeBytes ⟨memory, data, size, position⟩ bytes =
      ⟨true, bytes.length, Memory.store memory (data + position) bytes, data, size,
        position + bytes.length⟩ := if_neg (not_lt.mpr h)

theorem readObject_eq (h : position + p.size ≤ size) :
    interface.readObject p ⟨memory, data, size, position⟩ =
      (some (p.decode (Memory.load memory (data + position) p.size)),
        ⟨memory, data, size, position + p.size⟩) := by
  rw [StreamInterface.readObject, readBytes_eq memory h]
  -- the object is overwritten as a whole
  have hdrop : (List.replicate p.size (0 : UInt8)).drop p.size = [] :=
    List.drop_eq_nil_of_le (by rw [List.length_replicate])
  simp only [Bytes.blit_zero, Memory.length_load, hdrop, List.append_nil, and_self, if_true]

theorem writeObject_eq (value : α) (h : position + p.size ≤ size) :
    interface.writeObject p ⟨memory, data, size, position⟩ value =
      (true, ⟨Memory.store memory (data + position) (p.encode value), data, size,
        position + p.size⟩) := by
  have hlen : position + (p.encode value).length ≤ size := by rwa [p.length_encode]
  rw [StreamInterface.writeObject, writeBytes_eq memory hlen]
  simp only [p.length_encode, beq_self_eq_true, Bool.and_self]

/-- A position inside the buffer is reached. -/
theorem setPosition_current {offset : ℕ} (h : position + offset < size) :
    interface.setPosition ⟨memory, data, size, position⟩ offset .current =
      (true, ⟨memory, data, size, position + offset⟩) := by
  have hindex : ((position : ℤ) + offset).toNat = position + offset := by omega
  simp only [interface, setPosition, hindex]
  rw [if_neg (by omega)]

end MemoryStream

end UtilityFramework
