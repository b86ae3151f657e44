import UtilityFramework.Streams.MemoryStream
import UtilityFramework.Video.Frame

/-!
# The serializer of frames

`frame_binary_serializer` writes the frame it has to a stream or into a buffer, and reads a
frame from a stream. A serialized frame is a header, `image_params`, `display_params`,
`video_params` and an offset, and the bytes of the image as many bytes behind the header as the
offset says.

`deserialize` gives up the frame that the serializer has, but reads the image of the new one
into its buffer, if that is large enough and is not referenced elsewhere. So `FrameStore` has
the serializer together with the frames and buffers that it has made or been given, and what
its clients hold of them. A buffer counts its references: the frames that are alive and have
it, the clients that hold it and others that neither are.
-/

namespace UtilityFramework

/-! ### Writing -/

/-- The number of bytes of the header. -/
def headerBytes : ℕ :=
  Codec.imageParams.size + Codec.displayParams.size + Codec.videoParams.size +
    Codec.uint32.size

example : headerBytes = 76 := rfl

/-- `frame_binary_serializer` as one that writes: `m_frame` and `m_data_alignment`. -/
structure FrameWriter where
  frame : Option FrameInterface
  dataAlignment : UInt32

/-- `std::align`, for an alignment that is a power of two and an address that is not zero. -/
def stdAlign (alignment size ptr space : ℕ) : Option ℕ :=
  let aligned := (ptr - 1 + alignment) &&& (2 ^ 64 - alignment)
  if size ≤ space ∧ aligned - ptr ≤ space - size then some aligned else none

namespace FrameWriter

variable (w : FrameWriter)

def dataSize : ℕ :=
  match w.frame with
  | none => 0
  | some frame =>
    match frame.queryBuffer, frame.queryImageParams, frame.queryDisplayParams,
      frame.queryVideoParams with
    | some _, some imageParams, some _, some _ =>
      headerBytes + w.dataAlignment.toNat + imageParams.size.toNat
    | _, _, _, _ => 0

/-- `serialize` to a stream. -/
def serialize {σ : Type} (i : StreamInterface σ) (stream : σ) : Bool × σ :=
  match w.frame with
  | none => (false, stream)
  | some frame =>
    match frame.queryBuffer, frame.queryImageParams, frame.queryDisplayParams,
      frame.queryVideoParams with
    | some buffer, some imageParams, some displayParams, some videoParams =>
      if imageParams.size = 0 then (false, stream)
      else
        let image := i.writeObject .imageParams stream imageParams
        if !image.1 then (false, image.2)
        else
          let display := i.writeObject .displayParams image.2 displayParams
          if !display.1 then (false, display.2)
          else
            let video := i.writeObject .videoParams display.2 videoParams
            if !video.1 then (false, video.2)
            else
              let offset := i.writeObject .uint32 video.2 0
              if !offset.1 then (false, offset.2)
              else
                let bytes := i.writeBytes offset.2 (buffer.take imageParams.size.toNat)
                (bytes.noError && bytes.bytesWritten == imageParams.size.toNat, bytes.stream)
    | _, _, _, _ => (false, stream)

/-- `serialize` into the `size` bytes at `data` of a memory. -/
def serializeBuffer (memory : ℕ → UInt8) (data size : ℕ) : Bool × (ℕ → UInt8) :=
  match w.frame with
  | none => (false, memory)
  | some frame =>
    match frame.queryBuffer with
    | none => (false, memory)
    | some dataBuffer =>
      if size < Codec.imageParams.size then (false, memory)
      else
        match frame.queryImageParams with
        | none => (false, memory)
        | some imageParams =>
          let memory := Memory.store memory data (Codec.imageParams.encode imageParams)
          let pos := data + Codec.imageParams.size
          let dataSize := imageParams.size.toNat
          if imageParams.size = 0 then (false, memory)
          else if size < headerBytes + w.dataAlignment.toNat + dataSize then (false, memory)
          else
            match frame.queryDisplayParams with
            | none => (false, memory)
            | some displayParams =>
              let memory := Memory.store memory pos (Codec.displayParams.encode displayParams)
              let pos := pos + Codec.displayParams.size
              match frame.queryVideoParams with
              | none => (false, memory)
              | some videoParams =>
                let memory := Memory.store memory pos (Codec.videoParams.encode videoParams)
                let pos := pos + Codec.videoParams.size
                let unalignedPtr := pos + Codec.uint32.size
                let alignedPtr :=
                  if 0 < w.dataAlignment then
                    stdAlign w.dataAlignment.toNat dataSize unalignedPtr
                      (data + size - unalignedPtr)
                  else some unalignedPtr
                match alignedPtr with
                | none => (false, memory)
                | some alignedPtr =>
                  let dataOffset := UInt32.ofNat (alignedPtr - unalignedPtr)
                  let memory := Memory.store memory pos (Codec.uint32.encode dataOffset)
                  let pos := pos + (Codec.uint32.size + dataOffset.toNat)
                  (true, Memory.store memory pos (dataBuffer.take dataSize))

end FrameWriter

/-! ### Reading -/

/-- The header of a serialized frame. -/
structure FrameHeader where
  image : ImageParams
  display : DisplayParams
  video : VideoParams
  deriving DecidableEq

/-- The first part of `deserialize`, up to the beginning of the image. -/
def readHeader {σ : Type} (i : StreamInterface σ) (stream : σ) : Option FrameHeader × σ :=
  match i.readObject .imageParams stream with
  | (none, stream) => (none, stream)
  | (some image, stream) =>
    if image.size = 0 then (none, stream)
    else
      match i.readObject .displayParams stream with
      | (none, stream) => (none, stream)
      | (some display, stream) =>
        match i.readObject .videoParams stream with
        | (none, stream) => (none, stream)
        | (some video, stream) =>
          match i.readObject .uint32 stream with
          | (none, stream) => (none, stream)
          | (some offset, stream) =>
            let stream :=
              if 0 < offset then (i.setPosition stream offset.toNat .current).2 else stream
            (some ⟨image, display, video⟩, stream)

/-- A buffer: its bytes, and the number of references to it that neither frames nor clients
hold. -/
structure StoredBuffer where
  data : List UInt8
  others : ℕ
  deriving DecidableEq

/-- A frame, with the number of its buffer; `others` is the number of references to it that
neither the serializer nor its clients hold. -/
structure StoredFrame where
  header : FrameHeader
  buffer : ℕ
  others : ℕ
  deriving DecidableEq

/-- A reference that a client has to a frame, and what the client has seen of the frame when it
got it. -/
structure HeldFrame where
  frame : ℕ
  seen : Option FrameView
  deriving DecidableEq

/-- What `allocate` of the allocator does: it fails, makes a buffer, or gives out one that it
has given out before. -/
inductive Allocation
  | failed
  | fresh (buffer : StoredBuffer)
  | pooled (buffer : ℕ)

/-- `frame_binary_serializer` as one that reads, with the frames and buffers there are and what
clients hold. -/
structure FrameStore where
  frame : Option ℕ
  hasAllocator : Bool
  frames : List StoredFrame
  buffers : List StoredBuffer
  heldFrames : List HeldFrame
  heldBuffers : List ℕ
  deriving DecidableEq

namespace FrameStore

/-- The constructor from an allocator. -/
def ofAllocator (hasAllocator : Bool) : FrameStore := ⟨none, hasAllocator, [], [], [], []⟩

/-- The constructor from a frame. -/
def ofFrame (header : FrameHeader) (others : ℕ) (buffer : StoredBuffer) : FrameStore :=
  ⟨some 0, false, [⟨header, 0, others⟩], [buffer], [], []⟩

variable (s : FrameStore)

/-- The queries of a frame. -/
def interface (i : ℕ) : Option FrameInterface :=
  s.frames[i]?.map fun f => {
    queryImageParams := some f.header.image
    queryDisplayParams := some f.header.display
    queryVideoParams := some f.header.video
    queryBuffer := s.buffers[f.buffer]?.map StoredBuffer.data }

/-- What a client sees of a frame. -/
def view (i : ℕ) : Option FrameView := (s.interface i).bind FrameInterface.view

/-- What a client sees of a frame whose buffer has the bytes. -/
def viewOf (f : StoredFrame) (bytes : List UInt8) : FrameView :=
  ⟨f.header.image, f.header.display, f.header.video, bytes.take f.header.image.size.toNat⟩

variable {s} in
theorem view_eq {k : ℕ} {f : StoredFrame} {buffer : StoredBuffer} (hf : s.frames[k]? = some f)
    (hb : s.buffers[f.buffer]? = some buffer) : s.view k = some (viewOf f buffer.data) := by
  rw [view, interface, hf, Option.map_some, hb]
  rfl

/-- Somebody holds a reference to the frame. -/
def Alive (i : ℕ) : Prop :=
  s.frame = some i ∨ (∃ h ∈ s.heldFrames, h.frame = i) ∨ ∃ f ∈ s.frames[i]?, 0 < f.others

instance (i : ℕ) : Decidable (s.Alive i) := inferInstanceAs (Decidable (_ ∨ _ ∨ _))

/-- The frame is alive and has the buffer. -/
def References (b i : ℕ) : Prop := s.Alive i ∧ ∃ f ∈ s.frames[i]?, f.buffer = b

instance (b i : ℕ) : Decidable (s.References b i) := inferInstanceAs (Decidable (_ ∧ _))

/-- The references of frames and clients to a buffer. -/
def uses (b : ℕ) : ℕ :=
  (List.range s.frames.length).countP (fun i => s.References b i) + s.heldBuffers.count b

/-- `ref_count` of a buffer. -/
def refCount (b : ℕ) : ℕ := s.uses b + (s.buffers[b]?.map StoredBuffer.others).getD 0

/-- The buffer into which `deserialize` reads an image of `size` bytes instead of a new one,
if there is one. `query_buffer` has added a reference of its own when the others are counted. -/
def recycled (size : ℕ) : Option ℕ :=
  s.frame.bind fun i =>
  s.frames[i]?.bind fun f =>
  s.buffers[f.buffer]?.bind fun buffer =>
  if s.refCount f.buffer + 1 > 2 ∨ buffer.data.length < size then none else some f.buffer

/-- The buffer that replaces one that is not recycled; `none` if the answer of the allocator is
not one that an allocator gives: the buffer is too short, or somebody uses it. -/
def allocate (size : ℕ) (answer : Allocation) : Option (Option ℕ × FrameStore) :=
  if s.hasAllocator then
    match answer with
    | .failed => some (none, s)
    | .fresh buffer =>
      if size ≤ buffer.data.length then
        some (some s.buffers.length, { s with buffers := s.buffers ++ [buffer] })
      else none
    | .pooled b =>
      s.buffers[b]?.bind fun buffer =>
      if s.uses b = 0 ∧ size ≤ buffer.data.length then some (some b, s) else none
  else
    some (some s.buffers.length,
      { s with buffers := s.buffers ++ [⟨List.replicate size 0, 0⟩] })

/-- Storing bytes at the beginning of a buffer. -/
def overwrite (b : ℕ) (bytes : List UInt8) : FrameStore :=
  { s with buffers := s.buffers.modify b fun buffer =>
      { buffer with data := Bytes.blit buffer.data 0 bytes } }

/-- The last part of `deserialize`: reading the image into a buffer and making the frame. -/
def readImage {σ : Type} (i : StreamInterface σ) (stream : σ) (header : FrameHeader) (b : ℕ) :
    Bool × FrameStore :=
  let r := i.readBytes stream header.image.size.toNat
  let s := s.overwrite b r.stored
  if r.noError ∧ r.bytesRead = header.image.size.toNat then
    (true, { s with
      frame := some s.frames.length
      frames := s.frames ++ [⟨header, b, 0⟩] })
  else (false, s)

/-- The serializer gives up its frame. -/
def released : FrameStore := { s with frame := none }

/-- `deserialize`; `answer` is what the allocator does if it is asked. -/
def deserialize {σ : Type} (i : StreamInterface σ) (stream : σ) (answer : Allocation) :
    Option (Bool × FrameStore) :=
  match readHeader i stream with
  | (none, _) => some (false, s)
  | (some header, stream) =>
    match s.recycled header.image.size.toNat with
    | some b => some (s.released.readImage i stream header b)
    | none =>
      match s.released.allocate header.image.size.toNat answer with
      | none => none
      | some (none, s) => some (false, s)
      | some (some b, s) => some (s.readImage i stream header b)

/-- `query_frame` of a serializer that has a frame. -/
def queryFrame : Option FrameStore :=
  s.frame.map fun i => { s with heldFrames := s.heldFrames ++ [⟨i, s.view i⟩] }

/-- `query_buffer` of a frame that a client holds. -/
def queryBuffer (k : ℕ) : Option FrameStore :=
  s.heldFrames[k]?.bind fun h =>
  s.frames[h.frame]?.map fun f => { s with heldBuffers := s.heldBuffers ++ [f.buffer] }

/-- `release` of a frame by a client. -/
def releaseFrame (k : ℕ) : FrameStore := { s with heldFrames := s.heldFrames.eraseIdx k }

/-- `release` of a buffer by a client. -/
def releaseBuffer (k : ℕ) : FrameStore := { s with heldBuffers := s.heldBuffers.eraseIdx k }

end FrameStore

/-! ### Reading without a copy -/

/-- A buffer in memory: where its bytes are. -/
structure MemoryRange where
  data : ℕ
  size : ℕ
  inside : data + size ≤ 2 ^ 64

/-- A `memory_stream` at the beginning of a buffer. -/
def MemoryRange.stream (r : MemoryRange) (memory : ℕ → UInt8) : MemoryStream :=
  ⟨memory, r.data, r.size, 0⟩

/-- `shared_memory_zero_copy_frame`, with the memory that holds its buffer. -/
structure ZeroCopyFrame where
  memory : ℕ → UInt8
  buffer : Option MemoryRange

namespace ZeroCopyFrame

variable (z : ZeroCopyFrame)

def queryImageParams : Option ImageParams :=
  z.buffer.map fun r =>
    Codec.imageParams.decode (Memory.load z.memory r.data Codec.imageParams.size)

def queryDisplayParams : Option DisplayParams :=
  z.buffer.map fun r => Codec.displayParams.decode
    (Memory.load z.memory (r.data + Codec.imageParams.size) Codec.displayParams.size)

def queryVideoParams : Option VideoParams :=
  z.buffer.map fun r => Codec.videoParams.decode (Memory.load z.memory
    (r.data + Codec.imageParams.size + Codec.displayParams.size) Codec.videoParams.size)

/-- The buffer that `query_buffer` gives, as the address and the number of its bytes. The
constructor of `ref_count_relative_buffer` throws if they are not inside the source. -/
def queryBuffer : Option (ℕ × ℕ) :=
  z.buffer.bind fun r =>
  z.queryImageParams.bind fun image =>
  let alignmentOffset := Codec.uint32.decode (Memory.load z.memory
    (r.data + Codec.imageParams.size + Codec.displayParams.size + Codec.videoParams.size)
    Codec.uint32.size)
  let dataOffset := headerBytes + alignmentOffset.toNat
  if image.size = 0 then none
  else if dataOffset + image.size.toNat > r.size then none
  else some (r.data + dataOffset, image.size.toNat)

def interface : FrameInterface where
  queryImageParams := z.queryImageParams
  queryDisplayParams := z.queryDisplayParams
  queryVideoParams := z.queryVideoParams
  queryBuffer := z.queryBuffer.map fun b => Memory.load z.memory b.1 b.2

end ZeroCopyFrame

/-! ### Calls -/

/-- The calls of the clients of a serializer. Every call of `deserialize` has its own stream, of
any kind. -/
inductive FrameCall
  | deserialize {σ : Type} (i : StreamInterface σ) (stream : σ) (answer : Allocation)
  | queryFrame
  | queryBuffer (k : ℕ)
  | releaseFrame (k : ℕ)
  | releaseBuffer (k : ℕ)

namespace FrameStore

def step (s : FrameStore) : FrameCall → Option FrameStore
  | .deserialize i stream answer => (s.deserialize i stream answer).map Prod.snd
  | .queryFrame => s.queryFrame
  | .queryBuffer k => s.queryBuffer k
  | .releaseFrame k => some (s.releaseFrame k)
  | .releaseBuffer k => some (s.releaseBuffer k)

end FrameStore

end UtilityFramework
