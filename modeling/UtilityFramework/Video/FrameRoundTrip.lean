import UtilityFramework.Video.FrameSerializer

/-!
# Serialized frames are read back

Both ways to serialize a frame leave it in memory as `SerializedAt` says: the stream with the
image right behind the header, the buffer with the image at the first aligned address
(`serialize_eq`, `serializeBuffer_eq`). Whatever the offset of the image is, both ways to read
it find it there (`deserialize_of_serializedAt`, `view_of_serializedAt`).

`round_trip` puts them together, for every target that has room for `data_size` bytes.
-/

namespace UtilityFramework

open Memory

/-! ### The layout -/

@[simp] theorem size_imageParams : Codec.imageParams.size = 16 := rfl

@[simp] theorem size_displayParams : Codec.displayParams.size = 40 := rfl

@[simp] theorem size_videoParams : Codec.videoParams.size = 16 := rfl

@[simp] theorem size_uint32 : Codec.uint32.size = 4 := rfl

@[simp] theorem headerBytes_eq : headerBytes = 76 := rfl

theorem length_imageParams (p : ImageParams) : (Codec.imageParams.encode p).length = 16 :=
  Codec.length_encode _ p

theorem length_displayParams (p : DisplayParams) :
    (Codec.displayParams.encode p).length = 40 := Codec.length_encode _ p

theorem length_videoParams (p : VideoParams) : (Codec.videoParams.encode p).length = 16 :=
  Codec.length_encode _ p

theorem length_uint32 (v : UInt32) : (Codec.uint32.encode v).length = 4 :=
  Codec.length_encode _ v

/-- The memory has a serialized frame at an address. -/
structure SerializedAt (memory : ℕ → UInt8) (data : ℕ) (header : FrameHeader) (offset : UInt32)
    (bytes : List UInt8) : Prop where
  image : load memory data 16 = Codec.imageParams.encode header.image
  display : load memory (data + 16) 40 = Codec.displayParams.encode header.display
  video : load memory (data + 56) 16 = Codec.videoParams.encode header.video
  dataOffset : load memory (data + 72) 4 = Codec.uint32.encode offset
  imageBytes : load memory (data + (76 + offset.toNat)) header.image.size.toNat = bytes

/-- The memory after the parts of a frame have been stored one after the other. -/
def storeFrame (memory : ℕ → UInt8) (data : ℕ) (header : FrameHeader) (offset : UInt32)
    (bytes : List UInt8) : ℕ → UInt8 :=
  let memory := store memory data (Codec.imageParams.encode header.image)
  let memory := store memory (data + 16) (Codec.displayParams.encode header.display)
  let memory := store memory (data + 56) (Codec.videoParams.encode header.video)
  let memory := store memory (data + 72) (Codec.uint32.encode offset)
  store memory (data + (76 + offset.toNat)) bytes

section StoreFrame

variable (memory : ℕ → UInt8) (data : ℕ) (header : FrameHeader) (offset : UInt32)
  {bytes : List UInt8}

theorem serializedAt_storeFrame (h : bytes.length = header.image.size.toNat) :
    SerializedAt (storeFrame memory data header offset bytes) data header offset bytes where
  image := by
    rw [storeFrame, load_store_of_le (by omega), load_store_of_le (by omega),
      load_store_of_le (by omega), load_store_of_le (by omega),
      load_store_of_length (length_imageParams _)]
  display := by
    rw [storeFrame, load_store_of_le (by omega), load_store_of_le (by omega),
      load_store_of_le (by omega), load_store_of_length (length_displayParams _)]
  video := by
    rw [storeFrame, load_store_of_le (by omega), load_store_of_le (by omega),
      load_store_of_length (length_videoParams _)]
  dataOffset := by
    rw [storeFrame, load_store_of_le (by omega), load_store_of_length (length_uint32 _)]
  imageBytes := by
    rw [storeFrame, load_store_of_length h]

theorem sameOutside_storeFrame {n : ℕ} (h : 76 + offset.toNat + bytes.length ≤ n) :
    SameOutside memory (storeFrame memory data header offset bytes) data n := by
  have himage := length_imageParams header.image
  have hdisplay := length_displayParams header.display
  have hvideo := length_videoParams header.video
  have hoffset := length_uint32 offset
  refine SameOutside.store (SameOutside.store (SameOutside.store (SameOutside.store
    (SameOutside.store (SameOutside.refl memory data n) ?_ ?_) ?_ ?_) ?_ ?_) ?_ ?_) ?_ ?_
  all_goals omega

end StoreFrame

/-! ### Writing -/

def FrameBase.header (f : FrameBase) : FrameHeader :=
  ⟨f.imageParams, f.displayParams, f.videoParams⟩

/-- The bytes of the image. -/
def FrameBase.image (f : FrameBase) : List UInt8 := f.buffer.take f.imageParams.size.toNat

section Writing

variable {f : FrameBase} {alignment : UInt32} {memory : ℕ → UInt8} {r : MemoryRange}

theorem serialize_eq (hpos : f.imageParams.size ≠ 0)
    (hbuffer : f.imageParams.size.toNat ≤ f.buffer.length)
    (hfit : 76 + f.imageParams.size.toNat ≤ r.size) :
    (FrameWriter.mk (some f.interface) alignment).serialize MemoryStream.interface
        (r.stream memory) =
      (true, ⟨storeFrame memory r.data f.header 0 f.image, r.data, r.size,
        76 + f.imageParams.size.toNat⟩) := by
  have hwrite : 76 + (f.buffer.take f.imageParams.size.toNat).length ≤ r.size := by
    rwa [List.length_take_of_le hbuffer]
  simp only [FrameWriter.serialize, FrameBase.interface, if_neg hpos, MemoryRange.stream]
  simp (disch := simp only [size_imageParams, size_displayParams, size_videoParams,
    size_uint32]; omega) only [MemoryStream.writeObject_eq, MemoryStream.writeBytes_eq,
    Bool.not_true, Bool.false_eq_true, if_false]
  rw [List.length_take_of_le hbuffer, beq_self_eq_true]
  rfl

/-- The first aligned address, if there is room up to the next one behind the object. -/
theorem stdAlign_eq_some {a : ℕ} (size ptr space : ℕ) (ha : ∃ k, a = 2 ^ k) (hlt : a < 2 ^ 32)
    (hptr : 0 < ptr) (haddr : ptr + a ≤ 2 ^ 64) (hspace : size + a ≤ space) :
    ∃ q, stdAlign a size ptr space = some q ∧ ptr ≤ q ∧ q ≤ ptr + a ∧ a ∣ q := by
  obtain ⟨k, rfl⟩ := ha
  have hk : k ≤ 64 := by
    have hk' : k < 32 := (Nat.pow_lt_pow_iff_right Nat.one_lt_two).mp hlt
    omega
  have hmod := Nat.mod_lt (ptr - 1 + 2 ^ k) (Nat.two_pow_pos k)
  have hdiv := Nat.div_add_mod' (ptr - 1 + 2 ^ k) (2 ^ k)
  refine ⟨(ptr - 1 + 2 ^ k) / 2 ^ k * 2 ^ k, ?_, by omega, by omega, Nat.dvd_mul_left _ _⟩
  rw [stdAlign, and_two_pow_sub_two_pow (by omega) hk]
  exact if_pos ⟨by omega, by omega⟩

/-- Where the image goes: to the first aligned address, or where it is if none is asked for. -/
theorem exists_alignedPtr (size ptr space : ℕ)
    (halign : alignment = 0 ∨ ∃ k, alignment.toNat = 2 ^ k) (hptr : 0 < ptr)
    (haddr : ptr + alignment.toNat ≤ 2 ^ 64) (hspace : size + alignment.toNat ≤ space) :
    ∃ q, (if 0 < alignment then stdAlign alignment.toNat size ptr space else some ptr) = some q ∧
      ptr ≤ q ∧ q ≤ ptr + alignment.toNat ∧ (0 < alignment → alignment.toNat ∣ q) := by
  rcases halign with rfl | halign
  · exact ⟨ptr, rfl, le_rfl, Nat.le_add_right _ _, nofun⟩
  · have hpos : 0 < alignment := by
      obtain ⟨k, hk⟩ := halign
      rw [UInt32.lt_iff_toNat_lt, hk]
      exact Nat.two_pow_pos k
    obtain ⟨q, hq, hle, hlt, hdvd⟩ :=
      stdAlign_eq_some size ptr space halign alignment.toNat_lt hptr haddr hspace
    exact ⟨q, by rw [if_pos hpos, hq], hle, hlt, fun _ => hdvd⟩

theorem serializeBuffer_eq (memory : ℕ → UInt8) (hpos : f.imageParams.size ≠ 0)
    (halign : alignment = 0 ∨ ∃ k, alignment.toNat = 2 ^ k)
    (hfit : 76 + alignment.toNat + f.imageParams.size.toNat ≤ r.size) :
    ∃ offset : UInt32,
      (FrameWriter.mk (some f.interface) alignment).serializeBuffer memory r.data r.size =
        (true, storeFrame memory r.data f.header offset f.image) ∧
      76 + offset.toNat + f.imageParams.size.toNat ≤ r.size ∧
      (0 < alignment → alignment.toNat ∣ r.data + (76 + offset.toNat)) := by
  have hinside := r.inside
  have hsize : ¬ r.size < 16 := by omega
  have hdata : ¬ r.size < 76 + alignment.toNat + f.imageParams.size.toNat := by omega
  obtain ⟨q, hq, hle, hlt, hdvd⟩ := exists_alignedPtr f.imageParams.size.toNat
    (r.data + 16 + 40 + 16 + 4) (r.data + r.size - (r.data + 16 + 40 + 16 + 4)) halign
    (by omega) (by omega) (by omega)
  have hoffset : (UInt32.ofNat (q - (r.data + 16 + 40 + 16 + 4))).toNat = q - (r.data + 76) := by
    have := alignment.toNat_lt
    rw [UInt32.toNat_ofNat', Nat.mod_eq_of_lt]
    omega
  refine ⟨UInt32.ofNat (q - (r.data + 16 + 40 + 16 + 4)), ?_, by omega, fun h => ?_⟩
  · have himage : r.data + 16 + 40 + 16 + (4 + (q - (r.data + 76))) =
        r.data + (76 + (q - (r.data + 76))) := by omega
    simp only [FrameWriter.serializeBuffer, FrameBase.interface, size_imageParams,
      size_displayParams, size_videoParams, size_uint32, headerBytes_eq, if_neg hsize, if_neg hpos,
      if_neg hdata, hq, storeFrame, hoffset, himage]
    rfl
  · rw [hoffset, show r.data + (76 + (q - (r.data + 76))) = q by omega]
    exact hdvd h

end Writing

/-! ### Reading -/

section Reading

variable {memory : ℕ → UInt8} {r : MemoryRange} {header : FrameHeader} {offset : UInt32}
  {bytes : List UInt8}

namespace SerializedAt

variable (h : SerializedAt memory r.data header offset bytes)

include h

theorem decode_image : Codec.imageParams.decode (load memory r.data 16) = header.image := by
  rw [h.image, Codec.decode_encode]

theorem decode_display :
    Codec.displayParams.decode (load memory (r.data + 16) 40) = header.display := by
  rw [h.display, Codec.decode_encode]

theorem decode_video :
    Codec.videoParams.decode (load memory (r.data + 56) 16) = header.video := by
  rw [h.video, Codec.decode_encode]

theorem decode_dataOffset : Codec.uint32.decode (load memory (r.data + 72) 4) = offset := by
  rw [h.dataOffset, Codec.decode_encode]

end SerializedAt

theorem readHeader_of_serializedAt (h : SerializedAt memory r.data header offset bytes)
    (hpos : header.image.size ≠ 0)
    (hfit : 76 + offset.toNat + header.image.size.toNat ≤ r.size) :
    readHeader MemoryStream.interface (r.stream memory) =
      (some header, ⟨memory, r.data, r.size, 76 + offset.toNat⟩) := by
  have hsize : 0 < header.image.size.toNat := Nat.pos_of_ne_zero fun h0 =>
    hpos (UInt32.toNat_inj.mp h0)
  rw [readHeader, MemoryRange.stream]
  simp (disch := simp only [size_imageParams, size_displayParams, size_videoParams,
    size_uint32]; omega) only [MemoryStream.readObject_eq]
  simp only [size_imageParams, size_displayParams, size_videoParams, size_uint32, Nat.zero_add,
    Nat.add_zero, Nat.reduceAdd, h.decode_image, h.decode_display, h.decode_video,
    h.decode_dataOffset, if_neg hpos]
  split_ifs with hoffset
  · -- the image ends inside the buffer and is not empty, so it begins there too
    rw [MemoryStream.setPosition_current _ (by omega)]
  · have hzero : offset = 0 := by
      rw [UInt32.lt_iff_toNat_lt] at hoffset
      exact UInt32.toNat_inj.mp (Nat.eq_zero_of_not_pos hoffset)
    rw [hzero]
    rfl

/-- The buffer that a fresh serializer gets for an image: one that it makes, or one that its
allocator gives out. -/
theorem allocate_ofAllocator {hasAllocator : Bool} {answer : Allocation} {size : ℕ}
    (hanswer : hasAllocator = true →
      ∃ buffer, answer = .fresh buffer ∧ size ≤ buffer.data.length) :
    ∃ buffer, size ≤ buffer.data.length ∧
      (FrameStore.ofAllocator hasAllocator).allocate size answer =
        some (some 0, ⟨none, hasAllocator, [], [buffer], [], []⟩) := by
  cases hasAllocator with
  | false => exact ⟨⟨List.replicate size 0, 0⟩, by rw [List.length_replicate], rfl⟩
  | true =>
    obtain ⟨buffer, rfl, hlen⟩ := hanswer rfl
    exact ⟨buffer, hlen, if_pos hlen⟩

/-- A fresh serializer reads the frame. -/
theorem deserialize_of_serializedAt (h : SerializedAt memory r.data header offset bytes)
    (hpos : header.image.size ≠ 0)
    (hfit : 76 + offset.toNat + header.image.size.toNat ≤ r.size)
    {hasAllocator : Bool} {answer : Allocation}
    (hanswer : hasAllocator = true →
      ∃ buffer, answer = .fresh buffer ∧ header.image.size.toNat ≤ buffer.data.length) :
    ∃ t i, (FrameStore.ofAllocator hasAllocator).deserialize MemoryStream.interface
        (r.stream memory) answer = some (true, t) ∧ t.frame = some i ∧
      t.view i = some ⟨header.image, header.display, header.video, bytes⟩ := by
  obtain ⟨buffer, hlen, halloc⟩ := allocate_ofAllocator hanswer
  have hread := @MemoryStream.readBytes_eq memory r.data _ _ _ hfit
  have hbytes : bytes.length = header.image.size.toNat := by
    rw [← h.imageBytes, length_load]
  let read : FrameStore := ⟨some 0, hasAllocator, [⟨header, 0, 0⟩],
    [{ buffer with data := Bytes.blit buffer.data 0 bytes }], [], []⟩
  refine ⟨read, 0, ?_, rfl, ?_⟩
  · have hrecycled :
        (FrameStore.ofAllocator hasAllocator).recycled header.image.size.toNat = none := rfl
    have hreleased :
        (FrameStore.ofAllocator hasAllocator).released = FrameStore.ofAllocator hasAllocator := rfl
    rw [FrameStore.deserialize, readHeader_of_serializedAt h hpos hfit]
    simp only [hrecycled, hreleased, halloc, FrameStore.readImage, hread, h.imageBytes, and_self,
      if_true]
    rfl
  · have htake : (Bytes.blit buffer.data 0 bytes).take header.image.size.toNat = bytes := by
      rw [Bytes.blit_zero, ← hbytes, List.take_left]
    rw [FrameStore.view_eq (s := read) (f := ⟨header, 0, 0⟩) rfl rfl, FrameStore.viewOf, htake]

/-- A frame over the same bytes gives what has been serialized, without a copy. -/
theorem queryBuffer_of_serializedAt (h : SerializedAt memory r.data header offset bytes)
    (hpos : header.image.size ≠ 0)
    (hfit : 76 + offset.toNat + header.image.size.toNat ≤ r.size) :
    (ZeroCopyFrame.mk memory (some r)).queryBuffer =
      some (r.data + (76 + offset.toNat), header.image.size.toNat) := by
  simp only [ZeroCopyFrame.queryBuffer, ZeroCopyFrame.queryImageParams, Option.map_some,
    Option.bind_some, size_imageParams, size_displayParams, size_videoParams, size_uint32,
    headerBytes_eq, Nat.add_assoc, Nat.reduceAdd, h.decode_image, h.decode_dataOffset, if_neg hpos]
  rw [if_neg (by omega)]

theorem view_of_serializedAt (h : SerializedAt memory r.data header offset bytes)
    (hpos : header.image.size ≠ 0)
    (hfit : 76 + offset.toNat + header.image.size.toNat ≤ r.size) :
    (ZeroCopyFrame.mk memory (some r)).interface.view =
      some ⟨header.image, header.display, header.video, bytes⟩ := by
  have hbytes : bytes.length = header.image.size.toNat := by
    rw [← h.imageBytes, length_load]
  simp only [FrameInterface.view, ZeroCopyFrame.interface, queryBuffer_of_serializedAt h hpos hfit,
    ZeroCopyFrame.queryImageParams, ZeroCopyFrame.queryDisplayParams,
    ZeroCopyFrame.queryVideoParams, Option.map_some, Option.bind_some, size_imageParams,
    size_displayParams, size_videoParams, Nat.add_assoc, Nat.reduceAdd, h.decode_image,
    h.decode_display, h.decode_video, h.imageBytes]
  rw [← hbytes, List.take_length]

end Reading

/-! ### The round trip -/

/-- What a client sees of the frame. -/
def FrameBase.seen (f : FrameBase) : FrameView :=
  ⟨f.imageParams, f.displayParams, f.videoParams, f.image⟩

/-- Whoever reads the frame in the buffer sees what a client of `f` sees: a fresh serializer
that reads a stream at the beginning of the buffer, if the allocator that it may have gives it
a buffer, and the client of a frame over the same bytes. -/
def ReadsBack (f : FrameBase) (memory : ℕ → UInt8) (r : MemoryRange) : Prop :=
  (∀ hasAllocator answer, (hasAllocator = true →
      ∃ buffer, answer = .fresh buffer ∧ f.imageParams.size.toNat ≤ buffer.data.length) →
    ∃ t i, (FrameStore.ofAllocator hasAllocator).deserialize MemoryStream.interface
        (r.stream memory) answer = some (true, t) ∧ t.frame = some i ∧ t.view i = some f.seen) ∧
  (ZeroCopyFrame.mk memory (some r)).interface.view = some f.seen

theorem readsBack_of_serializedAt {f : FrameBase} {memory : ℕ → UInt8} {r : MemoryRange}
    {offset : UInt32} (h : SerializedAt memory r.data f.header offset f.image)
    (hpos : f.imageParams.size ≠ 0)
    (hfit : 76 + offset.toNat + f.imageParams.size.toNat ≤ r.size) : ReadsBack f memory r :=
  ⟨fun _ _ hanswer => deserialize_of_serializedAt h hpos hfit hanswer,
    view_of_serializedAt h hpos hfit⟩

/-- **Serialized frames are read back**, from a stream and from a buffer with room for
`data_size` bytes, by both readers. Nothing is written outside of the buffer, and an image that
has been serialized into it is aligned. -/
theorem round_trip (f : FrameBase) (alignment : UInt32) (memory : ℕ → UInt8) (r : MemoryRange)
    (hpos : 0 < f.imageParams.size) (hbuffer : f.imageParams.size.toNat ≤ f.buffer.length)
    (halign : alignment = 0 ∨ ∃ k, alignment.toNat = 2 ^ k)
    (hsize : (FrameWriter.mk (some f.interface) alignment).dataSize ≤ r.size) :
    (∃ memory' position,
      (FrameWriter.mk (some f.interface) alignment).serialize MemoryStream.interface
          (r.stream memory) = (true, ⟨memory', r.data, r.size, position⟩) ∧
        SameOutside memory memory' r.data r.size ∧ ReadsBack f memory' r) ∧
    ∃ memory',
      (FrameWriter.mk (some f.interface) alignment).serializeBuffer memory r.data r.size =
          (true, memory') ∧
        SameOutside memory memory' r.data r.size ∧ ReadsBack f memory' r ∧
        (0 < alignment → ∃ data, (ZeroCopyFrame.mk memory' (some r)).queryBuffer =
          some (data, f.imageParams.size.toNat) ∧ alignment.toNat ∣ data) := by
  have hne : f.imageParams.size ≠ 0 := fun h => absurd (h ▸ hpos) (by decide)
  have himage : f.image.length = f.imageParams.size.toNat := List.length_take_of_le hbuffer
  have hfit : 76 + alignment.toNat + f.imageParams.size.toNat ≤ r.size := hsize
  constructor
  · have hfit' : 76 + (0 : UInt32).toNat + f.imageParams.size.toNat ≤ r.size := by
      rw [UInt32.toNat_zero]
      omega
    have hat := serializedAt_storeFrame memory r.data f.header 0 himage
    refine ⟨_, _, serialize_eq hne hbuffer (by omega), ?_, readsBack_of_serializedAt hat hne hfit'⟩
    exact sameOutside_storeFrame memory r.data f.header 0 (himage ▸ hfit')
  · obtain ⟨offset, hwrite, hfit', hdvd⟩ :=
      serializeBuffer_eq memory hne halign hfit
    have hat := serializedAt_storeFrame memory r.data f.header offset himage
    refine ⟨_, hwrite, ?_, readsBack_of_serializedAt hat hne hfit', fun h => ?_⟩
    · exact sameOutside_storeFrame memory r.data f.header offset (himage ▸ hfit')
    · exact ⟨_, queryBuffer_of_serializedAt hat hne hfit', hdvd h⟩

/-- A frame of three bytes, aligned in a buffer that begins at an odd address. -/
theorem round_trip_three_bytes :
    let f : FrameBase := ⟨⟨1, 1, 3, 0⟩, ⟨0, 40, 40, 0, 7⟩, ⟨0, ⟨25, 1⟩, 0⟩, [1, 2, 3]⟩
    ∃ memory', (FrameWriter.mk (some f.interface) 16).serializeBuffer (fun _ => 0) 5 95 =
      (true, memory') ∧ ReadsBack f memory' ⟨5, 95, by decide⟩ := by
  intro f
  obtain ⟨-, memory', hwrite, -, hread, -⟩ := round_trip f 16 (fun _ => 0) ⟨5, 95, by decide⟩
    (by decide) (by decide) (Or.inr ⟨4, rfl⟩) (by decide)
  exact ⟨memory', hwrite, hread⟩

end UtilityFramework
