import UtilityFramework.Video.SharableBufferPool

/-!
# The layout of the segment of a buffer pool

The segment of a `shm_sharable_bufferpool` begins with its identifier and the two sizes. The
wait handler and the mutexes follow, and then the buffers. On a 64-bit platform offsets are
64-bit numbers, but `pool_size * buffer_size`, in the size that the constructor requests, and
`index * buffer_size()`, in the offset of a buffer, are products of 32-bit numbers and are
computed modulo `2 ^ 32`.

The layout is right precisely if `pool_size * buffer_size` does not wrap
(`laidOut_iff`). Where it wraps, some buffer lies beyond the requested segment, whatever the
sizes are: if all lay inside, `index * buffer_size` would not wrap for any index, by induction
on the index.
-/

namespace UtilityFramework

/-- The sizes of the objects in the segment whose types depend on the platform. -/
structure ShmSizes where
  waitHandler : UInt64
  mutex : UInt64
  waitHandler_lt : waitHandler.toNat < 2 ^ 31
  mutex_lt : mutex.toNat < 2 ^ 31

/-- A range of bytes of the segment. -/
structure SegmentRange where
  start : ℕ
  size : ℕ
  deriving DecidableEq

def SegmentRange.stop (a : SegmentRange) : ℕ := a.start + a.size

/-- The ranges share no byte. -/
def SegmentRange.Apart (a b : SegmentRange) : Prop := a.stop ≤ b.start ∨ b.stop ≤ a.start

instance (a b : SegmentRange) : Decidable (a.Apart b) :=
  inferInstanceAs (Decidable (_ ∨ _))

namespace BufferPool

variable (z : ShmSizes)

/-- `sizeof(core::guid) + sizeof(uint32_t) + sizeof(uint32_t)`. -/
def headerSize : UInt64 := 16 + 4 + 4

/-- The size that the constructor for writers requests. -/
def segmentSize (poolSize bufferSize : UInt32) : UInt64 :=
  headerSize + z.waitHandler + poolSize.toUInt64 * z.mutex + (poolSize * bufferSize).toUInt64

variable (pool : BufferPool)

/-- The offset of the mutex in `get_buffer_mutex`. -/
def mutexOffset (index : UInt32) : UInt64 :=
  headerSize + z.waitHandler + index.toUInt64 * z.mutex

def getBufferOffset (index : UInt32) : UInt64 :=
  headerSize + z.waitHandler + pool.poolSize.toUInt64 * z.mutex +
    (index * pool.bufferSize).toUInt64

/-- The constructor of `relative_buffer_base` throws for a buffer beyond its source. -/
def relativeBufferThrows (sourceSize offset size : UInt64) : Bool := offset + size > sourceSize

/-- The bytes of a buffer. -/
def bufferRange (index : UInt32) : SegmentRange :=
  ⟨(pool.getBufferOffset z index).toNat, pool.bufferSize.toNat⟩

def mutexRange (index : UInt32) : SegmentRange := ⟨(mutexOffset z index).toNat, z.mutex.toNat⟩

/-- The identifier and the sizes. -/
def headerRange : SegmentRange := ⟨0, headerSize.toNat⟩

def waitHandlerRange : SegmentRange := ⟨headerSize.toNat, z.waitHandler.toNat⟩

/-- The buffers are apart from each other and from everything else, and lie in a segment of
the given size. -/
structure LaidOut (segment : ℕ) : Prop where
  inside : ∀ i < pool.poolSize, (pool.bufferRange z i).stop ≤ segment
  apart : ∀ i < pool.poolSize, ∀ j < pool.poolSize, i ≠ j →
    (pool.bufferRange z i).Apart (pool.bufferRange z j)
  header : ∀ i < pool.poolSize, (pool.bufferRange z i).Apart headerRange
  waitHandler : ∀ i < pool.poolSize, (pool.bufferRange z i).Apart (waitHandlerRange z)
  mutex : ∀ i < pool.poolSize, ∀ j < pool.poolSize,
    (pool.bufferRange z i).Apart (mutexRange z j)

/-- The pool object that the constructor for writers makes. -/
def constructed (poolSize bufferSize : UInt32) : BufferPool where
  isMapped := true
  poolSize := poolSize
  bufferSize := bufferSize
  nextUniqueQuery := 0

/-! ### The sizes and offsets as numbers -/

/-- Where the buffers begin. -/
def buffersStart (poolSize : UInt32) : ℕ :=
  24 + z.waitHandler.toNat + poolSize.toNat * z.mutex.toNat

theorem toNat_prefix_lt (n : UInt32) : n.toNat * z.mutex.toNat < 2 ^ 63 := by
  calc n.toNat * z.mutex.toNat
      < 2 ^ 32 * 2 ^ 31 := Nat.mul_lt_mul'' n.toNat_lt z.mutex_lt
    _ = 2 ^ 63 := by decide

theorem toNat_header_add : (headerSize + z.waitHandler).toNat = 24 + z.waitHandler.toNat := by
  have := z.waitHandler_lt
  rw [UInt64.toNat_add, Nat.mod_eq_of_lt]
  · rfl
  · change 24 + z.waitHandler.toNat < 2 ^ 64
    omega

theorem toNat_mutexOffset (n : UInt32) :
    (mutexOffset z n).toNat = 24 + z.waitHandler.toNat + n.toNat * z.mutex.toNat := by
  have hw := z.waitHandler_lt
  have hn := toNat_prefix_lt z n
  rw [mutexOffset, UInt64.toNat_add, toNat_header_add, UInt64.toNat_mul,
    UInt32.toNat_toUInt64, Nat.mod_eq_of_lt (a := n.toNat * z.mutex.toNat) (by omega),
    Nat.mod_eq_of_lt (by omega)]

theorem toNat_buffersStart_add (poolSize n : UInt32) :
    (headerSize + z.waitHandler + poolSize.toUInt64 * z.mutex + n.toUInt64).toNat =
      buffersStart z poolSize + n.toNat := by
  have hw := z.waitHandler_lt
  have hp := toNat_prefix_lt z poolSize
  have hn := n.toNat_lt
  have hmutexes := toNat_mutexOffset z poolSize
  rw [mutexOffset] at hmutexes
  rw [UInt64.toNat_add, hmutexes, UInt32.toNat_toUInt64, buffersStart, Nat.mod_eq_of_lt (by omega)]

theorem toNat_segmentSize (poolSize bufferSize : UInt32) :
    (segmentSize z poolSize bufferSize).toNat =
      buffersStart z poolSize + poolSize.toNat * bufferSize.toNat % 2 ^ 32 := by
  rw [segmentSize, toNat_buffersStart_add, UInt32.toNat_mul]

theorem toNat_getBufferOffset (index : UInt32) :
    (pool.getBufferOffset z index).toNat =
      buffersStart z pool.poolSize + index.toNat * pool.bufferSize.toNat % 2 ^ 32 := by
  rw [getBufferOffset, toNat_buffersStart_add, UInt32.toNat_mul]

/-- The mutexes end where the buffers begin. -/
theorem mutexRange_stop_le {i : UInt32} {poolSize : UInt32} (hi : i < poolSize) :
    (mutexRange z i).stop ≤ buffersStart z poolSize := by
  have hle : (i.toNat + 1) * z.mutex.toNat ≤ poolSize.toNat * z.mutex.toNat :=
    Nat.mul_le_mul_right _ hi
  rw [SegmentRange.stop, mutexRange, toNat_mutexOffset, buffersStart]
  rw [Nat.succ_mul] at hle
  dsimp only
  omega

/-! ### When the layout is right -/

section Exact

variable {z} {pool}

/-- A buffer ends before the product of the sizes. -/
theorem index_mul_add_le {i : UInt32} (hi : i < pool.poolSize) :
    i.toNat * pool.bufferSize.toNat + pool.bufferSize.toNat ≤
      pool.poolSize.toNat * pool.bufferSize.toNat := by
  rw [← Nat.succ_mul]
  exact Nat.mul_le_mul_right _ hi

theorem laidOut_of_lt (hfit : pool.poolSize.toNat * pool.bufferSize.toNat < 2 ^ 32) :
    pool.LaidOut z (segmentSize z pool.poolSize pool.bufferSize).toNat := by
  have hoffset : ∀ i < pool.poolSize, (pool.getBufferOffset z i).toNat =
      buffersStart z pool.poolSize + i.toNat * pool.bufferSize.toNat := by
    intro i hi
    have := index_mul_add_le hi
    rw [toNat_getBufferOffset, Nat.mod_eq_of_lt (by omega)]
  have hstart : ∀ i < pool.poolSize,
      buffersStart z pool.poolSize ≤ (pool.bufferRange z i).start := by
    intro i hi
    rw [bufferRange, hoffset i hi]
    exact Nat.le_add_right _ _
  -- of two buffers, the one with the smaller index ends first
  have hlt : ∀ i < pool.poolSize, ∀ j < pool.poolSize, i.toNat < j.toNat →
      (pool.bufferRange z i).stop ≤ (pool.bufferRange z j).start := by
    intro i hi j hj hij
    have hle : (i.toNat + 1) * pool.bufferSize.toNat ≤ j.toNat * pool.bufferSize.toNat :=
      Nat.mul_le_mul_right _ hij
    rw [Nat.succ_mul] at hle
    rw [SegmentRange.stop, bufferRange, bufferRange, hoffset i hi, hoffset j hj]
    dsimp only
    omega
  constructor
  · intro i hi
    have hle := index_mul_add_le hi
    rw [SegmentRange.stop, bufferRange, hoffset i hi, toNat_segmentSize, Nat.mod_eq_of_lt hfit]
    dsimp only
    omega
  · intro i hi j hj hij
    have hne : i.toNat ≠ j.toNat := fun h => hij (UInt32.toNat_inj.mp h)
    rcases Nat.lt_or_gt_of_ne hne with h | h
    · exact .inl (hlt i hi j hj h)
    · exact .inr (hlt j hj i hi h)
  · intro i hi
    refine .inr (Nat.le_trans ?_ (hstart i hi))
    change 0 + 24 ≤ 24 + z.waitHandler.toNat + _
    omega
  · intro i hi
    refine .inr (Nat.le_trans ?_ (hstart i hi))
    change 24 + z.waitHandler.toNat ≤ 24 + z.waitHandler.toNat + _
    omega
  · exact fun i hi j hj => .inr (Nat.le_trans (mutexRange_stop_le z hj) (hstart i hi))

/-- If each buffer ends before the end of an area of `n * b` bytes modulo `w`, then no offset
wraps, by induction on the index. -/
theorem mul_lt_of_forall_mod_add_le {n b w : ℕ} (hw : 0 < w)
    (hin : ∀ i < n, i * b % w + b ≤ n * b % w) : n * b < w := by
  have hwrap : ∀ i ≤ n, i * b % w = i * b := by
    intro i
    induction i with
    | zero => intro _; rw [Nat.zero_mul, Nat.zero_mod]
    | succ i ih =>
      intro hi
      have hmod := ih (Nat.le_of_succ_le hi)
      have hend := hin i hi
      have hlt := Nat.mod_lt (n * b) hw
      rw [Nat.succ_mul]
      exact Nat.mod_eq_of_lt (by omega)
  rw [← hwrap n (Nat.le_refl n)]
  exact Nat.mod_lt _ hw

/-- **When the layout of a pool is right.** -/
theorem laidOut_iff (z : ShmSizes) (poolSize bufferSize : UInt32) :
    (constructed poolSize bufferSize).LaidOut z
        (segmentSize z poolSize bufferSize).toNat ↔
      poolSize.toNat * bufferSize.toNat < 2 ^ 32 := by
  constructor
  · intro h
    refine mul_lt_of_forall_mod_add_le (by decide) fun i hi => ?_
    have hi32 : (UInt32.ofNat i).toNat = i :=
      UInt32.toNat_ofNat_of_lt' (Nat.lt_trans hi poolSize.toNat_lt)
    have hinside := h.inside (UInt32.ofNat i) (by rw [UInt32.lt_iff_toNat_lt, hi32]; exact hi)
    rw [SegmentRange.stop, bufferRange, toNat_getBufferOffset, toNat_segmentSize, hi32] at hinside
    simp only [constructed] at hinside
    omega
  · intro hfit
    exact laidOut_of_lt hfit

/-- The sizes with the mutexes and conditions of the C library on a 64-bit Linux. -/
def linuxSizes : ShmSizes where
  waitHandler := 96
  mutex := 144
  waitHandler_lt := by decide
  mutex_lt := by decide

/-- Two buffers at the same place, of which handles can be created: the segment has room for
the first two buffers only, but the offset of the buffer 65536 wraps to that of the buffer 0. -/
theorem not_laidOut_wrapped :
    relativeBufferThrows (segmentSize linuxSizes 65538 65536)
        ((constructed 65538 65536).getBufferOffset linuxSizes 65536) 65536 = false ∧
      (constructed 65538 65536).bufferRange linuxSizes 65536 =
        (constructed 65538 65536).bufferRange linuxSizes 0 ∧
      ¬(constructed 65538 65536).LaidOut linuxSizes
        (segmentSize linuxSizes 65538 65536).toNat := by
  refine ⟨by decide +kernel, by decide +kernel, fun h => ?_⟩
  have hapart := h.apart 0 (by decide) 65536 (by decide) (by decide)
  revert hapart
  decide +kernel

/-- No handle of a pool with a right layout is refused, the region mapped being at least as
long as the segment requested. -/
theorem LaidOut.relativeBufferThrows_eq_false {segment : ℕ} (h : pool.LaidOut z segment)
    {sourceSize : UInt64} (hsource : segment ≤ sourceSize.toNat) {i : UInt32}
    (hi : i < pool.poolSize) :
    relativeBufferThrows sourceSize (pool.getBufferOffset z i) pool.bufferSize.toUInt64 =
      false := by
  have hinside := h.inside i hi
  rw [SegmentRange.stop, bufferRange] at hinside
  dsimp only at hinside
  have hlt := sourceSize.toNat_lt
  rw [relativeBufferThrows, decide_eq_false_iff_not, gt_iff_lt, UInt64.lt_iff_toNat_lt,
    UInt64.toNat_add, UInt32.toNat_toUInt64, Nat.mod_eq_of_lt (by omega)]
  omega

end Exact

end BufferPool

end UtilityFramework
