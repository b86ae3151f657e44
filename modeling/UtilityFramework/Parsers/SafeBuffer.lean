import UtilityFramework.Parsers.BinaryParser
import UtilityFramework.Video.SharableBufferLayout

/-!
# The bounds of buffers

`safe_buffer` checks each access with one comparison, `num_of_byte + offset > size()`, and so
does the constructor of `relative_buffer_base`. The sum is one of `size_t` and wraps around. The
copy that follows is not checked again: one that leaves the vector is `outOfBounds`.

The comparison decides what it is meant to decide precisely if the sum does not wrap, or wraps
to a number that is still beyond the size (`SumDecides`, `checksExactly_iff`). Where it does, the
accesses are those of the parsers, whose sums are exact (`safeRead_eq`, `safeWrite_eq`).
-/

namespace UtilityFramework

open Bytes

/-- `safe_buffer`. -/
structure SafeBuffer where
  bytes : List UInt8
  length_lt : bytes.length < 2 ^ 64

/-- How an access ends. One that has `failed` has copied nothing; one that is `done` has copied,
and its result is what has been stored. -/
inductive SafeAccess (β : Type)
  | failed
  | done (result : β)
  | outOfBounds
  deriving DecidableEq

/-- The sum of `n` and `o` exceeds `size` in 64-bit arithmetic precisely if it does so in exact
arithmetic. -/
def SumDecides (n o size : UInt64) : Prop :=
  n.toNat + o.toNat < 2 ^ 64 ∨ size.toNat < n.toNat + o.toNat - 2 ^ 64

instance (n o size : UInt64) : Decidable (SumDecides n o size) :=
  inferInstanceAs (Decidable (_ ∨ _))

theorem toNat_add_le_iff (n o size : UInt64) :
    n + o ≤ size ↔ (n.toNat + o.toNat) % 2 ^ 64 ≤ size.toNat := by
  rw [UInt64.le_iff_toNat_le, UInt64.toNat_add]

/-- What the comparison has to decide, and when it does. -/
theorem sumDecides_iff (n o size : UInt64) :
    (n + o ≤ size ↔ o.toNat + n.toNat ≤ size.toNat) ↔ SumDecides n o size := by
  have hn := n.toNat_lt
  have ho := o.toNat_lt
  have hsize := size.toNat_lt
  rw [toNat_add_le_iff, SumDecides]
  by_cases hwrap : n.toNat + o.toNat < 2 ^ 64
  · rw [Nat.mod_eq_of_lt hwrap, Nat.add_comm o.toNat]
    exact iff_of_true Iff.rfl (.inl hwrap)
  · have hmod : (n.toNat + o.toNat) % 2 ^ 64 = n.toNat + o.toNat - 2 ^ 64 := by
      rw [Nat.mod_eq_sub_mod (by omega), Nat.mod_eq_of_lt (by omega)]
    rw [hmod]
    omega

namespace SafeBuffer

variable (b : SafeBuffer)

def size : UInt64 := UInt64.ofNat b.bytes.length

/-- `memcpy` of `n` bytes from `&m_buffer[offset]`. -/
def copyFrom (offset n : ℕ) : SafeAccess (List UInt8) :=
  if offset + n ≤ b.bytes.length then .done (slice b.bytes offset n) else .outOfBounds

/-- `memcpy` to `&m_buffer[offset]`. -/
def copyTo (offset : ℕ) (data : List UInt8) : SafeAccess SafeBuffer :=
  if h : offset + data.length ≤ b.bytes.length then
    .done ⟨blit b.bytes offset data, by rw [length_blit h]; exact b.length_lt⟩
  else .outOfBounds

/-- `safe_read`: `dataPtr` says that the pointer is not null. -/
def safeRead (dataPtr : Bool) (numOfByteToRead offset : UInt64) : SafeAccess (List UInt8) :=
  if dataPtr = false then .failed
  else if numOfByteToRead + offset > b.size then .failed
  else b.copyFrom offset.toNat numOfByteToRead.toNat

/-- `safe_write`: `none` is a null pointer. -/
def safeWrite (dataPtr : Option (List UInt8)) (numOfByteToWrite offset : UInt64) :
    SafeAccess SafeBuffer :=
  match dataPtr with
  | none => .failed
  | some data =>
    if numOfByteToWrite + offset > b.size then .failed
    else b.copyTo offset.toNat (data.take numOfByteToWrite.toNat)

/-- A read succeeds if the bytes lie in the buffer, and then returns these bytes. -/
def ReadsExactly (n o : UInt64) : Prop :=
  b.safeRead true n o =
    if o.toNat + n.toNat ≤ b.bytes.length then .done (slice b.bytes o.toNat n.toNat) else .failed

/-- A write succeeds if the bytes lie in the buffer, and then stores these bytes and leaves all
others. -/
def WritesExactly (n o : UInt64) : Prop :=
  ∀ data : List UInt8, data.length = n.toNat →
    (o.toNat + n.toNat ≤ b.bytes.length → ∃ b', b.safeWrite (some data) n o = .done b' ∧
      b'.bytes.length = b.bytes.length ∧ slice b'.bytes o.toNat n.toNat = data ∧
      ∀ i, i < o.toNat ∨ o.toNat + n.toNat ≤ i → b'.bytes[i]? = b.bytes[i]?) ∧
    (b.bytes.length < o.toNat + n.toNat → b.safeWrite (some data) n o = .failed)

variable {b} {n o : UInt64}

theorem toNat_size (b : SafeBuffer) : b.size.toNat = b.bytes.length :=
  UInt64.toNat_ofNat_of_lt' b.length_lt

theorem copyFrom_ne_failed {offset n : ℕ} : b.copyFrom offset n ≠ .failed := by
  rw [copyFrom]
  split_ifs <;> exact nofun

theorem copyTo_ne_failed {offset : ℕ} {data : List UInt8} : b.copyTo offset data ≠ .failed := by
  rw [copyTo]
  split_ifs <;> exact nofun

/-- An access fails precisely if the comparison says so. -/
theorem safeRead_eq_failed_iff : b.safeRead true n o = .failed ↔ ¬n + o ≤ b.size := by
  rw [safeRead, if_neg Bool.true_eq_false_eq_False, UInt64.not_le]
  split_ifs with h
  · exact iff_of_true rfl h
  · exact iff_of_false copyFrom_ne_failed h

theorem safeWrite_eq_failed_iff {data : List UInt8} :
    b.safeWrite (some data) n o = .failed ↔ ¬n + o ≤ b.size := by
  rw [safeWrite, UInt64.not_le]
  split_ifs with h
  · exact iff_of_true rfl h
  · exact iff_of_false copyTo_ne_failed h

theorem readsExactly_iff : b.ReadsExactly n o ↔ SumDecides n o b.size := by
  rw [← sumDecides_iff, ReadsExactly, toNat_size]
  constructor
  · intro h
    rw [← not_iff_not, ← safeRead_eq_failed_iff, h]
    split_ifs with hfit
    · exact iff_of_false nofun (not_not.mpr hfit)
    · exact iff_of_true rfl hfit
  · intro h
    split_ifs with hfit
    · rw [safeRead, if_neg Bool.true_eq_false_eq_False, if_neg (UInt64.not_lt.mpr (h.mpr hfit)),
        copyFrom, if_pos hfit]
    · exact safeRead_eq_failed_iff.mpr fun hle => hfit (h.mp hle)

/-- The bytes of a write that lies in the buffer. -/
theorem exists_safeWrite (hle : n + o ≤ b.size) (hfit : o.toNat + n.toNat ≤ b.bytes.length)
    {data : List UInt8} (hdata : data.length = n.toNat) :
    ∃ b', b.safeWrite (some data) n o = .done b' ∧ b'.bytes = blit b.bytes o.toNat data := by
  have htake : data.take n.toNat = data := List.take_of_length_le hdata.le
  rw [← hdata] at hfit
  refine ⟨⟨blit b.bytes o.toNat data, (length_blit hfit).symm ▸ b.length_lt⟩, ?_, rfl⟩
  rw [safeWrite, if_neg (UInt64.not_lt.mpr hle), htake, copyTo, dif_pos hfit]

theorem writesExactly_iff : b.WritesExactly n o ↔ SumDecides n o b.size := by
  rw [← sumDecides_iff, toNat_size]
  constructor
  · intro h
    -- any bytes show what the comparison decides
    obtain ⟨hdone, hfailed⟩ := h (List.replicate n.toNat 0) List.length_replicate
    constructor
    · intro hle
      refine Nat.le_of_not_lt fun hlt => ?_
      exact safeWrite_eq_failed_iff.mp (hfailed hlt) hle
    · intro hfit
      obtain ⟨b', hb', -⟩ := hdone hfit
      by_contra hle
      rw [safeWrite_eq_failed_iff.mpr hle] at hb'
      cases hb'
  · intro h data hdata
    refine ⟨fun hfit => ?_, fun hlt => ?_⟩
    · obtain ⟨b', hb', hbytes⟩ := exists_safeWrite (h.mpr hfit) hfit hdata
      rw [← hdata] at hfit
      refine ⟨b', hb', ?_, ?_, fun i hi => ?_⟩
      · rw [hbytes, length_blit hfit]
      · rw [hbytes, ← hdata, slice_blit_self hfit]
      · rw [hbytes, getElem?_blit hfit, if_neg (by omega)]
    · exact safeWrite_eq_failed_iff.mpr fun hle => absurd (h.mp hle) (Nat.not_le.mpr hlt)

/-! ### The accesses of the parsers -/

/-- Where the comparison decides rightly, a read is that of a parser. -/
theorem safeRead_eq (h : SumDecides n o b.size) :
    b.safeRead true n o =
      match UtilityFramework.safeRead b.bytes n.toNat o.toNat with
      | none => .failed
      | some data => .done data := by
  rw [readsExactly_iff.mpr h, UtilityFramework.safeRead, Nat.add_comm]
  split_ifs <;> rfl

theorem safeWrite_eq (h : SumDecides n o b.size) {data : List UInt8}
    (hdata : data.length = n.toNat) :
    UtilityFramework.safeWrite b.bytes data o.toNat =
      match b.safeWrite (some data) n o with
      | .done b' => some b'.bytes
      | _ => none := by
  have hiff := (sumDecides_iff n o b.size).mpr h
  rw [toNat_size] at hiff
  rw [UtilityFramework.safeWrite, hdata, Nat.add_comm]
  split_ifs with hfit
  · obtain ⟨b', hb', hbytes⟩ := exists_safeWrite (hiff.mpr hfit) hfit hdata
    rw [hb', ← hbytes]
  · rw [safeWrite_eq_failed_iff.mpr fun hle => hfit (hiff.mp hle)]

end SafeBuffer

/-- A relative buffer is constructed if it lies in its source. -/
def RelativeExactly (source offset size : UInt64) : Prop :=
  BufferPool.relativeBufferThrows source offset size = false ↔
    offset.toNat + size.toNat ≤ source.toNat

theorem relativeExactly_iff (source offset size : UInt64) :
    RelativeExactly source offset size ↔ SumDecides offset size source := by
  rw [← sumDecides_iff, RelativeExactly, BufferPool.relativeBufferThrows, decide_eq_false_iff_not,
    gt_iff_lt, UInt64.not_lt, Nat.add_comm]

/-- **When the bounds of buffers are checked exactly.** -/
theorem checksExactly_iff (b : SafeBuffer) (n o source offset size : UInt64) :
    (b.ReadsExactly n o ↔ SumDecides n o b.size) ∧
      (b.WritesExactly n o ↔ SumDecides n o b.size) ∧
      (RelativeExactly source offset size ↔ SumDecides offset size source) :=
  ⟨SafeBuffer.readsExactly_iff, SafeBuffer.writesExactly_iff, relativeExactly_iff _ _ _⟩

/-- One byte at the last offset of all is read from in front of the buffer. -/
theorem not_readsExactly_last_offset :
    ¬(SafeBuffer.mk [1, 2, 3, 4] (by decide)).ReadsExactly 1 (UInt64.ofNat (2 ^ 64 - 1)) := by
  intro h
  rw [SafeBuffer.ReadsExactly] at h
  revert h
  decide

end UtilityFramework
