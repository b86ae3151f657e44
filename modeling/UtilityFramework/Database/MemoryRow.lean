import UtilityFramework.Core.Types
import UtilityFramework.Lib.Bytes
import UtilityFramework.Lib.Transition

/-!
# The memory row

`database::memory_row_impl`: a row owns a buffer, the number of valid bytes in it and a
write priority. A *bounded* row gets a zeroed buffer of its full size when it is created;
an *unbounded* row allocates on demand and only ever grows. `writeBytes` filters by
priority, detects unchanged data, reallocates if it has to, stores, and tells the caller
whether the data callbacks are to be raised.

`Register` is what a row is for: the payload of the last accepted write. `Represents`
relates a row to its register, and every operation keeps the relation (`represents_step`), so
that it holds throughout every run.
-/

namespace UtilityFramework

open Bytes

/-! ### The row -/

/-- `core::database::UNBOUNDED_ROW_SIZE`, the largest `size_t`. -/
def unboundedRowSize : ℕ := 2 ^ 64 - 1

/-- `database::memory_row_impl`, with the type of its `row_info`. -/
structure MemoryRow where
  maxSize : ℕ
  currentSize : ℕ
  buffer : Option (List UInt8)
  unboundedDataSize : Bool
  unboundedAllocationSize : ℕ
  writePriority : UInt8
  type : TypeEnum
  deriving DecidableEq, Repr

/-- The arguments of `write_bytes`. A non-null `buffer` points to `size` readable bytes. -/
structure WriteCall where
  buffer : Option (List UInt8)
  size : ℕ
  forceReport : Bool
  priority : UInt8
  readable : ∀ d ∈ buffer, d.length = size

/-- A buffer is readable as a whole. -/
theorem WriteCall.readable_some (data : List UInt8) :
    ∀ d ∈ some data, d.length = data.length := by
  intro d hd
  rw [Option.mem_some] at hd
  rw [hd]

/-- The arguments of `on_data_changed`. -/
structure Notification where
  size : ℕ
  buffer : Option (List UInt8)
  deriving DecidableEq, Repr

/-- What `write_bytes` does: the row after it, its result, and the callback it raises. -/
structure WriteResult where
  row : MemoryRow
  result : Bool
  raised : Option Notification
  deriving DecidableEq, Repr

namespace MemoryRow

/-- The constructor of `memory_row_impl`: a null placement buffer makes the row unbounded,
any other is cleared. -/
def construct (size : ℕ) (hasBuffer : Bool) (type : TypeEnum) : MemoryRow where
  maxSize := if hasBuffer then size else unboundedRowSize
  currentSize := 0
  buffer := if hasBuffer then some (List.replicate size 0) else none
  unboundedDataSize := !hasBuffer
  unboundedAllocationSize := 0
  writePriority := 0
  type := type

/-- `memory_row::create`, allocation succeeding. -/
def create (size : ℕ) (type : TypeEnum) : Option MemoryRow :=
  if size = 0 ∧ type ≠ .emptyType then none
  else if size ≠ unboundedRowSize then some (construct size true type)
  else some (construct 0 false type)

/-- `memory_row_impl::data_size`. -/
def dataSize (row : MemoryRow) : ℕ := row.maxSize

/-- `memory_row_impl::read_bytes`: the contents of the caller's buffer afterwards, or
`none` when the call fails and writes nothing. -/
def readBytes (row : MemoryRow) (dst : Option (List UInt8)) (size : ℕ) :
    Option (List UInt8) :=
  match dst with
  | none => none
  | some dst =>
    if size > row.maxSize ∨ size = 0 then none
    else
      let actualSize := min size row.currentSize
      let cleared := if actualSize < size then blit dst 0 (List.replicate size 0) else dst
      if actualSize = 0 then some cleared
      else some (blit cleared 0 ((row.buffer.getD []).take actualSize))

/-- `std::memcmp(a, b, n) == 0` for two non-null pointers. -/
def memcmpEq (a b : Option (List UInt8)) (n : ℕ) : Bool :=
  match a, b with
  | some x, some y => x.take n == y.take n
  | _, _ => false

@[simp] theorem memcmpEq_some (x y : List UInt8) (n : ℕ) :
    memcmpEq (some x) (some y) n = (x.take n == y.take n) := rfl

/-- The flag `raise` of `write_bytes`: cleared when the data is unchanged and the report is
not forced. A row of type `EMPTY_TYPE` is always reported. -/
def raises (row : MemoryRow) (call : WriteCall) : Bool :=
  !(decide (row.type ≠ .emptyType) && !call.forceReport &&
    (row.currentSize == call.size && memcmpEq row.buffer call.buffer call.size))

/-- The reallocation step of `write_bytes`. `fresh n i` is the indeterminate byte `i` of a
block of `n` bytes as `new char[n]` returns it. -/
def reserve (fresh : ℕ → ℕ → UInt8) (row : MemoryRow) (size : ℕ) : MemoryRow :=
  if row.unboundedDataSize = true ∧ row.unboundedAllocationSize < size then
    { row with
      buffer := some ((List.range size).map (fresh size))
      unboundedAllocationSize := size }
  else row

/-- The final `memcpy` of `write_bytes`. -/
def store (row : MemoryRow) (data : List UInt8) (size : ℕ) : MemoryRow :=
  { row with currentSize := size, buffer := row.buffer.map fun b => blit b 0 data }

/-- `memory_row_impl::write_bytes`. -/
def writeBytes (fresh : ℕ → ℕ → UInt8) (row : MemoryRow) (call : WriteCall) : WriteResult :=
  if (call.buffer = none ∨ call.size > row.maxSize ∨ call.size = 0) ∧
      row.type ≠ .emptyType then
    ⟨row, false, none⟩
  else if call.priority < row.writePriority then
    -- Writing is not allowed for this call: no update, and a graceful return.
    ⟨row, true, none⟩
  else
    ⟨if row.raises call = true ∧ row.type ≠ .emptyType then
        (row.reserve fresh call.size).store (call.buffer.getD []) call.size
      else row.reserve fresh call.size,
      true,
      if row.raises call then some ⟨call.size, call.buffer⟩ else none⟩

/-- `memory_row_impl::set_write_priority`. -/
def setWritePriority (row : MemoryRow) (priority : UInt8) : MemoryRow :=
  { row with writePriority := priority }

/-- The valid bytes of the row. -/
def stored (row : MemoryRow) : List UInt8 := (row.buffer.getD []).take row.currentSize

end MemoryRow

/-! ### The register a row implements -/

/-- The bytes a write call carries. -/
def WriteCall.payload (call : WriteCall) : List UInt8 := call.buffer.getD []

/-- A write is **accepted** by a row of size `dataSize` whose write priority is
`priority`: it carries between one and `dataSize` bytes, and its priority suffices. -/
def WriteCall.Accepted (call : WriteCall) (dataSize : ℕ) (priority : UInt8) : Prop :=
  call.buffer ≠ none ∧ 0 < call.size ∧ call.size ≤ dataSize ∧ priority ≤ call.priority

instance (call : WriteCall) (dataSize : ℕ) (priority : UInt8) :
    Decidable (call.Accepted dataSize priority) :=
  inferInstanceAs (Decidable (_ ∧ _ ∧ _ ∧ _))

/-- The operations that change a row. -/
inductive RowOp
  | write (call : WriteCall)
  | setWritePriority (priority : UInt8)

/-- The abstract row: the payload of the last accepted write (`[]` before the first), the
write priority, and the callbacks raised so far. -/
structure Register where
  payload : List UInt8
  priority : UInt8
  raised : List Notification

namespace Register

/-- The register of a new row. -/
def init : Register := ⟨[], 0, []⟩

/-- An accepted write replaces the payload, and is reported when it is forced or its
payload differs from the one before; a write that is not accepted is ignored. -/
def step (dataSize : ℕ) (r : Register) : RowOp → Register
  | .write call =>
    if call.Accepted dataSize r.priority then
      { r with
        payload := call.payload
        raised := r.raised ++
          if call.forceReport = true ∨ call.payload ≠ r.payload then
            [⟨call.size, call.buffer⟩]
          else [] }
    else r
  | .setWritePriority priority => { r with priority := priority }

/-- The first `n` bytes of the register, padded with zeroes. -/
def read (r : Register) (n : ℕ) : List UInt8 := (r.payload ++ List.replicate n 0).take n

end Register

/-- A row together with the callbacks raised so far. -/
structure RowState where
  row : MemoryRow
  raised : List Notification

/-- One operation on a row, its callbacks raised at once. -/
def RowState.step (fresh : ℕ → ℕ → UInt8) (s : RowState) : RowOp → RowState
  | .write call =>
    let r := s.row.writeBytes fresh call
    ⟨r.row, s.raised ++ r.raised.toList⟩
  | .setWritePriority priority => { s with row := s.row.setWritePriority priority }

/-! ### Every operation keeps the representation -/

/-- A data row represents a register: the valid bytes are the payload, and the buffer has
room for them. A bounded buffer has the full row size, an unbounded one the size last
allocated. -/
structure Represents (row : MemoryRow) (payload : List UInt8) (priority : UInt8) : Prop where
  type_ne : row.type ≠ .emptyType
  stored_eq : row.stored = payload
  size_eq : row.currentSize = payload.length
  priority_eq : row.writePriority = priority
  bounded : row.unboundedDataSize = false →
    ∃ b, row.buffer = some b ∧ b.length = row.maxSize
  unbounded : row.unboundedDataSize = true →
    (row.buffer.getD []).length = row.unboundedAllocationSize

section Refinement

variable (fresh : ℕ → ℕ → UInt8) {row : MemoryRow} {payload : List UInt8} {priority : UInt8}

theorem WriteCall.payload_length {call : WriteCall} (h : call.buffer ≠ none) :
    call.payload.length = call.size := by
  obtain ⟨d, hd⟩ := Option.ne_none_iff_exists'.mp h
  rw [payload, hd]
  exact call.readable d hd

theorem represents_create {size : ℕ} {type : TypeEnum} (h : MemoryRow.create size type = some row)
    (hty : type ≠ .emptyType) : Represents row [] 0 := by
  rw [MemoryRow.create] at h
  split_ifs at h <;> cases h
  all_goals constructor <;> simp [MemoryRow.construct, MemoryRow.stored, hty]

/-- What is read of a row whose buffer holds as many bytes as are valid: these, and zeros
behind them. -/
theorem MemoryRow.readBytes_of_filled (h : row.currentSize = row.stored.length) {n : ℕ}
    (hpos : 0 < n) (hle : n ≤ row.dataSize) (dst : List UInt8) :
    row.readBytes (some dst) n =
      some (blit dst 0 ((row.stored ++ List.replicate n 0).take n)) := by
  have hst : (row.buffer.getD []).take row.currentSize = row.stored := rfl
  have hguard : ¬(n > row.maxSize ∨ n = 0) := by rw [MemoryRow.dataSize] at hle; omega
  simp only [MemoryRow.readBytes, if_neg hguard]
  rcases Nat.lt_or_ge row.currentSize n with hlt | hge
  · -- Fewer bytes are stored than asked for: the destination is cleared first.
    have hmin : min n row.currentSize = row.currentSize := by omega
    have hpad : (row.stored ++ List.replicate n 0).take n =
        row.stored ++ List.replicate (n - row.stored.length) 0 := by
      rw [List.take_append, List.take_of_length_le (by rw [← h]; omega),
        List.take_replicate, Nat.min_eq_left (by omega)]
    rw [hmin, if_pos hlt, hpad, hst]
    split_ifs with hz
    · rw [h] at hz
      rw [List.eq_nil_of_length_eq_zero hz, List.nil_append, List.length_nil, Nat.sub_zero]
    · rw [blit_zero_blit_zero (by rw [List.length_replicate, ← h]; omega),
        List.drop_replicate]
  · have hmin : min n row.currentSize = n := by omega
    have hpad : (row.stored ++ List.replicate n 0).take n = (row.buffer.getD []).take n := by
      rw [List.take_append_of_le_length (by rw [← h]; exact hge), ← hst,
        List.take_take, Nat.min_eq_left hge]
    rw [hmin, if_neg (lt_irrefl n), if_neg (by omega), hpad]

namespace Represents

/-- The valid bytes fit in the buffer. -/
theorem currentSize_le (h : Represents row payload priority) :
    row.currentSize ≤ (row.buffer.getD []).length := by
  have hlen := congrArg List.length h.stored_eq
  rw [MemoryRow.stored, List.length_take, ← h.size_eq] at hlen
  omega

/-- Change detection compares the new payload with the represented one. -/
theorem memcmpEq_iff (h : Represents row payload priority) {call : WriteCall}
    (hbuf : call.buffer ≠ none) (hpos : 0 < call.size) :
    (row.currentSize == call.size && MemoryRow.memcmpEq row.buffer call.buffer call.size) = true
      ↔ call.payload = payload := by
  obtain ⟨d, hd⟩ := Option.ne_none_iff_exists'.mp hbuf
  have hpay : call.payload = d := by rw [WriteCall.payload, hd]; rfl
  have hlen : d.length = call.size := call.readable d hd
  have hst := h.stored_eq
  have hle := h.currentSize_le
  rw [Bool.and_eq_true, beq_iff_eq, hpay, h.size_eq]
  cases hb : row.buffer with
  | none =>
    rw [MemoryRow.stored, hb, Option.getD_none, List.take_nil] at hst
    subst hst
    exact iff_of_false (fun hc => by simp at hc; omega) (fun hc => by simp [hc] at hlen; omega)
  | some b =>
    rw [MemoryRow.stored, hb, Option.getD_some, h.size_eq] at hst
    rw [hd, MemoryRow.memcmpEq_some, beq_iff_eq, List.take_of_length_le hlen.le]
    constructor
    · rintro ⟨hsize, hcmp⟩
      rw [← hst, hsize, hcmp]
    · rintro rfl
      exact ⟨hlen, by rw [← hlen, hst]⟩

/-- Reading is reading the register: the destination gets its first `n` bytes overwritten
and nothing else. -/
theorem readBytes_eq (h : Represents row payload priority) {n : ℕ} (hpos : 0 < n)
    (hle : n ≤ row.dataSize) (dst : List UInt8) :
    row.readBytes (some dst) n =
      some (blit dst 0 ((payload ++ List.replicate n 0).take n)) := by
  have hfilled : row.currentSize = row.stored.length := by rw [h.stored_eq, h.size_eq]
  rw [← h.stored_eq]
  exact MemoryRow.readBytes_of_filled hfilled hpos hle dst

end Represents

/-- Reallocation touches the buffer only. -/
theorem MemoryRow.reserve_frame (row : MemoryRow) (size : ℕ) :
    (row.reserve fresh size).type = row.type ∧
      (row.reserve fresh size).maxSize = row.maxSize ∧
      (row.reserve fresh size).writePriority = row.writePriority ∧
      (row.reserve fresh size).unboundedDataSize = row.unboundedDataSize := by
  rw [MemoryRow.reserve]
  split_ifs <;> exact ⟨rfl, rfl, rfl, rfl⟩

theorem MemoryRow.dataSize_writeBytes (row : MemoryRow) (call : WriteCall) :
    (row.writeBytes fresh call).row.dataSize = row.dataSize := by
  have hm := (MemoryRow.reserve_frame fresh row call.size).2.1
  rw [MemoryRow.writeBytes]
  split
  · rfl
  · split
    · rfl
    · dsimp only [MemoryRow.dataSize]
      split
      · exact hm
      · exact hm

/-- A write that is not accepted changes nothing and raises nothing. -/
theorem MemoryRow.writeBytes_of_not_accepted (call : WriteCall) (hty : row.type ≠ .emptyType)
    (h : ¬call.Accepted row.dataSize row.writePriority) :
    (row.writeBytes fresh call).row = row ∧ (row.writeBytes fresh call).raised = none := by
  rw [MemoryRow.writeBytes]
  split
  · exact ⟨rfl, rfl⟩
  · rename_i h₁
    split
    · exact ⟨rfl, rfl⟩
    · rename_i h₂
      refine absurd ⟨?_, ?_, ?_, ?_⟩ h
      · exact fun hb => h₁ ⟨.inl hb, hty⟩
      · exact Nat.pos_of_ne_zero fun hz => h₁ ⟨.inr (.inr hz), hty⟩
      · exact Nat.le_of_not_lt fun hgt => h₁ ⟨.inr (.inl hgt), hty⟩
      · exact UInt8.not_lt.mp h₂

/-- The buffer a write stores into has room for the payload: a bounded one always, an
unbounded one because it has just been grown if it was too small. -/
theorem Represents.reserve (h : Represents row payload priority) {size : ℕ} (hpos : 0 < size)
    (hle : size ≤ row.dataSize) :
    ∃ b, (row.reserve fresh size).buffer = some b ∧ size ≤ b.length ∧
      (row.unboundedDataSize = false → b.length = row.maxSize) ∧
      (row.unboundedDataSize = true →
        b.length = (row.reserve fresh size).unboundedAllocationSize) := by
  rw [MemoryRow.reserve]
  split_ifs with hgrow
  · exact ⟨_, rfl, by simp, by simp [hgrow.1], by simp⟩
  · cases hu : row.unboundedDataSize with
    | false =>
      obtain ⟨b, hb, hlen⟩ := h.bounded hu
      exact ⟨b, hb, by rw [hlen]; exact hle, fun _ => hlen, by simp⟩
    | true =>
      have hlen := h.unbounded hu
      have hge : size ≤ row.unboundedAllocationSize :=
        Nat.le_of_not_lt fun hlt => hgrow ⟨hu, hlt⟩
      cases hb : row.buffer with
      | none => simp [hb] at hlen; omega
      | some b =>
        rw [hb, Option.getD_some] at hlen
        exact ⟨b, rfl, by omega, by simp, fun _ => hlen⟩

/-- `raise` is set exactly when the write is forced or changes the payload. -/
theorem Represents.raises_iff (h : Represents row payload priority) {call : WriteCall}
    (hbuf : call.buffer ≠ none) (hpos : 0 < call.size) :
    row.raises call = true ↔ call.forceReport = true ∨ call.payload ≠ payload := by
  have hcmp := h.memcmpEq_iff hbuf hpos
  rw [MemoryRow.raises, decide_eq_true h.type_ne, Bool.true_and, Bool.not_eq_true',
    Bool.and_eq_false_iff, Bool.not_eq_false', ← Bool.not_eq_true]
  exact or_congr_right (not_congr hcmp)

/-- Storing into a buffer with room for the payload makes it the represented payload. -/
theorem Represents.store (h : Represents row payload priority) {data : List UInt8}
    (hpos : 0 < data.length) (hle : data.length ≤ row.dataSize) :
    Represents ((row.reserve fresh data.length).store data data.length) data priority := by
  obtain ⟨b, hb, hbl, hbnd, hunb⟩ := h.reserve fresh hpos hle
  obtain ⟨ht, hm, hp, hu⟩ := MemoryRow.reserve_frame fresh row data.length
  have hpb : 0 + data.length ≤ b.length := by omega
  refine ⟨ht ▸ h.type_ne, ?_, rfl, hp.trans h.priority_eq, fun hu' => ?_, fun hu' => ?_⟩
  · simp only [MemoryRow.stored, MemoryRow.store, hb, Option.map_some, Option.getD_some]
    rw [← slice_zero_left]
    exact slice_blit_self hpb
  · refine ⟨blit b 0 data, by rw [MemoryRow.store, hb]; rfl, ?_⟩
    rw [length_blit hpb, hbnd (hu ▸ hu')]
    exact hm.symm
  · simp only [MemoryRow.store, hb, Option.map_some, Option.getD_some]
    rw [length_blit hpb, hunb (hu ▸ hu')]

/-- An accepted write stores its payload, and is reported when it is forced or changes
the payload. -/
theorem Represents.writeBytes (h : Represents row payload priority) {call : WriteCall}
    (hacc : call.Accepted row.dataSize priority) :
    Represents (row.writeBytes fresh call).row call.payload priority ∧
      (row.writeBytes fresh call).raised =
        if call.forceReport = true ∨ call.payload ≠ payload then
          some ⟨call.size, call.buffer⟩ else none := by
  obtain ⟨hbuf, hpos, hle, hprio⟩ := hacc
  have hlen := WriteCall.payload_length hbuf
  have hguard : ¬((call.buffer = none ∨ call.size > row.maxSize ∨ call.size = 0) ∧
      row.type ≠ .emptyType) := by
    rw [MemoryRow.dataSize] at hle
    rintro ⟨h₁ | h₁ | h₁, -⟩
    · exact hbuf h₁
    · omega
    · omega
  have hprio' : ¬call.priority < row.writePriority := by
    rw [h.priority_eq]
    exact UInt8.not_lt.mpr hprio
  rw [MemoryRow.writeBytes, if_neg hguard, if_neg hprio']
  by_cases hr : row.raises call = true
  · rw [if_pos ⟨hr, h.type_ne⟩, if_pos hr, if_pos ((h.raises_iff hbuf hpos).mp hr)]
    refine ⟨?_, rfl⟩
    rw [← hlen]
    exact h.store fresh (hlen ▸ hpos) (hlen ▸ hle)
  · -- Unchanged and not forced: the stored bytes fill the buffer already, so that nothing
    -- is reallocated either.
    have hsame := mt (h.raises_iff hbuf hpos).mpr hr
    have heq : call.payload = payload := by
      by_contra hne
      exact hsame (.inr hne)
    have hkeep : row.reserve fresh call.size = row := by
      rw [MemoryRow.reserve, if_neg]
      rintro ⟨hu, hlt⟩
      have hcs := h.currentSize_le
      rw [h.unbounded hu, h.size_eq, ← heq, hlen] at hcs
      omega
    rw [if_neg fun hc => hr hc.1, if_neg hr, if_neg hsame, hkeep, heq]
    exact ⟨h, rfl⟩

/-- One operation on a row is one operation on its register. -/
theorem represents_step {s : RowState} {r : Register} {dataSize : ℕ} (op : RowOp)
    (h : Represents s.row r.payload r.priority ∧ s.row.dataSize = dataSize ∧
      s.raised = r.raised) :
    Represents (s.step fresh op).row (r.step dataSize op).payload (r.step dataSize op).priority ∧
      (s.step fresh op).row.dataSize = dataSize ∧
      (s.step fresh op).raised = (r.step dataSize op).raised := by
  obtain ⟨hrep, hsize, hraised⟩ := h
  cases op with
  | setWritePriority p =>
    exact ⟨⟨hrep.type_ne, hrep.stored_eq, hrep.size_eq, rfl, hrep.bounded, hrep.unbounded⟩,
      hsize, hraised⟩
  | write call =>
    by_cases hacc : call.Accepted dataSize r.priority
    · obtain ⟨hrow, hr⟩ := hrep.writeBytes fresh (hsize ▸ hacc)
      simp only [RowState.step, Register.step, if_pos hacc]
      refine ⟨hrow, ?_, ?_⟩
      · rw [MemoryRow.dataSize_writeBytes, hsize]
      · rw [hr, hraised]
        split_ifs <;> rfl
    · have hrej := MemoryRow.writeBytes_of_not_accepted fresh call hrep.type_ne
        (by rwa [hrep.priority_eq, hsize])
      simp only [RowState.step, Register.step, if_neg hacc, hrej.1, hrej.2]
      exact ⟨hrep, hsize, by simp [hraised]⟩

/-- **A data row is a register.** After any run of writes and priority changes on a bounded
or unbounded data row, reading `n` bytes gives the first `n` bytes of the last accepted
payload padded with zeroes, the callbacks raised are those of the accepted writes that were
forced or changed the payload, and a write that is not accepted leaves everything as it
was. -/
theorem memoryRow_refines_register {size : ℕ} {type : TypeEnum} {row : MemoryRow}
    (hcreate : MemoryRow.create size type = some row) (hty : type ≠ .emptyType)
    (ops : List RowOp) :
    let s := ops.foldl (RowState.step fresh) ⟨row, []⟩
    let r := ops.foldl (Register.step row.dataSize) Register.init
    (∀ n dst, 0 < n → n ≤ row.dataSize →
      s.row.readBytes (some dst) n = some (blit dst 0 (r.read n))) ∧
    s.raised = r.raised ∧
    (∀ call : WriteCall, ¬call.Accepted row.dataSize r.priority →
      s.step fresh (.write call) = s) := by
  intro s r
  obtain ⟨hrep, hsize, hraised⟩ :
      Represents s.row r.payload r.priority ∧ s.row.dataSize = row.dataSize ∧
        s.raised = r.raised :=
    List.foldl_rel (r := fun (s : RowState) (r : Register) =>
      Represents s.row r.payload r.priority ∧ s.row.dataSize = row.dataSize ∧
        s.raised = r.raised)
      ⟨represents_create hcreate hty, rfl, rfl⟩ fun op _ _ _ h => represents_step fresh op h
  refine ⟨fun n dst hpos hle => hrep.readBytes_eq hpos (hsize ▸ hle) dst, hraised, ?_⟩
  intro call hacc
  have hrej := MemoryRow.writeBytes_of_not_accepted fresh call hrep.type_ne
    (by rwa [hrep.priority_eq, hsize])
  simp [RowState.step, hrej.1, hrej.2]

/-- Two writes to a four-byte row, the second shorter: no byte of the first survives. -/
theorem memoryRow_refines_register_shrinking :
    let ops := [RowOp.write ⟨some [1, 2, 3, 4], 4, false, 0, by simp⟩,
      RowOp.write ⟨some [7], 1, false, 0, by simp⟩]
    let s := ops.foldl (RowState.step fun _ _ => 255) ⟨MemoryRow.construct 4 true .uint32, []⟩
    s.row.readBytes (some [9, 9, 9, 9, 9]) 3 = some [7, 0, 0, 9, 9] := by
  intro ops
  exact (@memoryRow_refines_register (fun _ _ => 255) 4 .uint32 _
    rfl (by decide) ops).1 3 [9, 9, 9, 9, 9] (by decide) (by decide)

end Refinement

end UtilityFramework
