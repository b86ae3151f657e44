import UtilityFramework.Parsers.BitFields

/-!
# Writing and reading a bit field

`bit_binary_node` compares a value with the greatest one of the field, which it computes as a
floating-point number, shifts it in the type of the caller's data, and copies whole blocks.
`BitRange.Stores` says what the block must be after a write, and `BitRange.stores_iff` when it is
that, from the bits of the shifted value and of the mask.

`Node.IsBitField.writesBits_iff` is the exact condition under which a write of a value is refused
when it should be, is read back in every length that can hold it, and leaves all other bits of
the buffer alone. `BitRange.Conforms` lists what can go wrong.
-/

namespace UtilityFramework

open Bytes

namespace BitRange

variable {p : Platform} {bits : BitRange} {w v exist i : ℕ}

/-! ### The bits of a write -/

/-- Bit `i` of the block belongs to the field. -/
def Covers (bits : BitRange) (i : ℕ) : Prop :=
  bits.bitOffset ≤ i ∧ i < bits.bitOffset + bits.numOfBits

instance (bits : BitRange) (i : ℕ) : Decidable (bits.Covers i) :=
  inferInstanceAs (Decidable (_ ∧ _))

/-- The mask of a field of fewer than 64 bits is the field. -/
theorem testBit_mask (hn : bits.numOfBits < 64) (hi : i < 64) :
    (bits.mask p).testBit i = decide (bits.Covers i) := by
  have hpos : 0 < 2 ^ bits.numOfBits := Nat.two_pow_pos _
  have hlt : 2 ^ bits.numOfBits < 2 ^ 64 := Nat.pow_lt_pow_right (by omega) hn
  have hmask : (p.castToUnsigned 8 (2 ^ bits.numOfBits) + (2 ^ 64 - 1)) % 2 ^ 64 =
      2 ^ bits.numOfBits - 1 := by
    rw [Platform.castToUnsigned, if_pos (by omega)]
    omega
  rw [mask, hmask, Nat.testBit_mod_two_pow, Nat.testBit_shiftLeft, Nat.testBit_two_pow_sub_one]
  by_cases hle : bits.bitOffset ≤ i
  · simp only [hi, hle, Covers, decide_true, Bool.true_and, true_and, decide_eq_decide]
    omega
  · simp [Covers, hle]

/-- The sign extension of a number of four bytes to eight. -/
theorem toNat_toSigned_emod (x : ℕ) :
    (toSigned 4 x % 2 ^ 64).toNat =
      2 ^ 32 * (if x.testBit 31 then 2 ^ 32 - 1 else 0) + x % 2 ^ 32 := by
  have hbit : x.testBit 31 = decide (2 ^ 31 ≤ x % 2 ^ 32) := by
    rw [Nat.testBit_eq_decide_div_mod_eq]
    simp only [decide_eq_decide]
    omega
  rw [hbit, toSigned]
  by_cases hneg : 2 ^ 31 ≤ x % 2 ^ 32
  · rw [if_neg (by norm_num; omega), decide_eq_true hneg, if_pos rfl]
    norm_num
    omega
  · rw [if_pos (by norm_num; omega), decide_eq_false hneg, if_neg (by decide)]
    norm_num
    omega

/-- The bits of the shifted value: data of four bytes loses those that leave the type, and in
data of one or two bytes the last bit of `int` is repeated. -/
theorem testBit_shifted (hi : i < 64) :
    (bits.shifted w v).testBit i =
      if w = 8 ∨ i < 32 then (v <<< bits.bitOffset).testBit i
      else if w = 4 then false
      else (v <<< bits.bitOffset).testBit 31 := by
  rw [shifted]
  by_cases h8 : w = 8
  · rw [if_pos h8, if_pos (Or.inl h8), Nat.testBit_mod_two_pow, decide_eq_true hi, Bool.true_and]
  · rw [if_neg h8]
    by_cases h4 : w = 4
    · rw [if_pos h4, Nat.testBit_mod_two_pow]
      by_cases h32 : i < 32
      · rw [if_pos (Or.inr h32), decide_eq_true h32, Bool.true_and]
      · rw [if_neg (not_or.mpr ⟨h8, h32⟩), if_pos h4, decide_eq_false h32, Bool.false_and]
    · rw [if_neg h4, toNat_toSigned_emod,
        Nat.testBit_two_pow_mul_add _ (Nat.mod_lt _ (Nat.two_pow_pos 32))]
      by_cases h32 : i < 32
      · rw [if_pos h32, if_pos (Or.inr h32), Nat.testBit_mod_two_pow, decide_eq_true h32,
          Bool.true_and]
      · rw [if_neg h32, if_neg (not_or.mpr ⟨h8, h32⟩), if_neg h4]
        have hhigh : i - 32 < 32 := by omega
        cases (v <<< bits.bitOffset).testBit 31 with
        | true => rw [if_pos rfl, Nat.testBit_two_pow_sub_one, decide_eq_true hhigh]
        | false => simp

theorem testBit_maskBitData_eq (hi : i < 64) :
    (bits.maskBitData p w v exist).testBit i =
      ((bits.shifted w v).testBit i || exist.testBit i && !(bits.mask p).testBit i) := by
  have hneg : (2 ^ 64 - 1 ^^^ bits.mask p).testBit i = !(bits.mask p).testBit i := by
    rw [Nat.testBit_xor, Nat.testBit_two_pow_sub_one, decide_eq_true hi, Bool.true_xor]
  rw [maskBitData, Nat.testBit_or, Nat.testBit_and, hneg]

/-- The bits of a value of the field, where they go in the block. -/
theorem covers_of_testBit (hv : v < 2 ^ bits.numOfBits)
    (h : (v <<< bits.bitOffset).testBit i = true) : bits.Covers i := by
  rw [Nat.testBit_shiftLeft] at h
  simp only [Bool.and_eq_true, decide_eq_true_eq] at h
  have hlt : i - bits.bitOffset < bits.numOfBits := by
    by_contra hge
    rw [Nat.testBit_lt_two_pow (hv.trans_le (Nat.pow_le_pow_right (by decide)
      (not_lt.mp hge)))] at h
    exact absurd h.2 (by decide)
  exact ⟨h.1, by have := h.1; omega⟩

/-- The block that a write of `v` leaves has the value in the field and is the old one
elsewhere. -/
def Stores (p : Platform) (bits : BitRange) (size exist w v : ℕ) : Prop :=
  (bits.maskBitData p w v exist % 256 ^ size &&& bits.mask p) >>> bits.bitOffset = v ∧
    ∀ i < 8 * size, ¬ bits.Covers i →
      (bits.maskBitData p w v exist).testBit i = exist.testBit i

variable {size : ℕ}

/-- The bits of the value that is read from the field after a write. -/
theorem testBit_written (hn : bits.numOfBits < 64) (hsize : size ≤ 8)
    (hfits : bits.bitOffset + bits.numOfBits ≤ 8 * size) (k : ℕ) :
    ((bits.maskBitData p w v exist % 256 ^ size &&& bits.mask p) >>> bits.bitOffset).testBit k =
      (decide (k < bits.numOfBits) && (bits.shifted w v).testBit (bits.bitOffset + k)) := by
  have hpow : (256 : ℕ) ^ size = 2 ^ (8 * size) := by rw [pow_mul]; norm_num
  rw [Nat.testBit_shiftRight, Nat.testBit_and, hpow, Nat.testBit_mod_two_pow]
  by_cases hk : k < bits.numOfBits
  · have hcover : bits.Covers (bits.bitOffset + k) := ⟨by omega, by omega⟩
    rw [testBit_maskBitData_eq (by omega), testBit_mask hn (by omega),
      decide_eq_true (by omega : bits.bitOffset + k < 8 * size), decide_eq_true hcover,
      decide_eq_true hk]
    simp
  · have hmask : (bits.mask p).testBit (bits.bitOffset + k) = false := by
      rw [Bool.eq_false_iff]
      exact fun hmask => hk (by have := (within_of_testBit_mask hmask).2; omega)
    rw [hmask, decide_eq_false hk]
    simp

/-- The field holds the value precisely if the shift has kept its bits. -/
theorem written_eq_iff (hn : bits.numOfBits < 64) (hv : v < 2 ^ bits.numOfBits) (hsize : size ≤ 8)
    (hfits : bits.bitOffset + bits.numOfBits ≤ 8 * size) :
    (bits.maskBitData p w v exist % 256 ^ size &&& bits.mask p) >>> bits.bitOffset = v ↔
      ∀ i < 8 * size, bits.Covers i →
        (bits.shifted w v).testBit i = (v <<< bits.bitOffset).testBit i := by
  constructor
  · rintro heq i - ⟨hlo, hhi⟩
    have hk := congrArg (fun x => x.testBit (i - bits.bitOffset)) heq
    simp only [testBit_written hn hsize hfits] at hk
    rw [decide_eq_true (by omega), Bool.true_and, Nat.add_sub_cancel' hlo] at hk
    rw [hk, Nat.testBit_shiftLeft, decide_eq_true hlo, Bool.true_and]
  · intro h
    refine Nat.eq_of_testBit_eq fun k => ?_
    rw [testBit_written hn hsize hfits]
    by_cases hk : k < bits.numOfBits
    · rw [decide_eq_true hk, Bool.true_and, h _ (by omega) ⟨by omega, by omega⟩,
        Nat.testBit_shiftLeft, decide_eq_true (Nat.le_add_right _ _), Bool.true_and,
        Nat.add_sub_cancel_left]
    · rw [decide_eq_false hk, Bool.false_and, Nat.testBit_lt_two_pow (hv.trans_le
        (Nat.pow_le_pow_right (by decide) (not_lt.mp hk)))]

/-- A bit outside of the field stays precisely if the shift does not set it. -/
theorem testBit_outside_iff (hn : bits.numOfBits < 64) {i : ℕ} (hi : i < 64)
    (hnot : ¬ bits.Covers i) :
    (bits.maskBitData p w v exist).testBit i = exist.testBit i ↔
      ((bits.shifted w v).testBit i = true → exist.testBit i = true) := by
  rw [testBit_maskBitData_eq hi, testBit_mask hn hi, decide_eq_false hnot]
  cases (bits.shifted w v).testBit i <;> cases exist.testBit i <;> decide

theorem stores_iff_testBit (hn : bits.numOfBits < 64) (hv : v < 2 ^ bits.numOfBits)
    (hsize : size ≤ 8) (hfits : bits.bitOffset + bits.numOfBits ≤ 8 * size) :
    bits.Stores p size exist w v ↔
      ∀ i < 8 * size, if bits.Covers i then
          (bits.shifted w v).testBit i = (v <<< bits.bitOffset).testBit i
        else (bits.shifted w v).testBit i = true → exist.testBit i = true := by
  rw [Stores, written_eq_iff hn hv hsize hfits]
  constructor
  · rintro ⟨hin, hout⟩ i hi
    split_ifs with hcover
    · exact hin i hi hcover
    · exact (testBit_outside_iff hn (by omega) hcover).mp (hout i hi hcover)
  · intro h
    refine ⟨fun i hi hcover => ?_, fun i hi hcover => ?_⟩
    · have hbit := h i hi
      rwa [if_pos hcover] at hbit
    · have hbit := h i hi
      rw [if_neg hcover] at hbit
      exact (testBit_outside_iff hn (by omega) hcover).mpr hbit

/-! ### Exactly when a write leaves the value -/

/-- The upper half of a block of eight bytes is right after a write of data of fewer bytes: the
shifted value does not leave the type of the data, or the bit of the sign, which is repeated in
the upper half, is what belongs there. -/
def UpperHalf (bits : BitRange) (exist w v : ℕ) : Prop :=
  if w < 4 ∧ (v <<< bits.bitOffset).testBit 31 = true then
    ∀ i, 32 ≤ i → i < 64 →
      (if bits.Covers i then (v <<< bits.bitOffset).testBit i else exist.testBit i) = true
  else v <<< bits.bitOffset < 2 ^ 32

/-- The value is below `2 ^ 32` where it goes in the block precisely if it has no bits in the
upper half. -/
theorem shiftLeft_lt_iff (hv : v < 2 ^ bits.numOfBits)
    (hfits : bits.bitOffset + bits.numOfBits ≤ 64) :
    v <<< bits.bitOffset < 2 ^ 32 ↔
      ∀ i, 32 ≤ i → i < 64 → (v <<< bits.bitOffset).testBit i = false := by
  constructor
  · intro hlt i hlo _
    exact Nat.testBit_lt_two_pow (hlt.trans_le (Nat.pow_le_pow_right (by decide) hlo))
  · intro h
    refine Nat.lt_pow_two_of_testBit _ fun i hlo => ?_
    by_cases hi : i < 64
    · exact h i hlo hi
    · rw [Bool.eq_false_iff]
      exact fun hbit => hi (by have := (covers_of_testBit hv hbit).2; omega)

/-- Where the shift does not lose bits, a write does no harm. -/
theorem harmless_of_lossless (hv : v < 2 ^ bits.numOfBits) (hi : i < 64) (hlow : w = 8 ∨ i < 32) :
    if bits.Covers i then (bits.shifted w v).testBit i = (v <<< bits.bitOffset).testBit i
    else (bits.shifted w v).testBit i = true → exist.testBit i = true := by
  rw [testBit_shifted hi, if_pos hlow]
  split_ifs with hcover
  · rfl
  · exact fun hbit => absurd (covers_of_testBit hv hbit) hcover

/-- The upper half of the shifted value of data of fewer than eight bytes. -/
theorem testBit_shifted_upper (hw : w = 1 ∨ w = 2 ∨ w = 4) (hlo : 32 ≤ i) (hi : i < 64) :
    (bits.shifted w v).testBit i =
      (decide (w < 4) && (v <<< bits.bitOffset).testBit 31) := by
  rw [testBit_shifted hi, if_neg (by omega)]
  by_cases h4 : w = 4
  · rw [if_pos h4, decide_eq_false (by omega), Bool.false_and]
  · rw [if_neg h4, decide_eq_true (by omega), Bool.true_and]

/-- What `UpperHalf` says bit by bit. -/
theorem upperHalf_iff (hv : v < 2 ^ bits.numOfBits) (hw : w = 1 ∨ w = 2 ∨ w = 4)
    (hfits : bits.bitOffset + bits.numOfBits ≤ 64) :
    bits.UpperHalf exist w v ↔ ∀ i, 32 ≤ i → i < 64 →
      if bits.Covers i then (bits.shifted w v).testBit i = (v <<< bits.bitOffset).testBit i
      else (bits.shifted w v).testBit i = true → exist.testBit i = true := by
  rw [UpperHalf]
  by_cases hsign : w < 4 ∧ (v <<< bits.bitOffset).testBit 31 = true
  · rw [if_pos hsign]
    refine forall₃_congr fun i hlo hi => ?_
    rw [testBit_shifted_upper hw hlo hi, hsign.2, decide_eq_true hsign.1, Bool.true_and]
    split_ifs
    · exact eq_comm
    · exact ⟨fun h _ => h, fun h => h rfl⟩
  · rw [if_neg hsign, shiftLeft_lt_iff hv hfits]
    refine forall₃_congr fun i hlo hi => ?_
    have hzero : (bits.shifted w v).testBit i = false := by
      rw [testBit_shifted_upper hw hlo hi, Bool.eq_false_iff]
      simpa using hsign
    rw [hzero]
    split_ifs with hcover
    · exact eq_comm
    · refine iff_of_true ?_ (by simp)
      rw [Bool.eq_false_iff]
      exact fun h => hcover (covers_of_testBit hv h)

/-- A write of a field of fewer than 64 bits. -/
theorem stores_iff (hn : bits.numOfBits < 64) (hv : v < 2 ^ bits.numOfBits)
    (hsize : size ≤ 4 ∨ size = 8) (hfits : bits.bitOffset + bits.numOfBits ≤ 8 * size)
    (hw : w = 1 ∨ w = 2 ∨ w = 4 ∨ w = 8) :
    bits.Stores p size exist w v ↔ (size = 8 → w < 8 → bits.UpperHalf exist w v) := by
  rw [stores_iff_testBit hn hv (by omega) hfits]
  rcases hsize with hsize | rfl
  · refine iff_of_true (fun i hi => harmless_of_lossless hv (by omega) (Or.inr (by omega))) ?_
    omega
  by_cases h8 : w = 8
  · refine iff_of_true (fun i hi => harmless_of_lossless hv hi (Or.inl h8)) ?_
    omega
  simp only [true_implies, show w < 8 by omega]
  rw [upperHalf_iff hv (by omega) hfits]
  refine ⟨fun h i _ hi => h i hi, fun h i hi => ?_⟩
  by_cases hlow : i < 32
  · exact harmless_of_lossless hv hi (Or.inr hlow)
  · exact h i (not_lt.mp hlow) hi

/-- What is stored of a number of 64 bits: the bits of the mask, which for a field of 64 bits
comes from a conversion that is out of range. -/
def whole (p : Platform) : ℕ := (p.outOfRange 8 (2 ^ 64) % 2 ^ 64 + (2 ^ 64 - 1)) % 2 ^ 64

/-- A write of a field of 64 bits. -/
theorem stores_iff_whole (hn : bits.numOfBits = 64) (hoff : bits.bitOffset = 0)
    (hv : v < 256 ^ w) (hw : w = 1 ∨ w = 2 ∨ w = 4 ∨ w = 8) :
    bits.Stores p 8 exist w v ↔ v &&& whole p = v := by
  have hmask : bits.mask p = whole p := by
    rw [mask, hn, hoff, Platform.castToUnsigned, if_neg (by decide), Nat.shiftLeft_zero,
      Nat.mod_mod, whole]
  have hshifted : bits.shifted w v = v := by
    rw [shifted, hoff, Nat.shiftLeft_zero]
    rcases hw with rfl | rfl | rfl | rfl
    · rw [if_neg (by decide), if_neg (by decide), toSigned, if_pos (by omega)]
      omega
    · rw [if_neg (by decide), if_neg (by decide), toSigned, if_pos (by omega)]
      omega
    · rw [if_neg (by decide), if_pos rfl, Nat.mod_eq_of_lt (by omega)]
    · rw [if_pos rfl, Nat.mod_eq_of_lt (by omega)]
  have hvalue : (bits.maskBitData p w v exist % 256 ^ 8 &&& bits.mask p) >>> bits.bitOffset =
      v &&& whole p := by
    rw [hoff, Nat.shiftRight_zero, hmask]
    refine Nat.eq_of_testBit_eq fun i => ?_
    by_cases hi : i < 64
    · rw [Nat.testBit_and, show (256 : ℕ) ^ 8 = 2 ^ 64 by norm_num, Nat.testBit_mod_two_pow,
        testBit_maskBitData_eq hi, hshifted, hmask, Nat.testBit_and, decide_eq_true hi]
      cases (whole p).testBit i <;> simp
    · have hhigh : (whole p).testBit i = false := Nat.testBit_lt_two_pow
        ((Nat.mod_lt _ (Nat.two_pow_pos 64)).trans_le
          (Nat.pow_le_pow_right (by decide) (not_lt.mp hi)))
      rw [Nat.testBit_and, Nat.testBit_and, hhigh, Bool.and_false, Bool.and_false]
  rw [Stores, hvalue]
  refine and_iff_left fun i hi hnot => absurd ?_ hnot
  exact ⟨by omega, by omega⟩

/-- `check_data` refuses the values that the field cannot hold: the greatest value is computed
exactly up to 53 bits, and its conversion to the type of the data must not be less than the
value. -/
theorem checkData_iff (hv : v < 2 ^ (8 * w)) :
    (bits.checkData p w v = true ↔ v < 2 ^ bits.numOfBits) ↔
      (2 ^ bits.numOfBits ≤ v → bits.numOfBits ≤ 53 ∨ v ≠ 2 ^ bits.numOfBits) ∧
      (v < 2 ^ bits.numOfBits → 2 ^ (8 * w) ≤ pow2MinusOne bits.numOfBits →
        v ≤ p.outOfRange w (pow2MinusOne bits.numOfBits) % 2 ^ (8 * w)) := by
  have hpos : 0 < 2 ^ bits.numOfBits := Nat.two_pow_pos _
  rw [checkData, decide_eq_true_iff, Platform.castToUnsigned, pow2MinusOne]
  by_cases hn : bits.numOfBits ≤ 53
  · rw [if_pos hn]
    split_ifs with hin <;> grind
  · rw [if_neg hn]
    split_ifs with hin <;> grind

/-- Reading and writing a field of the block meet their specification: a write is refused
precisely if the field cannot hold the value, the shift and the mask keep the value and the
other bits of the block, and no read stores more bytes than it is asked for. -/
structure Conforms (p : Platform) (win32 : Bool) (bits : BitRange) (size exist w v : ℕ) :
    Prop where
  /-- From 54 bits on the greatest value is computed as one too many. -/
  refused : 2 ^ bits.numOfBits ≤ v → bits.numOfBits ≤ 53 ∨ v ≠ 2 ^ bits.numOfBits
  /-- The greatest value may be out of range for the type of the data. -/
  accepted : v < 2 ^ bits.numOfBits → 2 ^ (8 * w) ≤ pow2MinusOne bits.numOfBits →
    v ≤ p.outOfRange w (pow2MinusOne bits.numOfBits) % 2 ^ (8 * w)
  upper : v < 2 ^ bits.numOfBits → bits.numOfBits < 64 → size = 8 → w < 8 →
    bits.UpperHalf exist w v
  whole : v < 2 ^ bits.numOfBits → bits.numOfBits = 64 → v &&& whole p = v
  /-- Without `WIN32` a read copies the whole block, so that the value must need all its
  bytes. -/
  stored : v < 2 ^ bits.numOfBits → win32 = true ∨ size = 1 ∨ 256 ^ (size - 1) ≤ v

end BitRange

/-! ### Reading a bit field -/

/-- `bit_binary_node::read` of `n` bytes from a block: what it stores from the beginning of the
caller's data on. With `WIN32` these are the `n` bytes, without it as many as the block has. -/
def BinaryNode.readBits {μ : Type} (p : Platform) (win32 : Bool) (node : BinaryNode μ) (n : ℕ)
    (block : List UInt8) : Option (List UInt8) :=
  if node.size < n then none
  else if 8 < block.length then none
  else
    node.bits.map fun bits =>
      let stored := toLE (if win32 then n else block.length)
        ((ofLE block &&& bits.mask p) >>> bits.bitOffset)
      convertOrder node.bigEndian (stored.take n) ++ stored.drop n

/-- `read_by_node` of a bit field, with `read_bits_by_node`: what it stores. -/
def readBitField (p : Platform) (win32 : Bool) (buf : List UInt8) (off : ℕ) (node : Node)
    (n : ℕ) : Option (List UInt8) :=
  if node.size < n then none
  else (safeRead buf node.size (off + node.offset)).bind (node.readBits p win32 n)

/-- `write_by_node` with what it returns and the buffer that it leaves. -/
def writeField (p : Platform) (buf : List UInt8) (off : ℕ) (node : Node) (data : List UInt8) :
    Bool × List UInt8 :=
  match writeByNode p buf off node data with
  | none => (false, buf)
  | some buf' => (true, buf')

namespace Node.IsBitField

variable {p : Platform} {win32 : Bool} {buf : List UInt8} {off w v n : ℕ} {node : Node}
  {bits : BitRange}

theorem readBitField_eq (h : node.IsBitField bits)
    (hin : off + node.offset + node.size ≤ buf.length) (hn : n ≤ node.size) :
    readBitField p win32 buf off node n =
      some (toLE (if win32 then n else node.size)
        ((ofLE (slice buf (off + node.offset) node.size) &&& bits.mask p) >>>
          bits.bitOffset)) := by
  have hlen : (slice buf (off + node.offset) node.size).length = node.size := length_slice hin
  have hread : safeRead buf node.size (off + node.offset) =
      some (slice buf (off + node.offset) node.size) := if_pos (by omega)
  have hsize := h.size
  rw [readBitField, if_neg (by omega), hread, Option.bind_some, BinaryNode.readBits,
    if_neg (by omega), if_neg (by omega), h.range, Option.map_some, hlen, h.order]
  simp only [convertOrder_false, List.take_append_drop]

/-- A read of all bytes of the field is the one of the other modules. -/
theorem readBitField_size (h : node.IsBitField bits)
    (hin : off + node.offset + node.size ≤ buf.length) :
    readBitField p win32 buf off node node.size = readByNode p buf off node node.size := by
  have hlen : (slice buf (off + node.offset) node.size).length = node.size := length_slice hin
  have hread : safeRead buf node.size (off + node.offset) =
      some (slice buf (off + node.offset) node.size) := if_pos (by omega)
  have hsize := h.size
  rw [h.readBitField_eq hin le_rfl, readByNode, if_neg (lt_irrefl _), if_pos h.type,
    readBitsByNode, hread, Option.bind_some, BinaryNode.read, h.range]
  simp only
  rw [ite_self, if_neg (by omega), h.order, convertOrder_false]

/-- A write of `w` bytes with the number `v`. -/
theorem writeByNode_eq (h : node.IsBitField bits)
    (hin : off + node.offset + node.size ≤ buf.length) (hw : w = 1 ∨ w = 2 ∨ w = 4 ∨ w = 8)
    (hle : w ≤ node.size) (hv : v < 256 ^ w) :
    writeByNode p buf off node (toLE w v) =
      if bits.checkData p w v then
        some (blit buf (off + node.offset) (toLE node.size
          (bits.maskBitData p w v (ofLE (slice buf (off + node.offset) node.size)))))
      else none := by
  have hlen : (slice buf (off + node.offset) node.size).length = node.size := length_slice hin
  have hread : safeRead buf node.size (off + node.offset) =
      some (slice buf (off + node.offset) node.size) := if_pos (by omega)
  have hval : ofLE (toLE w v) = v := by rw [ofLE_toLE, Nat.mod_eq_of_lt hv]
  have hsize := h.size
  have hwrite : node.write p (toLE w v) (slice buf (off + node.offset) node.size) =
      if bits.checkData p w v then
        some (toLE node.size
          (bits.maskBitData p w v (ofLE (slice buf (off + node.offset) node.size))))
      else none := by
    rw [BinaryNode.write, length_toLE, if_neg (by omega), h.range]
    simp only
    rw [if_neg (by omega), if_neg (by omega), h.order, convertOrder_false, hval, hlen]
  rw [writeByNode, length_toLE, if_neg (by omega), if_pos h.type, writeBitsByNode, hread]
  simp only [Option.bind_eq_bind, Option.bind_some, hwrite]
  by_cases hcheck : bits.checkData p w v = true
  · rw [if_pos hcheck, if_pos hcheck, Option.bind_some, safeWrite,
      if_pos (by rw [length_toLE]; omega)]
  · rw [if_neg hcheck, if_neg hcheck, Option.bind_none]

/-- The buffer after a write that is not refused. -/
theorem writeField_eq (h : node.IsBitField bits)
    (hin : off + node.offset + node.size ≤ buf.length) (hw : w = 1 ∨ w = 2 ∨ w = 4 ∨ w = 8)
    (hle : w ≤ node.size) (hv : v < 256 ^ w) :
    writeField p buf off node (toLE w v) =
      if bits.checkData p w v then
        (true, blit buf (off + node.offset) (toLE node.size
          (bits.maskBitData p w v (ofLE (slice buf (off + node.offset) node.size)))))
      else (false, buf) := by
  rw [writeField, h.writeByNode_eq hin hw hle hv]
  split_ifs <;> rfl

end Node.IsBitField

/-- A field in a block at the beginning of a record. -/
def bitField (size : ℕ) (bits : BitRange) : Node :=
  { (BinaryMetadata.empty false).newNode "a" size .bitmap with bits := some bits }

/-- Bit `i` of the buffer belongs to the field. -/
def BitRange.At (bits : BitRange) (off : ℕ) (node : Node) (i : ℕ) : Prop :=
  8 * (off + node.offset) + bits.bitOffset ≤ i ∧
    i < 8 * (off + node.offset) + bits.bitOffset + bits.numOfBits

/-- A write of `v` to a bit field as `w` bytes does what it should. -/
structure Node.WritesBits (p : Platform) (win32 : Bool) (buf : List UInt8) (off : ℕ) (node : Node)
    (bits : BitRange) (w v : ℕ) : Prop where
  succeeds : (writeField p buf off node (toLE w v)).1 = true ↔ v < 2 ^ bits.numOfBits
  reads : (writeField p buf off node (toLE w v)).1 = true →
    ∀ r, 1 ≤ r → r ≤ node.size → v < 256 ^ r →
      readBitField p win32 (writeField p buf off node (toLE w v)).2 off node r = some (toLE r v)
  others : (writeField p buf off node (toLE w v)).1 = true →
    ∀ i, ¬ bits.At off node i →
      bit (writeField p buf off node (toLE w v)).2 i = bit buf i
  length : (writeField p buf off node (toLE w v)).2.length = buf.length
  fails : (writeField p buf off node (toLE w v)).1 = false →
    (writeField p buf off node (toLE w v)).2 = buf

/-- Reads of all lengths that can hold `v` give `v` when they all store the number `x`, each as
many bytes as it is asked for or each as many as the block has. -/
theorem forall_toLE_eq_iff {win32 : Bool} {size x v : ℕ} (hsize : 1 ≤ size)
    (hx : x < 256 ^ size) (hv : v < 256 ^ size) :
    (∀ r, 1 ≤ r → r ≤ size → v < 256 ^ r →
        toLE (if win32 then r else size) x = toLE r v) ↔
      x = v ∧ (win32 = true ∨ size = 1 ∨ 256 ^ (size - 1) ≤ v) := by
  constructor
  · intro h
    constructor
    · have hwhole := h size hsize le_rfl hv
      rw [ite_self] at hwhole
      have hnum := congrArg ofLE hwhole
      rwa [ofLE_toLE, ofLE_toLE, Nat.mod_eq_of_lt hx, Nat.mod_eq_of_lt hv] at hnum
    · by_contra hnot
      simp only [not_or, not_le] at hnot
      obtain ⟨hwin, hone, hshort⟩ := hnot
      have hlen := congrArg List.length (h (size - 1) (by omega) (by omega) hshort)
      rw [if_neg hwin, length_toLE, length_toLE] at hlen
      omega
  · rintro ⟨rfl, hcond⟩ r hr hle hvr
    rcases hcond with hwin | hcond
    · rw [if_pos hwin]
    · -- the value needs all bytes of the block
      have hr : r = size := by
        refine le_antisymm hle (not_lt.mp fun hlt => ?_)
        have hpow : (256 : ℕ) ^ r ≤ 256 ^ (size - 1) := Nat.pow_le_pow_right (by decide) (by omega)
        omega
      rw [hr, ite_self]

namespace Node.IsBitField

variable {p : Platform} {win32 : Bool} {buf : List UInt8} {off w v : ℕ} {node : Node}
  {bits : BitRange}

theorem reads_iff (p : Platform) (win32 : Bool) (h : node.IsBitField bits)
    (hin : off + node.offset + node.size ≤ buf.length) (hpos : 1 ≤ node.size) (x : ℕ)
    (hv : v < 256 ^ node.size) :
    (∀ r, 1 ≤ r → r ≤ node.size → v < 256 ^ r →
        readBitField p win32 (blit buf (off + node.offset) (toLE node.size x)) off node r =
          some (toLE r v)) ↔
      (x % 256 ^ node.size &&& bits.mask p) >>> bits.bitOffset = v ∧
        (win32 = true ∨ node.size = 1 ∨ 256 ^ (node.size - 1) ≤ v) := by
  have hfit : off + node.offset + (toLE node.size x).length ≤ buf.length := by
    rwa [length_toLE]
  have hslice : slice (blit buf (off + node.offset) (toLE node.size x)) (off + node.offset)
      node.size = toLE node.size x := by
    have hself := slice_blit_self hfit
    rwa [length_toLE] at hself
  have hlt : (x % 256 ^ node.size &&& bits.mask p) >>> bits.bitOffset < 256 ^ node.size := by
    rw [Nat.shiftRight_eq_div_pow]
    exact ((Nat.div_le_self _ _).trans Nat.and_le_left).trans_lt
      (Nat.mod_lt _ (Nat.pow_pos (by decide)))
  rw [← forall_toLE_eq_iff hpos hlt hv]
  refine forall₄_congr fun r _ hle _ => ?_
  rw [h.readBitField_eq (by rwa [length_blit hfit]) hle, hslice, ofLE_toLE, Option.some.injEq]

/-- The other bits of the buffer stay precisely if those of the block do. -/
theorem others_iff (bits : BitRange) (hin : off + node.offset + node.size ≤ buf.length) (x : ℕ) :
    (∀ i, ¬ bits.At off node i →
        bit (blit buf (off + node.offset) (toLE node.size x)) i = bit buf i) ↔
      ∀ i < 8 * node.size, ¬ bits.Covers i →
        x.testBit i = (ofLE (slice buf (off + node.offset) node.size)).testBit i := by
  have hfit : off + node.offset + (toLE node.size x).length ≤ buf.length := by
    rwa [length_toLE]
  have hbit : ∀ i < 8 * node.size,
      (bit (blit buf (off + node.offset) (toLE node.size x)) (8 * (off + node.offset) + i) =
          bit buf (8 * (off + node.offset) + i) ↔
        x.testBit i = (ofLE (slice buf (off + node.offset) node.size)).testBit i) := by
    intro i hi
    rw [bit_blit hfit, if_pos (by rw [length_toLE]; omega), Nat.add_sub_cancel_left, bit_toLE,
      decide_eq_true hi, Bool.true_and, testBit_ofLE, bit_slice, decide_eq_true hi,
      Bool.true_and]
  constructor
  · intro h i hi hnot
    refine (hbit i hi).mp (h _ fun hat => hnot ?_)
    obtain ⟨hlo, hhi⟩ := hat
    exact ⟨by omega, by omega⟩
  · intro h i hnot
    by_cases hwin : 8 * (off + node.offset) ≤ i ∧ i < 8 * (off + node.offset) + 8 * node.size
    · obtain ⟨k, rfl⟩ := Nat.exists_eq_add_of_le hwin.1
      refine (hbit k (by omega)).mpr (h k (by omega) fun hcover => hnot ?_)
      obtain ⟨hlo, hhi⟩ := hcover
      exact ⟨by omega, by omega⟩
    · rw [bit_blit hfit, if_neg]
      rw [length_toLE]
      omega

/-- A write that is not refused does what it should precisely if it leaves the value in the block
and every read stores as many bytes as it is asked for. -/
theorem writesBits_iff_stores (h : node.IsBitField bits)
    (hin : off + node.offset + node.size ≤ buf.length) (hpos : 1 ≤ node.size)
    (hw : w = 1 ∨ w = 2 ∨ w = 4 ∨ w = 8) (hle : w ≤ node.size) (hv : v < 256 ^ w) :
    node.WritesBits p win32 buf off bits w v ↔
      (bits.checkData p w v = true ↔ v < 2 ^ bits.numOfBits) ∧
        (v < 2 ^ bits.numOfBits →
          bits.Stores p node.size (ofLE (slice buf (off + node.offset) node.size)) w v ∧
            (win32 = true ∨ node.size = 1 ∨ 256 ^ (node.size - 1) ≤ v)) := by
  have hvsize : v < 256 ^ node.size := hv.trans_le (Nat.pow_le_pow_right (by decide) hle)
  have hwrite := h.writeField_eq (p := p) hin hw hle hv
  by_cases hcheck : bits.checkData p w v = true
  · rw [if_pos hcheck] at hwrite
    have hreads := h.reads_iff p win32 hin hpos
      (bits.maskBitData p w v (ofLE (slice buf (off + node.offset) node.size))) hvsize
    have hothers := others_iff bits hin
      (bits.maskBitData p w v (ofLE (slice buf (off + node.offset) node.size)))
    constructor
    · intro hall
      have hyes := hall.reads
      have hrest := hall.others
      have hok := hall.succeeds
      rw [hwrite] at hyes hrest hok
      refine ⟨by simpa [hcheck] using hok, fun _ => ?_⟩
      obtain ⟨hvalue, hstored⟩ := hreads.mp (hyes rfl)
      exact ⟨⟨hvalue, hothers.mp (hrest rfl)⟩, hstored⟩
    · rintro ⟨hok, hstores⟩
      obtain ⟨⟨hvalue, hrest⟩, hstored⟩ := hstores (hok.mp hcheck)
      refine ⟨?_, ?_, ?_, ?_, ?_⟩ <;> rw [hwrite]
      · simpa [hcheck] using hok
      · exact fun _ => hreads.mpr ⟨hvalue, hstored⟩
      · exact fun _ => hothers.mpr hrest
      · exact length_blit (by rwa [length_toLE])
      · exact nofun
  · rw [if_neg hcheck] at hwrite
    constructor
    · intro hall
      have hok := hall.succeeds
      rw [hwrite] at hok
      have hge : ¬ v < 2 ^ bits.numOfBits := fun hlt => Bool.false_ne_true (hok.mpr hlt)
      exact ⟨iff_of_false hcheck hge, fun hlt => absurd hlt hge⟩
    · rintro ⟨hok, -⟩
      refine ⟨?_, ?_, ?_, ?_, ?_⟩ <;> rw [hwrite]
      · simpa [hcheck] using hok
      · exact nofun
      · exact nofun
      · exact fun _ => rfl

/-- **Bit-field write and read.** A write to a bit field of 1 to 64 bits, in a block of 1, 2, 4 or
8 bytes of the buffer, of a value of 1, 2, 4 or 8 bytes does what it should precisely if the
field and the value conform. -/
theorem writesBits_iff (p : Platform) (win32 : Bool) (h : node.IsBitField bits)
    (hn : 1 ≤ bits.numOfBits ∧ bits.numOfBits ≤ 64)
    (hsize : node.size = 1 ∨ node.size = 2 ∨ node.size = 4 ∨ node.size = 8)
    (hin : off + node.offset + node.size ≤ buf.length) (hw : w = 1 ∨ w = 2 ∨ w = 4 ∨ w = 8)
    (hle : w ≤ node.size) (hv : v < 256 ^ w) :
    node.WritesBits p win32 buf off bits w v ↔
      bits.Conforms p win32 node.size (ofLE (slice buf (off + node.offset) node.size)) w v := by
  have hfits := h.fits
  have hv' : v < 2 ^ (8 * w) := by
    rw [pow_mul]
    exact hv
  rw [h.writesBits_iff_stores hin (by omega) hw hle hv, BitRange.checkData_iff hv']
  by_cases hfull : bits.numOfBits = 64
  · have hoff : bits.bitOffset = 0 := by omega
    have hsize8 : node.size = 8 := by omega
    have hstores : bits.Stores p node.size (ofLE (slice buf (off + node.offset) node.size)) w v ↔
        v &&& BitRange.whole p = v := by
      rw [hsize8]
      exact BitRange.stores_iff_whole hfull hoff hv hw
    rw [hstores]
    constructor
    · rintro ⟨⟨hrefused, haccepted⟩, hrest⟩
      exact ⟨hrefused, haccepted, fun _ hn' => absurd hn' (by omega), fun hlt _ => (hrest hlt).1,
        fun hlt => (hrest hlt).2⟩
    · intro hc
      exact ⟨⟨hc.refused, hc.accepted⟩, fun hlt => ⟨hc.whole hlt hfull, hc.stored hlt⟩⟩
  · have hn' : bits.numOfBits < 64 := by omega
    constructor
    · rintro ⟨⟨hrefused, haccepted⟩, hrest⟩
      exact ⟨hrefused, haccepted,
        fun hlt _ => (BitRange.stores_iff hn' hlt (by omega) hfits hw).mp (hrest hlt).1,
        fun _ h64 => absurd h64 hfull, fun hlt => (hrest hlt).2⟩
    · intro hc
      exact ⟨⟨hc.refused, hc.accepted⟩, fun hlt =>
        ⟨(BitRange.stores_iff hn' hlt (by omega) hfits hw).mpr (hc.upper hlt hn'),
          hc.stored hlt⟩⟩

/-- A field of three bits, in the middle of a byte. -/
theorem writesBits_iff_one_byte :
    (bitField 1 ⟨2, 3⟩).WritesBits ⟨fun _ _ => 0⟩ false [0xff] 0 ⟨2, 3⟩ 1 5 :=
  (writesBits_iff ⟨fun _ _ => 0⟩ false ⟨rfl, rfl, rfl, by decide, by decide⟩ ⟨by decide, by decide⟩
    (Or.inl rfl) (by decide) (Or.inl rfl) (by decide) (by decide)).mpr
    ⟨nofun, fun _ h => absurd h (by decide), fun _ _ h => absurd h (by decide),
      fun _ h => absurd h (by decide), fun _ => Or.inr (Or.inl rfl)⟩

/-- A field of 54 bits takes `2 ^ 54`; data of two bytes loses its high bits in a field behind the
first bytes of a block of eight; and without `WIN32` a read of one byte stores two. -/
theorem writesBits_fails :
    ¬ (bitField 8 ⟨0, 54⟩).WritesBits ⟨fun _ _ => 0⟩ true [0, 0, 0, 0, 0, 0, 0, 0] 0 ⟨0, 54⟩ 8
        (2 ^ 54) ∧
      ¬ (bitField 8 ⟨24, 16⟩).WritesBits ⟨fun _ _ => 0⟩ true [0, 0, 0, 0, 0, 0, 0, 0] 0 ⟨24, 16⟩ 2
        0x100 ∧
      ¬ (bitField 2 ⟨0, 3⟩).WritesBits ⟨fun _ _ => 0⟩ false [0, 0] 0 ⟨0, 3⟩ 1 5 := by
  refine ⟨fun h => ?_, fun h => ?_, fun h => ?_⟩
  · exact absurd (h.succeeds.mp (by decide +kernel)) (by decide)
  · have hread := h.reads (by decide +kernel) 8 (by decide) (by decide) (by decide)
    revert hread
    decide +kernel
  · have hread := h.reads (by decide +kernel) 1 (by decide) (by decide) (by decide)
    revert hread
    decide +kernel

end Node.IsBitField

end UtilityFramework
