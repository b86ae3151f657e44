import Mathlib.Data.List.Nodup
import UtilityFramework.Parsers.Layout
import UtilityFramework.Parsers.ParserJson

/-!
# Bit fields through JSON

The encoder reads a bit field through its block, whatever the size of the block; the decoder
writes it back as a value of eight bytes, which only a block of eight bytes accepts, and
drops the result. What carries the proof is the effect of the decoder on single bits: after
it, a bit of the new record is the bit of the source if it belongs to a field that was
written, and zero otherwise.
-/

namespace UtilityFramework

open Bytes Transition

/-! ### Masks -/

namespace BitRange

variable {p : Platform} {bits : BitRange}

/-- The mask selects bits of the field only. For fewer than 64 bits it selects all of them;
for 64 bits it depends on the platform which. -/
theorem within_of_testBit_mask {i : ℕ} (h : (bits.mask p).testBit i = true) :
    bits.bitOffset ≤ i ∧ i < bits.bitOffset + bits.numOfBits := by
  rw [mask, Nat.testBit_mod_two_pow, Nat.testBit_shiftLeft] at h
  simp only [Bool.and_eq_true, decide_eq_true_eq] at h
  obtain ⟨hi, hle, hbit⟩ := h
  refine ⟨hle, ?_⟩
  by_cases hn : bits.numOfBits < 64
  · have hpos : 0 < 2 ^ bits.numOfBits := Nat.two_pow_pos _
    have hlt : 2 ^ bits.numOfBits < 2 ^ 64 := Nat.pow_lt_pow_right (by omega) hn
    have hmask : (p.castToUnsigned 8 (2 ^ bits.numOfBits) + (2 ^ 64 - 1)) % 2 ^ 64 =
        2 ^ bits.numOfBits - 1 := by
      rw [Platform.castToUnsigned, if_pos (by omega)]
      omega
    rw [hmask, Nat.testBit_two_pow_sub_one, decide_eq_true_eq] at hbit
    omega
  · omega

/-- The bits of what a write leaves in the block, when the value was read from `x`. -/
theorem testBit_maskBitData (x exist : ℕ) {i : ℕ} (hi : i < 64) :
    (bits.maskBitData p 8 ((x &&& bits.mask p) >>> bits.bitOffset) exist).testBit i =
      if (bits.mask p).testBit i then x.testBit i else exist.testBit i := by
  have hneg : (2 ^ 64 - 1 ^^^ bits.mask p).testBit i = !(bits.mask p).testBit i := by
    rw [Nat.testBit_xor, Nat.testBit_two_pow_sub_one, decide_eq_true hi, Bool.true_xor]
  have hshift : (bits.shifted 8 ((x &&& bits.mask p) >>> bits.bitOffset)).testBit i =
      (x.testBit i && (bits.mask p).testBit i) := by
    rw [shifted, if_pos rfl, Nat.testBit_mod_two_pow, decide_eq_true hi, Bool.true_and,
      Nat.testBit_shiftLeft, Nat.testBit_shiftRight]
    by_cases hle : bits.bitOffset ≤ i
    · rw [Nat.add_sub_cancel' hle, Nat.testBit_and]
      simp [hle]
    · -- Below the field the mask is zero.
      have hzero : (bits.mask p).testBit i = false := by
        rw [Bool.eq_false_iff]
        exact fun hmask => hle (within_of_testBit_mask hmask).1
      simp [hle, hzero]
  rw [maskBitData, Nat.testBit_or, Nat.testBit_and, hneg, hshift]
  cases (bits.mask p).testBit i <;> simp

end BitRange

/-! ### The value of a bit field -/

/-- The value of a bit field of a record, as the encoder reads it. -/
def bitValue (p : Platform) (buf : List UInt8) (node : Node) : ℕ :=
  ofLE ((readByNode p buf 0 node node.size).getD [])

/-- Bit `i` of the record belongs to the field. -/
def BitRange.Selects (p : Platform) (bits : BitRange) (node : Node) (i : ℕ) : Prop :=
  8 * node.offset ≤ i ∧ i < 8 * (node.offset + node.size) ∧
    (bits.mask p).testBit (i - 8 * node.offset) = true

/-- A bit field in a block of at most eight bytes, in the byte order of the platform. -/
structure Node.IsBitField (node : Node) (bits : BitRange) : Prop where
  type : node.type = .bitmap
  range : node.bits = some bits
  order : node.bigEndian = false
  size : node.size ≤ 8
  fits : bits.bitOffset + bits.numOfBits ≤ 8 * node.size

namespace Node.IsBitField

variable {p : Platform} {node : Node} {bits : BitRange} {buf src : List UInt8}

theorem readByNode_eq (h : node.IsBitField bits) (hin : node.offset + node.size ≤ buf.length) :
    readByNode p buf 0 node node.size =
      some (toLE node.size
        ((ofLE (slice buf node.offset node.size) &&& bits.mask p) >>> bits.bitOffset)) := by
  have hread : safeRead buf node.size (0 + node.offset) =
      some (slice buf node.offset node.size) := by
    rw [safeRead, if_pos (by omega), Nat.zero_add]
  have hlen : (slice buf node.offset node.size).length ≤ 8 := by
    rw [length_slice hin]
    exact h.size
  rw [readByNode, if_neg (lt_irrefl _), if_pos h.type, readBitsByNode, hread, Option.bind_some,
    BinaryNode.read, h.range]
  simp only
  rw [if_neg (by omega), h.order, convertOrder_false]

theorem bitValue_eq (h : node.IsBitField bits) (hin : node.offset + node.size ≤ buf.length) :
    bitValue p buf node =
      (ofLE (slice buf node.offset node.size) &&& bits.mask p) >>> bits.bitOffset := by
  have hlt : ofLE (slice buf node.offset node.size) < 256 ^ node.size := by
    have h := ofLE_lt (slice buf node.offset node.size)
    rwa [length_slice hin] at h
  have hle : (ofLE (slice buf node.offset node.size) &&& bits.mask p) >>> bits.bitOffset ≤
      ofLE (slice buf node.offset node.size) := by
    rw [Nat.shiftRight_eq_div_pow]
    exact (Nat.div_le_self _ _).trans Nat.and_le_left
  rw [bitValue, h.readByNode_eq hin, Option.getD_some, ofLE_toLE, Nat.mod_eq_of_lt (by omega)]

theorem bitValue_lt (h : node.IsBitField bits) (hin : node.offset + node.size ≤ buf.length) :
    bitValue p buf node < 2 ^ 64 := by
  have hlt := ofLE_lt (slice buf node.offset node.size)
  have hpow : (256 : ℕ) ^ node.size ≤ 256 ^ 8 := Nat.pow_le_pow_right (by omega) h.size
  rw [length_slice hin] at hlt
  rw [h.bitValue_eq hin, Nat.shiftRight_eq_div_pow]
  have hle := (Nat.div_le_self (ofLE (slice buf node.offset node.size) &&& bits.mask p)
    (2 ^ bits.bitOffset)).trans Nat.and_le_left
  omega

/-- The bits of the value are those of the record that the field selects. -/
theorem testBit_bitValue (h : node.IsBitField bits) (hin : node.offset + node.size ≤ buf.length)
    (k : ℕ) :
    (bitValue p buf node).testBit k =
      (decide (bits.bitOffset + k < 8 * node.size) &&
        bit buf (8 * node.offset + (bits.bitOffset + k)) &&
        (bits.mask p).testBit (bits.bitOffset + k)) := by
  rw [h.bitValue_eq hin, Nat.testBit_shiftRight, Nat.testBit_and, testBit_ofLE, bit_slice]

/-- Two records give a field the same value if they agree on the bits it selects. -/
theorem bitValue_congr (h : node.IsBitField bits) (hin : node.offset + node.size ≤ buf.length)
    (hin' : node.offset + node.size ≤ src.length)
    (hbits : ∀ i, bits.Selects p node i → bit buf i = bit src i) :
    bitValue p buf node = bitValue p src node := by
  refine Nat.eq_of_testBit_eq fun k => ?_
  rw [h.testBit_bitValue hin, h.testBit_bitValue hin']
  by_cases hk : bits.bitOffset + k < 8 * node.size
  · cases hmask : (bits.mask p).testBit (bits.bitOffset + k) with
    | false => simp
    | true =>
      have hsel : bits.Selects p node (8 * node.offset + (bits.bitOffset + k)) := by
        refine ⟨by omega, by omega, ?_⟩
        rw [Nat.add_sub_cancel_left]
        exact hmask
      rw [hbits _ hsel]
  · simp [hk]

/-- A field is zero precisely when all the bits it selects are. -/
theorem bitValue_eq_zero_iff (h : node.IsBitField bits)
    (hin : node.offset + node.size ≤ buf.length) :
    bitValue p buf node = 0 ↔ ∀ i, bits.Selects p node i → bit buf i = false := by
  constructor
  · rintro hzero i ⟨hlo, hhi, hmask⟩
    have hle := (BitRange.within_of_testBit_mask hmask).1
    have htest := h.testBit_bitValue (p := p) hin (i - 8 * node.offset - bits.bitOffset)
    have hpos : bits.bitOffset + (i - 8 * node.offset - bits.bitOffset) = i - 8 * node.offset := by
      omega
    have hidx : 8 * node.offset + (i - 8 * node.offset) = i := by omega
    have hrange : i - 8 * node.offset < 8 * node.size := by omega
    rw [hzero, Nat.zero_testBit, hpos, hidx, hmask] at htest
    simpa [hrange] using htest.symm
  · intro hall
    refine Nat.eq_of_testBit_eq fun k => ?_
    rw [h.testBit_bitValue hin, Nat.zero_testBit]
    by_cases hk : bits.bitOffset + k < 8 * node.size
    · cases hmask : (bits.mask p).testBit (bits.bitOffset + k) with
      | false => simp
      | true =>
        rw [hall]
        · simp
        · refine ⟨by omega, by omega, ?_⟩
          rwa [Nat.add_sub_cancel_left]
    · simp [hk]

end Node.IsBitField

/-! ### Writing a bit field -/

/-- The decoder writes the value: the block has eight bytes, and the value passes
`check_data`. -/
def Node.Accepts (p : Platform) (node : Node) (bits : BitRange) (v : ℕ) : Prop :=
  node.size = 8 ∧ bits.checkData p 8 v = true

instance (p : Platform) (node : Node) (bits : BitRange) (v : ℕ) :
    Decidable (node.Accepts p bits v) :=
  inferInstanceAs (Decidable (_ ∧ _))

/-- The buffer after `bitmap_from_json` has found the value `v`. -/
def storeBits (p : Platform) (buf : List UInt8) (node : Node) (v : ℕ) : List UInt8 :=
  (writeByNode p buf 0 node (toLE 8 v)).getD buf

namespace Node.IsBitField

variable {p : Platform} {node : Node} {bits : BitRange} {buf src : List UInt8}

theorem storeBits_of_accepts (h : node.IsBitField bits) {v : ℕ} (hv : v < 2 ^ 64)
    (hin : node.offset + node.size ≤ buf.length) (hacc : node.Accepts p bits v) :
    storeBits p buf node v =
      blit buf node.offset (toLE 8 (bits.maskBitData p 8 v (ofLE (slice buf node.offset 8)))) := by
  obtain ⟨hsize, hcheck⟩ := hacc
  have hval : ofLE (toLE 8 v) = v := by
    rw [ofLE_toLE]
    exact Nat.mod_eq_of_lt (by omega)
  have hread : safeRead buf node.size (0 + node.offset) = some (slice buf node.offset 8) := by
    rw [safeRead, if_pos (by omega), Nat.zero_add, hsize]
  have hlen : (slice buf node.offset 8).length = 8 := length_slice (by omega)
  have hwrite : node.write p (toLE 8 v) (slice buf node.offset 8) =
      some (toLE 8 (bits.maskBitData p 8 v (ofLE (slice buf node.offset 8)))) := by
    rw [BinaryNode.write, if_neg (by simp [hsize]), h.range]
    simp only [hlen, length_toLE, h.order, convertOrder_false, hval, hcheck]
    rfl
  rw [storeBits, writeByNode, if_neg (by simp [hsize]), if_pos h.type, writeBitsByNode, hread]
  simp only [Option.bind_eq_bind, Option.bind_some, hwrite]
  rw [safeWrite, if_pos (by simp; omega), Option.getD_some, Nat.zero_add]

theorem storeBits_of_not_accepts (h : node.IsBitField bits) {v : ℕ} (hv : v < 2 ^ 64)
    (hacc : ¬node.Accepts p bits v) : storeBits p buf node v = buf := by
  have hval : ofLE (toLE 8 v) = v := by
    rw [ofLE_toLE]
    exact Nat.mod_eq_of_lt (by omega)
  rw [storeBits, writeByNode]
  split
  · rfl
  · rename_i hsize
    rw [length_toLE] at hsize
    have hcheck : bits.checkData p 8 v = false := by
      rw [Bool.eq_false_iff]
      have := h.size
      exact fun hcheck => hacc ⟨by omega, hcheck⟩
    have hwrite : ∀ block, node.write p (toLE 8 v) block = none := by
      intro block
      rw [BinaryNode.write, length_toLE, if_neg hsize, h.range]
      simp only [h.order, convertOrder_false, hval, hcheck]
      split <;> simp
    rw [if_pos h.type, writeBitsByNode]
    cases safeRead buf node.size (0 + node.offset) with
    | none => rfl
    | some block => simp [hwrite]

/-- **The effect of the decoder on single bits.** A field whose value is accepted gets the
bits of the record the value was read from; all other bits stay. -/
theorem bit_storeBits (h : node.IsBitField bits) (hlen : buf.length = src.length)
    (hin : node.offset + node.size ≤ src.length) (i : ℕ) :
    (storeBits p buf node (bitValue p src node)).length = buf.length ∧
      (node.Accepts p bits (bitValue p src node) → bits.Selects p node i →
        bit (storeBits p buf node (bitValue p src node)) i = bit src i) ∧
      (¬(node.Accepts p bits (bitValue p src node) ∧ bits.Selects p node i) →
        bit (storeBits p buf node (bitValue p src node)) i = bit buf i) := by
  have hv : bitValue p src node < 2 ^ 64 := h.bitValue_lt hin
  by_cases hacc : node.Accepts p bits (bitValue p src node)
  · have hsize : node.size = 8 := hacc.1
    rw [h.storeBits_of_accepts hv (by omega) hacc]
    have hblit : node.offset + (toLE 8 (bits.maskBitData p 8 (bitValue p src node)
        (ofLE (slice buf node.offset 8)))).length ≤ buf.length := by
      rw [length_toLE]
      omega
    refine ⟨length_blit hblit, fun _ hsel => ?_, fun hnot => ?_⟩
    · obtain ⟨hlo, hhi, hmask⟩ := hsel
      have hi : i - 8 * node.offset < 64 := by omega
      have hidx : 8 * node.offset + (i - 8 * node.offset) = i := by omega
      have hrange : i - 8 * node.offset < 8 * node.size := by omega
      rw [bit_blit hblit, if_pos ⟨hlo, by rw [length_toLE]; omega⟩, bit_toLE, decide_eq_true hi,
        Bool.true_and, h.bitValue_eq hin, BitRange.testBit_maskBitData _ _ hi, if_pos hmask,
        testBit_ofLE, bit_slice, hidx, decide_eq_true hrange, Bool.true_and]
    · rw [bit_blit hblit]
      split
      · rename_i hwin
        rw [length_toLE] at hwin
        have hi : i - 8 * node.offset < 64 := by omega
        have hidx : 8 * node.offset + (i - 8 * node.offset) = i := by omega
        have hmask : ¬(bits.mask p).testBit (i - 8 * node.offset) = true :=
          fun hmask => hnot ⟨hacc, hwin.1, by omega, hmask⟩
        rw [bit_toLE, decide_eq_true hi, Bool.true_and, h.bitValue_eq hin,
          BitRange.testBit_maskBitData _ _ hi, if_neg hmask, testBit_ofLE, bit_slice, hidx,
          decide_eq_true hi, Bool.true_and]
      · rfl
  · rw [h.storeBits_of_not_accepts hv hacc]
    exact ⟨rfl, fun hyes => absurd hyes hacc, fun _ => rfl⟩

end Node.IsBitField

/-! ### Records of bit fields -/

/-- Every node of the metadata is a bit field in a block of at most eight bytes that lies
inside a record of the given length. -/
def BitFieldsWithin (nodes : List Node) (n : ℕ) : Prop :=
  ∀ node ∈ nodes, (∃ bits, node.IsBitField bits) ∧ node.offset + node.size ≤ n

section Codec

variable {p : Platform} {src buf : List UInt8} {nodes : List Node}

/-- Bit `i` of the record belongs to a field whose value the decoder writes. -/
def Transferred (p : Platform) (src : List UInt8) (nodes : List Node) (i : ℕ) : Prop :=
  ∃ node ∈ nodes, ∃ bits, node.bits = some bits ∧ node.Accepts p bits (bitValue p src node) ∧
    bits.Selects p node i

/-- The bits after the values of all fields have been stored in turn. -/
theorem bit_foldl_storeBits (hnodes : BitFieldsWithin nodes src.length)
    (hlen : buf.length = src.length) (i : ℕ) :
    (nodes.foldl (fun b node => storeBits p b node (bitValue p src node)) buf).length =
        buf.length ∧
      (Transferred p src nodes i →
        bit (nodes.foldl (fun b node => storeBits p b node (bitValue p src node)) buf) i =
          bit src i) ∧
      (¬Transferred p src nodes i →
        bit (nodes.foldl (fun b node => storeBits p b node (bitValue p src node)) buf) i =
          bit buf i) := by
  induction nodes generalizing buf with
  | nil => exact ⟨rfl, fun ⟨_, h, _⟩ => absurd h List.not_mem_nil, fun _ => rfl⟩
  | cons node nodes ih =>
    obtain ⟨⟨bits, hfield⟩, hin⟩ := hnodes node List.mem_cons_self
    obtain ⟨hslen, hsel, hnot⟩ := hfield.bit_storeBits (p := p) hlen hin i
    obtain ⟨hlen', hyes, hno⟩ := ih (fun n hn => hnodes n (List.mem_cons_of_mem node hn))
      (hslen.trans hlen)
    rw [List.foldl_cons]
    -- The later fields decide if one of them is written over bit `i`, else this one does.
    refine ⟨hlen'.trans hslen, fun htrans => ?_, fun htrans => ?_⟩
    · by_cases hrest : Transferred p src nodes i
      · exact hyes hrest
      · rw [hno hrest]
        obtain ⟨n, hn, b, hb, hacc, hselects⟩ := htrans
        rcases List.mem_cons.mp hn with rfl | hn
        · obtain rfl : bits = b := Option.some.inj (hfield.range.symm.trans hb)
          exact hsel hacc hselects
        · exact absurd ⟨n, hn, b, hb, hacc, hselects⟩ hrest
    · have hrest : ¬Transferred p src nodes i := fun ⟨n, hn, h⟩ =>
        htrans ⟨n, List.mem_cons_of_mem node hn, h⟩
      rw [hno hrest]
      exact hnot fun ⟨hacc, hselects⟩ =>
        htrans ⟨node, List.mem_cons_self, bits, hfield.range, hacc, hselects⟩

theorem nodesToJson_bitFields {level : JsonDetailsLevel} {names : List String}
    (hnodes : BitFieldsWithin nodes src.length) :
    nodesToJson p level src names nodes 0 =
      some (true, nodes.map fun node => (node.name, Json.num (bitValue p src node))) := by
  induction nodes with
  | nil => rfl
  | cons node nodes ih =>
    obtain ⟨⟨bits, hfield⟩, hin⟩ := hnodes node List.mem_cons_self
    have hbitmap : bitmapToJson p src node 0 = (true, some (.num (bitValue p src node))) := by
      rw [bitmapToJson, bitValue, hfield.readByNode_eq hin]
      rfl
    have hnode : nodeToJson p level src names node 0 =
        some (true, some (.num (bitValue p src node))) := by
      rw [nodeToJson_eq, fieldToJson, hfield.type, hbitmap]
    rw [nodesToJson, hnode, ih fun n hn => hnodes n (List.mem_cons_of_mem node hn)]
    rfl

theorem nodesFromJson_bitFields {names : List String} {json : Json}
    (hnodes : BitFieldsWithin nodes src.length)
    (hjson : ∀ node ∈ nodes, json.find node.name = some (.num (bitValue p src node)))
    (index : ℕ) :
    nodesFromJson p names nodes json index 0 buf =
      some (true, nodes.foldl (fun b node => storeBits p b node (bitValue p src node)) buf) := by
  induction nodes generalizing buf index with
  | nil => rfl
  | cons node nodes ih =>
    obtain ⟨⟨bits, hfield⟩, hin⟩ := hnodes node List.mem_cons_self
    have hv : bitValue p src node < 2 ^ 64 := hfield.bitValue_lt hin
    have hget : (Json.num (bitValue p src node)).getInteger 8 = some (bitValue p src node) :=
      Json.getInteger_natCast hv
    have hbitmap : bitmapFromJson p node json 0 buf =
        some (storeBits p buf node (bitValue p src node)) := by
      rw [bitmapFromJson, hjson node List.mem_cons_self]
      simp only [Option.bind_eq_bind, Option.bind_some, Json.isNumberOrBoolean, hget]
      rfl
    -- A bit field has no bounds to be checked against.
    have hvalid : ∀ b, validate p b 0 node = some true := by
      intro b
      rw [validate, hfield.type]
      rfl
    have hnode : nodeFromJson p names node json index 0 buf =
        some (true, storeBits p buf node (bitValue p src node)) := by
      rw [nodeFromJson_eq, fieldFromJson, hfield.type]
      simp only [hbitmap, Option.map_some, Option.bind_some, finishField, hvalid]
    rw [nodesFromJson, hnode]
    exact ih (fun n hn => hnodes n (List.mem_cons_of_mem node hn))
      (fun n hn => hjson n (List.mem_cons_of_mem node hn)) (index + 1)

end Codec

/-! ### The round trip -/

namespace BinaryMetadata

variable {p : Platform} {m : BinaryMetadata} {level : JsonDetailsLevel} {src : List UInt8}

/-- The round trip: the record is written as JSON, a new record takes it from there, and
every field of it reads as in the first one. -/
def BitsRoundTrip (p : Platform) (level : JsonDetailsLevel) (m : BinaryMetadata)
    (src : List UInt8) : Prop :=
  ∃ json dst, m.toJson p level src = some (some json) ∧
    m.fromJson p json 0 (zeroes m.size) = some (true, dst) ∧
    ∀ node ∈ m.nodes, readByNode p dst 0 node node.size = readByNode p src 0 node node.size

/-- What the decoder needs of a record: a field that is not zero has a block of eight bytes
and passes `check_data`, and fields of the same name have the same value. -/
def BitFieldsKept (p : Platform) (m : BinaryMetadata) (src : List UInt8) : Prop :=
  (∀ node ∈ m.nodes, ∀ bits, node.bits = some bits →
      bitValue p src node = 0 ∨ node.Accepts p bits (bitValue p src node)) ∧
    ∀ a ∈ m.nodes, ∀ b ∈ m.nodes, a.name = b.name → bitValue p src a = bitValue p src b

/-- What the decoder makes of the JSON of a record, if fields of the same name have the same
value. -/
theorem fromJson_toJson_bitFields (level : JsonDetailsLevel)
    (hnodes : BitFieldsWithin m.nodes src.length)
    (hnames : ∀ a ∈ m.nodes, ∀ b ∈ m.nodes, a.name = b.name →
      bitValue p src a = bitValue p src b) (buf : List UInt8) :
    ∃ json, m.toJson p level src = some (some json) ∧
      m.fromJson p json 0 buf = some (true,
        m.nodes.foldl (fun b node => storeBits p b node (bitValue p src node)) buf) := by
  refine ⟨Json.ofFields (Json.Fields.assign
    (m.nodes.map fun node => (node.name, Json.num (bitValue p src node)))), ?_, ?_⟩
  · rw [toJson, json_eq, nodesToJson_bitFields hnodes]
    rfl
  · rw [fromJson_eq]
    refine nodesFromJson_bitFields hnodes (fun node hnode => ?_) 0
    rw [Json.find_ofFields]
    refine Json.Fields.get?_assign_of_mem (List.mem_map.mpr ⟨node, hnode, rfl⟩) fun a ha hkey => ?_
    obtain ⟨n, hn, rfl⟩ := List.mem_map.mp ha
    rw [hnames n hn node hnode hkey]

/-- Reading a field through the two records is comparing its values. -/
theorem readByNode_eq_iff (hnodes : BitFieldsWithin m.nodes src.length) {dst : List UInt8}
    (hlen : dst.length = src.length) {node : Node} (hnode : node ∈ m.nodes) :
    readByNode p dst 0 node node.size = readByNode p src 0 node node.size ↔
      bitValue p dst node = bitValue p src node := by
  obtain ⟨⟨bits, hfield⟩, hin⟩ := hnodes node hnode
  constructor
  · intro h
    rw [bitValue, bitValue, h]
  · intro h
    rw [hfield.bitValue_eq (hlen ▸ hin), hfield.bitValue_eq hin] at h
    rw [hfield.readByNode_eq (hlen ▸ hin), hfield.readByNode_eq hin, h]

theorem bitsRoundTrip_of_kept (hnodes : BitFieldsWithin m.nodes src.length)
    (hlen : src.length = m.size) (hkept : m.BitFieldsKept p src) :
    m.BitsRoundTrip p level src := by
  have hzlen : (zeroes m.size).length = src.length := by rw [length_zeroes, hlen]
  obtain ⟨json, hto, hfrom⟩ := fromJson_toJson_bitFields level hnodes hkept.2
    (zeroes m.size)
  refine ⟨json, _, hto, hfrom, fun node hnode => ?_⟩
  have hdlen := (bit_foldl_storeBits (p := p) hnodes hzlen 0).1.trans hzlen
  rw [readByNode_eq_iff hnodes hdlen hnode]
  obtain ⟨⟨bits, hfield⟩, hin⟩ := hnodes node hnode
  refine hfield.bitValue_congr (hdlen ▸ hin) hin fun i hsel => ?_
  obtain ⟨-, hyes, hno⟩ := bit_foldl_storeBits (p := p) hnodes hzlen i
  by_cases htrans : Transferred p src m.nodes i
  · exact hyes htrans
  · -- Nobody writes bit `i`, so the field is not written either, and it is zero.
    rcases hkept.1 node hnode bits hfield.range with hzero | hacc
    · rw [hno htrans, (hfield.bitValue_eq_zero_iff hin).mp hzero i hsel]
      exact bit_replicate_zero m.size i
    · exact absurd ⟨node, hnode, bits, hfield.range, hacc, hsel⟩ htrans

/-- Two fields that share a bit are the same node. -/
theorem Packed.eq_of_selects (h : m.Packed) {a b : Node} {abits bbits : BitRange} {i : ℕ}
    (ha : a ∈ m.nodes) (hb : b ∈ m.nodes) (hab : a.bits = some abits) (hbb : b.bits = some bbits)
    (hasel : abits.Selects p a i) (hbsel : bbits.Selects p b i) : a = b := by
  have hrange : ∀ {node : Node} {bits : BitRange}, node.bits = some bits →
      bits.Selects p node i → node.firstBit ≤ i ∧ i < node.endBit := by
    rintro node bits hbits ⟨hlo, -, hmask⟩
    have hwithin := BitRange.within_of_testBit_mask hmask
    have hfirst : node.firstBit = 8 * node.offset + bits.bitOffset := by
      rw [BinaryNode.firstBit, hbits]
    have hend : node.endBit = 8 * node.offset + bits.bitOffset + bits.numOfBits := by
      rw [BinaryNode.endBit, hbits]
    constructor <;> omega
  have hai := hrange hab hasel
  have hbi := hrange hbb hbsel
  have hall : ∀ x ∈ m.nodes, ∀ y ∈ m.nodes,
      x = y ∨ x.endBit ≤ y.firstBit ∨ y.endBit ≤ x.firstBit :=
    List.Pairwise.forall_of_forall_of_flip (fun _ _ => Or.inl rfl)
      (h.ordered.imp fun hle => Or.inr (Or.inl hle))
      (h.ordered.imp fun hle => Or.inr (Or.inr hle))
  rcases hall a ha b hb with heq | hle | hle
  · exact heq
  · omega
  · omega

theorem kept_of_bitsRoundTrip (hpacked : m.Packed) (hnodes : BitFieldsWithin m.nodes src.length)
    (hlen : src.length = m.size) (hnames : (m.nodes.map fun node => node.name).Nodup)
    (h : m.BitsRoundTrip p level src) : m.BitFieldsKept p src := by
  have hzlen : (zeroes m.size).length = src.length := by rw [length_zeroes, hlen]
  have hsame : ∀ a ∈ m.nodes, ∀ b ∈ m.nodes, a.name = b.name →
      bitValue p src a = bitValue p src b := by
    intro a ha b hb hab
    rw [List.inj_on_of_nodup_map hnames ha hb hab]
  refine ⟨fun node hnode bits hbits => ?_, hsame⟩
  obtain ⟨json, hto, hfrom⟩ := fromJson_toJson_bitFields level hnodes hsame
    (zeroes m.size)
  obtain ⟨json', dst, hto', hfrom', hreads⟩ := h
  obtain rfl : json = json' := Option.some.inj (Option.some.inj (hto.symm.trans hto'))
  obtain rfl := (Prod.mk.inj (Option.some.inj (hfrom.symm.trans hfrom'))).2
  have hdlen := (bit_foldl_storeBits (p := p) hnodes hzlen 0).1.trans hzlen
  have hvalue := (readByNode_eq_iff hnodes hdlen hnode).mp (hreads node hnode)
  by_cases hacc : node.Accepts p bits (bitValue p src node)
  · exact Or.inr hacc
  · left
    obtain ⟨⟨bits', hfield⟩, hin⟩ := hnodes node hnode
    obtain rfl : bits' = bits := Option.some.inj (hfield.range.symm.trans hbits)
    rw [← hvalue, hfield.bitValue_eq_zero_iff (hdlen ▸ hin)]
    -- No other field writes the bits of this one, so they are as in the new record.
    intro i hsel
    obtain ⟨-, -, hno⟩ := bit_foldl_storeBits (p := p) hnodes hzlen i
    rw [hno]
    · exact bit_replicate_zero m.size i
    · rintro ⟨n, hn, nbits, hnbits, hnacc, hnsel⟩
      obtain rfl := hpacked.eq_of_selects hn hnode hnbits hbits hnsel hsel
      obtain rfl : nbits = bits' := Option.some.inj (hnbits.symm.trans hbits)
      exact hacc hnacc

end BinaryMetadata

/-! ### Metadata made by `put_bits` -/

namespace BuilderCall

open BinaryMetadata

/-- An admissible call of `put_bits`. -/
def PacksBits (m : BinaryMetadata) (call : BuilderCall) : Prop :=
  call.Admissible (fun _ => none) m ∧
    ∃ name numOfBits dataSize, call = putBits name numOfBits dataSize

/-- What holds of a metadata to which only bit fields have been added. -/
structure BitPacked (m : BinaryMetadata) : Prop where
  packed : m.Packed
  order : m.bigEndian = false
  nodes : ∀ node ∈ m.nodes, node.type = .bitmap ∧ node.bits.isSome ∧ node.bigEndian = false ∧
    node.count = 1

theorem bitPacked_step {m m' : BinaryMetadata} (h : BitPacked m) (call : BuilderCall)
    (hok : call.PacksBits m) (hstep : call.step (fun _ => none) m = some m') : BitPacked m' := by
  obtain ⟨hadm, name, numOfBits, dataSize, rfl⟩ := hok
  have hpacked : m'.Packed := packed_step h.packed _ hadm hstep
  obtain ⟨r, hr, rfl⟩ := Option.map_eq_some_iff.mp hstep
  rw [apply, BinaryMetadata.putBits] at hr
  split at hr
  · rw [← Option.some.inj hr]
    exact h
  · obtain ⟨prev, -, rfl⟩ := Option.map_eq_some_iff.mp hr
    refine ⟨hpacked, h.order, fun node hnode => ?_⟩
    rcases List.mem_append.mp hnode with hnode | hnode
    · exact h.nodes node hnode
    · rw [List.mem_singleton.mp hnode]
      exact ⟨rfl, rfl, h.order, rfl⟩

theorem bitPacked_of_run {calls : List BuilderCall} {m : BinaryMetadata}
    (hcalls : Guarded (fun m call => step (fun _ => none) m call) PacksBits (empty false) calls)
    (hrun : run (fun m call => step (fun _ => none) m call) (empty false) calls = some m) :
    BitPacked m :=
  hcalls.always (fun _ call _ hm hok => bitPacked_step hm call hok)
    ⟨packed_empty false, rfl, fun _ h => absurd h List.not_mem_nil⟩ calls m List.prefix_rfl hrun

/-- **Bit fields through JSON.** A record of bit fields, packed by `put_bits` into blocks of
1, 2, 4 or 8 bytes, survives the round trip if every field that is not zero has a block of
eight bytes and passes `check_data`, and fields of the same name have the same value; if the
names are distinct, it survives only then. -/
theorem bitsRoundTrip_iff_kept {p : Platform} {level : JsonDetailsLevel}
    {calls : List BuilderCall} {m : BinaryMetadata} {src : List UInt8}
    (hcalls : Guarded (fun m call => step (fun _ => none) m call) PacksBits (empty false) calls)
    (hrun : run (fun m call => step (fun _ => none) m call) (empty false) calls = some m)
    (hblocks : ∀ node ∈ m.nodes,
      node.size = 1 ∨ node.size = 2 ∨ node.size = 4 ∨ node.size = 8)
    (hsrc : src.length = m.size) :
    (m.BitFieldsKept p src → m.BitsRoundTrip p level src) ∧
      ((m.nodes.map fun node => node.name).Nodup → m.BitsRoundTrip p level src →
        m.BitFieldsKept p src) := by
  have hbits := bitPacked_of_run hcalls hrun
  have hnodes : BitFieldsWithin m.nodes src.length := by
    intro node hnode
    obtain ⟨htype, hsome, horder, hcount⟩ := hbits.nodes node hnode
    obtain ⟨bits, hrange⟩ := Option.isSome_iff_exists.mp hsome
    have hin := hbits.packed.inside node hnode
    rw [hcount, Nat.mul_one, ← hsrc] at hin
    have hsize : node.size ≤ 8 := by
      rcases hblocks node hnode with h | h | h | h <;> omega
    exact ⟨⟨bits, htype, hrange, horder, hsize, hbits.packed.bits_le node hnode bits hrange⟩, hin⟩
  exact ⟨bitsRoundTrip_of_kept hnodes hsrc, kept_of_bitsRoundTrip hbits.packed hnodes hsrc⟩

/-- Fields of 3 and 40 bits in one block of eight bytes, holding 5 and a number of 40 bits. -/
theorem bitsRoundTrip_iff_kept_eight_bytes :
    ∃ m, run (fun m call => step (fun _ => none) m call) (empty false)
        [putBits "a" 3 8, putBits "b" 40 8] = some m ∧
      m.BitsRoundTrip ⟨fun _ _ => 0⟩ .enumValues [0x2d, 1, 2, 3, 4, 5, 0, 0] := by
  have hcalls : Guarded (fun m call => step (fun _ => none) m call) PacksBits (empty false)
      [putBits "a" 3 8, putBits "b" 40 8] := by
    refine .cons rfl ⟨⟨by decide, ?_⟩, _, _, _, rfl⟩
      (.cons rfl ⟨⟨by decide, ?_⟩, _, _, _, rfl⟩ trivial)
    · rintro name numOfBits dataSize ⟨⟩
      decide
    · rintro name numOfBits dataSize ⟨⟩
      decide
  refine ⟨_, rfl, (bitsRoundTrip_iff_kept hcalls rfl (by decide) rfl).1 ⟨?_, ?_⟩⟩
  · intro node hnode bits hbits
    rcases hnode with _ | ⟨_, _ | ⟨_, hnone⟩⟩
    · obtain rfl := Option.some.inj hbits
      exact Or.inr (by decide +kernel)
    · obtain rfl := Option.some.inj hbits
      exact Or.inr (by decide +kernel)
    · cases hnone
  · decide +kernel

/-- A field of 3 bits in a block of one byte, holding 5: it reads as 0 after the round
trip. -/
theorem bitsRoundTrip_fails_one_byte :
    ∃ m, run (fun m call => step (fun _ => none) m call) (empty false) [putBits "a" 3 1] =
        some m ∧ m.size = 1 ∧ (∀ node ∈ m.nodes, node.size = 1) ∧
      ¬m.BitsRoundTrip ⟨fun _ _ => 0⟩ .enumValues [5] := by
  refine ⟨_, rfl, rfl, by decide, ?_⟩
  rintro ⟨json, dst, hto, hfrom, hreads⟩
  obtain rfl : Json.obj [("a", .num 5)] = json := Option.some.inj (Option.some.inj hto)
  obtain rfl : [0] = dst := (Prod.mk.inj (Option.some.inj hfrom)).2
  have hread := hreads _ List.mem_cons_self
  revert hread
  decide +kernel

end BuilderCall

end UtilityFramework
