import Mathlib.Order.CompletePartialOrder
import Mathlib.Order.Interval.Set.Disjoint
import UtilityFramework.Lib.Transition
import UtilityFramework.Parsers.Metadata

/-!
# The layout of a metadata

Whatever the order of builder calls, the fields of a metadata lie inside the record and do
not overlap, as long as the size of the record can be represented. What carries the proof
is `Packed`: the fields end below a *frontier*, which is the end of the record, or inside
the last block if the last node is a bit field; the block of a bit field that comes last
ends where the record ends, so extending the block extends the record.
-/

namespace UtilityFramework

open Transition

/-! ### The bits of a node -/

namespace BinaryNode

variable {μ : Type}

/-- The first bit a node occupies, counted from the start of the record. -/
def firstBit (node : BinaryNode μ) : ℕ :=
  match node.bits with
  | none => 8 * node.offset
  | some bits => 8 * node.offset + bits.bitOffset

/-- The bit after the last one a node occupies: all of its elements, or the bits of a bit
field. -/
def endBit (node : BinaryNode μ) : ℕ :=
  match node.bits with
  | none => 8 * (node.offset + node.size * node.count)
  | some bits => 8 * node.offset + bits.bitOffset + bits.numOfBits

/-- The bits a node occupies. -/
def occupiedBits (node : BinaryNode μ) : Set ℕ := Set.Ico node.firstBit node.endBit

end BinaryNode

namespace BinaryMetadata

/-- Every field lies inside the record, every bit field inside its block, and no two fields
share a bit. -/
def WellLaidOut (m : BinaryMetadata) : Prop :=
  (∀ node ∈ m.nodes, node.offset + node.size * node.count ≤ m.size) ∧
    (∀ node ∈ m.nodes, ∀ bits, node.bits = some bits →
      bits.bitOffset + bits.numOfBits ≤ 8 * node.size) ∧
    m.nodes.Pairwise fun a b => Disjoint a.occupiedBits b.occupiedBits

/-- Where the next field may start, in bits. -/
def frontier (m : BinaryMetadata) : ℕ :=
  match m.nodes.getLast? with
  | none => 8 * m.size
  | some node => if node.bits.isSome then node.endBit else 8 * m.size

/-- The invariant of the builder. -/
structure Packed (m : BinaryMetadata) : Prop where
  inside : ∀ node ∈ m.nodes, node.offset + node.size * node.count ≤ m.size
  bits_le : ∀ node ∈ m.nodes, ∀ bits, node.bits = some bits →
    bits.bitOffset + bits.numOfBits ≤ 8 * node.size
  ordered : m.nodes.Pairwise fun a b => a.endBit ≤ b.firstBit
  before : ∀ node ∈ m.nodes, node.endBit ≤ m.frontier
  block_end : ∀ node bits, m.nodes.getLast? = some node → node.bits = some bits →
    node.offset + node.size = m.size ∧ node.size ≤ 9 * m.nodes.length

variable {m : BinaryMetadata}

theorem packed_empty (bigEndian : Bool) : (empty bigEndian).Packed where
  inside _ h := absurd h List.not_mem_nil
  bits_le _ h := absurd h List.not_mem_nil
  ordered := List.Pairwise.nil
  before _ h := absurd h List.not_mem_nil
  block_end _ _ h := by simp [empty] at h

/-- The frontier is inside the record. -/
theorem Packed.frontier_le (h : m.Packed) : m.frontier ≤ 8 * m.size := by
  rw [frontier]
  split
  · exact le_rfl
  · rename_i node hlast
    split
    · rename_i hbits
      obtain ⟨bits, hb⟩ := Option.isSome_iff_exists.mp hbits
      have hin := h.bits_le node (List.mem_of_getLast? hlast) bits hb
      have hend := (h.block_end node bits hlast hb).1
      have heq : node.endBit = 8 * node.offset + bits.bitOffset + bits.numOfBits := by
        rw [BinaryNode.endBit, hb]
      omega
    · exact le_rfl

/-- A packed metadata is well laid out. -/
theorem Packed.wellLaidOut (h : m.Packed) : m.WellLaidOut := by
  refine ⟨h.inside, h.bits_le, h.ordered.imp fun {a b} hab => ?_⟩
  rw [BinaryNode.occupiedBits, BinaryNode.occupiedBits, Set.Ico_disjoint_Ico]
  calc min a.endBit b.endBit ≤ a.endBit := min_le_left _ _
    _ ≤ b.firstBit := hab
    _ ≤ max a.firstBit b.firstBit := le_max_right _ _

/-! ### Appending a node -/

/-- Appending keeps the order of the fields if the new one starts at the frontier. -/
theorem Packed.ordered_append (h : m.Packed) {node : Node} (hfirst : m.frontier ≤ node.firstBit) :
    (m.nodes ++ [node]).Pairwise fun a b => a.endBit ≤ b.firstBit := by
  refine List.pairwise_append.mpr ⟨h.ordered, List.pairwise_singleton _ _, fun a ha b hb => ?_⟩
  rw [List.mem_singleton.mp hb]
  exact (h.before a ha).trans hfirst

/-- Appending a byte field at the end of the record. -/
theorem Packed.append_bytes (h : m.Packed) {node : Node} {increase : ℕ}
    (hoffset : node.offset = m.size) (hbits : node.bits = none)
    (hsize : Size.add m.size increase = m.size + node.size * node.count) :
    (m.append node increase).Packed := by
  have hfirst : node.firstBit = 8 * m.size := by rw [BinaryNode.firstBit, hbits, hoffset]
  have hend : node.endBit = 8 * (m.size + node.size * node.count) := by
    rw [BinaryNode.endBit, hbits, hoffset]
  have hfrontier : (m.append node increase).frontier = 8 * (m.append node increase).size := by
    simp [frontier, append, hbits]
  refine ⟨?_, ?_, h.ordered_append (hfirst ▸ h.frontier_le), ?_, ?_⟩
  · intro a ha
    rw [append, size_mk, hsize]
    rcases List.mem_append.mp ha with ha | ha
    · exact (h.inside a ha).trans (Nat.le_add_right _ _)
    · rw [List.mem_singleton.mp ha, hoffset]
  · intro a ha bits hb
    rcases List.mem_append.mp ha with ha | ha
    · exact h.bits_le a ha bits hb
    · rw [List.mem_singleton.mp ha, hbits] at hb
      cases hb
  · intro a ha
    rw [hfrontier, append, size_mk, hsize]
    rcases List.mem_append.mp ha with ha | ha
    · have hle := (h.before a ha).trans h.frontier_le
      omega
    · rw [List.mem_singleton.mp ha, hend]
  · intro a bits ha hb
    rw [append, nodes_mk, List.getLast?_concat, Option.some.injEq] at ha
    rw [← ha, hbits] at hb
    cases hb

/-- Appending a bit field that starts at or after the frontier and whose block ends with
the record. -/
theorem Packed.append_bits (h : m.Packed) {node : Node} {bits : BitRange} {increase : ℕ}
    (hbits : node.bits = some bits) (hcount : node.count = 1)
    (hstart : m.frontier ≤ 8 * node.offset + bits.bitOffset)
    (hfits : bits.bitOffset + bits.numOfBits ≤ 8 * node.size)
    (hsize : Size.add m.size increase = m.size + increase)
    (hblock : node.offset + node.size = m.size + increase)
    (hbound : node.size ≤ 9 * (m.nodes.length + 1)) : (m.append node increase).Packed := by
  have hfirst : node.firstBit = 8 * node.offset + bits.bitOffset := by
    rw [BinaryNode.firstBit, hbits]
  have hend : node.endBit = 8 * node.offset + bits.bitOffset + bits.numOfBits := by
    rw [BinaryNode.endBit, hbits]
  have hfrontier : (m.append node increase).frontier = node.endBit := by
    simp [frontier, append, hbits]
  refine ⟨?_, ?_, h.ordered_append (hfirst ▸ hstart), ?_, ?_⟩
  · intro a ha
    rw [append, size_mk, hsize]
    rcases List.mem_append.mp ha with ha | ha
    · exact (h.inside a ha).trans (Nat.le_add_right _ _)
    · rw [List.mem_singleton.mp ha, hcount, Nat.mul_one, hblock]
  · intro a ha b hb
    rcases List.mem_append.mp ha with ha | ha
    · exact h.bits_le a ha b hb
    · rw [List.mem_singleton.mp ha] at hb ⊢
      obtain rfl : bits = b := Option.some.inj (hbits.symm.trans hb)
      exact hfits
  · intro a ha
    rw [hfrontier, hend]
    rcases List.mem_append.mp ha with ha | ha
    · exact ((h.before a ha).trans hstart).trans (Nat.le_add_right _ _)
    · rw [List.mem_singleton.mp ha, hend]
  · intro a b ha _
    rw [append, nodes_mk, List.getLast?_concat, Option.some.injEq] at ha
    rw [append, size_mk, nodes_mk, hsize, ← ha, List.length_append, List.length_singleton]
    exact ⟨hblock, hbound⟩

/-! ### Bit fields -/

/-- The bytes by which `put_bits` enlarges the record. -/
def bitIncrease (m : BinaryMetadata) (numOfBits dataSize : ℕ) : ℕ :=
  if numOfBits = 0 ∨ 8 < dataSize then 0
  else
    match m.prevBitNode with
    | none => 0
    | some prev => (m.bitBlock numOfBits dataSize prev).sizeToIncrease

/-- What `put_bits` goes on from is the last node. -/
theorem prevBitNode_eq_some {node : Node} {bits : BitRange}
    (h : m.prevBitNode = some (some (node, bits))) :
    m.nodes.getLast? = some node ∧ node.bits = some bits ∧ m.nodes.length < 8 := by
  rw [prevBitNode] at h
  split at h
  · cases h
  · rename_i last hlast
    split at h
    · rename_i hcond
      obtain ⟨b, hb, heq⟩ := Option.map_eq_some_iff.mp h
      obtain ⟨rfl, rfl⟩ := Prod.mk.inj (Option.some.inj heq)
      exact ⟨hlast, hb, hcond.2⟩
    · cases h

/-- In a block of representable size no arithmetic on its bits wraps around. -/
theorem bitCount_eq {size : ℕ} {bits : BitRange} (hin : bits.bitOffset + bits.numOfBits ≤ 8 * size)
    (hsize : 8 * size < Size.modulus) :
    Size.add bits.bitOffset bits.numOfBits = bits.bitOffset + bits.numOfBits ∧
      Size.sub (Size.mul size 8) (bits.bitOffset + bits.numOfBits) =
        size * 8 - (bits.bitOffset + bits.numOfBits) := by
  have hmul : Size.mul size 8 = size * 8 := Size.mul_of_lt (by omega)
  rw [hmul]
  exact ⟨Size.add_of_lt (by omega), Size.sub_of_le (by omega) (by omega)⟩

/-- The block of a new bit field: it starts at or after the frontier, holds the field, and
ends with the record. -/
theorem Packed.bitBlock_spec (h : m.Packed) {numOfBits dataSize : ℕ}
    {prev : Option (Node × BitRange)} (hprev : m.prevBitNode = some prev)
    (hfit : numOfBits ≤ 8 * dataSize) (hdata : dataSize ≤ 8) :
    let block := m.bitBlock numOfBits dataSize prev
    m.frontier ≤ 8 * block.offset + block.bits.bitOffset ∧
      block.bits.bitOffset + block.bits.numOfBits ≤ 8 * block.size ∧
      block.offset + block.size = m.size + block.sizeToIncrease ∧
      block.size ≤ 9 * (m.nodes.length + 1) := by
  intro block
  -- A new block at the end of the record, needed in two of the cases.
  have hnew : m.frontier ≤ 8 * m.size + 0 ∧ 0 + numOfBits ≤ 8 * dataSize ∧
      m.size + dataSize = m.size + dataSize ∧ dataSize ≤ 9 * (m.nodes.length + 1) :=
    ⟨h.frontier_le, by omega, rfl, by omega⟩
  cases prev with
  | none => exact hnew
  | some p =>
    obtain ⟨node, bits⟩ := p
    obtain ⟨hlast, hbits, hlen⟩ := prevBitNode_eq_some hprev
    have hin := h.bits_le node (List.mem_of_getLast? hlast) bits hbits
    obtain ⟨hend, hbound⟩ := h.block_end node bits hlast hbits
    have hfrontier : m.frontier = 8 * node.offset + bits.bitOffset + bits.numOfBits := by
      simp [frontier, hlast, hbits, BinaryNode.endBit]
    -- The block has at most 63 bytes.
    have hmod : Size.modulus = 2 ^ 64 := rfl
    obtain ⟨hcount, hrem⟩ := bitCount_eq hin (by omega)
    simp only [block, bitBlock, hcount, hrem]
    split
    · exact hnew
    · split
      · have hgrow : Size.add node.size
            ((numOfBits - (node.size * 8 - (bits.bitOffset + bits.numOfBits))) / 8 + 1) =
            node.size +
              ((numOfBits - (node.size * 8 - (bits.bitOffset + bits.numOfBits))) / 8 + 1) :=
          Size.add_of_lt (by omega)
        dsimp only
        rw [hgrow]
        exact ⟨by omega, by omega, by omega, by omega⟩
      · dsimp only
        exact ⟨by omega, by omega, by omega, by omega⟩

theorem Packed.putBits (h : m.Packed) {name : String} {numOfBits dataSize : ℕ}
    {r : BinaryMetadata × Bool} (hr : m.putBits name numOfBits dataSize = some r)
    (hfit : numOfBits ≤ 8 * dataSize)
    (hsize : m.size + m.bitIncrease numOfBits dataSize < Size.modulus) : r.1.Packed := by
  rw [BinaryMetadata.putBits] at hr
  rw [bitIncrease] at hsize
  split at hr
  · rw [← Option.some.inj hr]
    exact h
  · rename_i hok
    obtain ⟨prev, hprev, rfl⟩ := Option.map_eq_some_iff.mp hr
    rw [if_neg hok, hprev] at hsize
    obtain ⟨hstart, hfits, hblock, hbound⟩ := h.bitBlock_spec hprev hfit (by omega)
    exact h.append_bits rfl rfl hstart hfits (Size.add_of_lt hsize) hblock hbound

/-! ### Arrays -/

theorem Packed.appendArray (h : m.Packed) {node : Node} {size numOfElements : ℕ}
    {element : BinaryMetadata} (hoffset : node.offset = m.size) (hnode : node.size = size)
    (hbits : node.bits = none) (hsize : m.size + size * numOfElements < Size.modulus) :
    (m.appendArray node size numOfElements element).Packed := by
  refine h.append_bytes hoffset hbits ?_
  have hmul : Size.mul size numOfElements = size * numOfElements := Size.mul_of_lt (by omega)
  rw [hmul, Size.add_of_lt hsize, hnode]

theorem Packed.array (h : m.Packed) {name : String} {size numOfElements : ℕ} {type : TypeEnum}
    {options : SimpleOptions} {nested : Option BinaryMetadata} {m' : BinaryMetadata}
    (hm' : m.array name size type numOfElements options nested = some m')
    (hsize : m.size + size * numOfElements < Size.modulus) : m'.Packed := by
  rw [BinaryMetadata.array] at hm'
  split at hm'
  · obtain ⟨nested, -, rfl⟩ := Option.map_eq_some_iff.mp hm'
    exact h.appendArray rfl rfl rfl hsize
  · rw [← Option.some.inj hm']
    exact h.appendArray rfl rfl rfl hsize

end BinaryMetadata

/-! ### Runs of the builder -/

namespace BuilderCall

open BinaryMetadata

variable {store : String → Option BinaryMetadata}

/-- The bytes a builder call adds to the record, as an exact number. -/
def increase (store : String → Option BinaryMetadata) (m : BinaryMetadata) :
    BuilderCall → ℕ
  | setBigEndian _ => 0
  | put _ size _ _ | putEnum _ size _ _ => size
  | putBits _ numOfBits dataSize => m.bitIncrease numOfBits dataSize
  | putString _ maxSize _ => maxSize
  | nest _ nested => nested.size
  | nestNamed _ metadataName => ((store metadataName).map BinaryMetadata.size).getD 0
  | array _ size _ numOfElements _ _ | arrayString _ size numOfElements _ => size * numOfElements
  | arrayNamed _ numOfElements _ metadataName =>
    ((store metadataName).map BinaryMetadata.size).getD 0 * numOfElements
  | arrayEnum _ _ _ _ none => 0
  | arrayEnum _ numOfElements size _ (some _) => size * numOfElements

/-- The size of the record stays representable, and the bits of a bit field fit in the
block it asks for. -/
def Admissible (store : String → Option BinaryMetadata) (m : BinaryMetadata)
    (call : BuilderCall) : Prop :=
  m.size + call.increase store m < Size.modulus ∧
    ∀ name numOfBits dataSize, call = putBits name numOfBits dataSize → numOfBits ≤ 8 * dataSize

theorem packed_step {m m' : BinaryMetadata} (h : m.Packed) (call : BuilderCall)
    (hok : call.Admissible store m) (hstep : call.step store m = some m') : m'.Packed := by
  obtain ⟨hsize, hbits⟩ := hok
  obtain ⟨r, hr, rfl⟩ := Option.map_eq_some_iff.mp hstep
  -- The byte fields: one node of one element at the end of the record.
  have hone : ∀ node : Node, node.offset = m.size → node.bits = none → node.count = 1 →
      m.size + node.size < Size.modulus → (m.append node node.size).Packed := by
    intro node hoffset hnone hcount hlt
    refine h.append_bytes hoffset hnone ?_
    rw [Size.add_of_lt hlt, hcount, Nat.mul_one]
  cases call with
  | setBigEndian b =>
    obtain rfl := Option.some.inj hr
    exact ⟨h.inside, h.bits_le, h.ordered, h.before, h.block_end⟩
  | put name size type options =>
    obtain rfl := Option.some.inj hr
    exact hone _ rfl rfl rfl hsize
  | putEnum name size enum options =>
    obtain rfl := Option.some.inj hr
    exact hone _ rfl rfl rfl hsize
  | putBits name numOfBits dataSize =>
    exact h.putBits hr (hbits name numOfBits dataSize rfl) hsize
  | putString name maxSize defString =>
    obtain rfl := Option.some.inj hr
    exact hone _ rfl rfl rfl hsize
  | nest name nested =>
    obtain rfl := Option.some.inj hr
    exact hone _ rfl rfl rfl hsize
  | nestNamed name metadataName =>
    rw [apply] at hr
    split at hr
    · rw [← Option.some.inj hr]
      exact h
    · rename_i nested hnested
      rw [← Option.some.inj hr]
      rw [increase, hnested, Option.map_some, Option.getD_some] at hsize
      exact hone _ rfl rfl rfl hsize
  | array name size type numOfElements options nested =>
    obtain ⟨m', hm', rfl⟩ := Option.map_eq_some_iff.mp hr
    exact h.array hm' hsize
  | arrayString name size numOfElements defString =>
    obtain rfl := Option.some.inj hr
    exact h.appendArray rfl rfl rfl hsize
  | arrayNamed name numOfElements options metadataName =>
    rw [apply] at hr
    split at hr
    · rw [← Option.some.inj hr]
      exact h
    · rename_i nested hnested
      rw [increase, hnested, Option.map_some, Option.getD_some] at hsize
      obtain ⟨m', hm', rfl⟩ := Option.map_eq_some_iff.mp hr
      exact h.array hm' hsize
  | arrayEnum name numOfElements size options enum =>
    cases enum with
    | none =>
      obtain rfl := Option.some.inj hr
      exact h
    | some enum =>
      obtain rfl := Option.some.inj hr
      exact h.appendArray rfl rfl rfl hsize

/-- **The layout of a metadata.** After every sequence of builder calls in which the size of
the record stays below `2 ^ 64` and every bit field fits in the block it asks for, every
field lies inside the record, every bit field inside its block, and no two fields share a
bit. -/
theorem wellLaidOut_of_admissible {bigEndian : Bool} {calls : List BuilderCall}
    (h : Guarded (fun m call => call.step store m) (fun m call => call.Admissible store m)
      (empty bigEndian) calls) :
    Always (fun m call => call.step store m) WellLaidOut (empty bigEndian) calls := by
  have hpacked : Always (fun m call => call.step store m) Packed (empty bigEndian) calls :=
    h.always (fun _ call _ hm hok => packed_step hm call hok) (packed_empty bigEndian)
  exact fun calls' m hpre hrun => (hpacked calls' m hpre hrun).wellLaidOut

/-- An integer, and two bit fields of which the second extends the block of the first. -/
theorem wellLaidOut_of_admissible_bits :
    Always (fun m call => step (fun _ => none) m call) WellLaidOut (empty false)
      [put "a" 4 .int32 .reset, putBits "b" 3 1, putBits "c" 7 1] := by
  refine wellLaidOut_of_admissible (.cons rfl ⟨by decide, ?_⟩ (.cons rfl ⟨by decide, ?_⟩
    (.cons rfl ⟨by decide, ?_⟩ trivial)))
  · rintro name numOfBits dataSize ⟨⟩
  · rintro name numOfBits dataSize ⟨⟩
    decide
  · rintro name numOfBits dataSize ⟨⟩
    decide

/-- Two fields of `2 ^ 63` bytes each: the size of the record wraps around to zero, and no
byte of the fields is inside. -/
theorem wellLaidOut_fails_on_overflow :
    ∃ m, run (fun m call => step (fun _ => none) m call) (empty false)
        [put "a" (2 ^ 63) .buffer .reset, put "b" (2 ^ 63) .buffer .reset] = some m ∧
      m.size = 0 ∧ ¬m.WellLaidOut := by
  refine ⟨_, rfl, by decide, fun h => ?_⟩
  have hin := h.1 _ List.mem_cons_self
  revert hin
  decide

end BuilderCall

end UtilityFramework
