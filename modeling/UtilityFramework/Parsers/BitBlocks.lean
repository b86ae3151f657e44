import UtilityFramework.Parsers.Layout

/-!
# The blocks of bit fields

The parsers read and write a bit field through a block of at most eight bytes. `put_bits` checks
the size of a block that it is asked for, but not that the field fits into it, and not the size
of a block that it extends: the bits of a field fit into the extended block always, but the
block may come to have more than eight bytes.

`always_bitsFit_iff` is the exact condition for every run of builder calls: the bits of a field
in a new block are in the bytes that are asked for, and no block grows beyond eight bytes.
-/

namespace UtilityFramework

open Transition

namespace BinaryMetadata

variable {m m' : BinaryMetadata}

/-- Every bit field lies in its block, and the block has at most eight bytes. -/
def BitsFit (m : BinaryMetadata) : Prop :=
  ∀ node ∈ m.nodes, ∀ bits, node.bits = some bits →
    bits.bitOffset + bits.numOfBits ≤ 8 * node.size ∧ node.size ≤ 8

/-- Where `put_bits` puts a field, there is room for it. A new block has the bytes that are
asked for. A field that goes on from another one has the bits that are left in the block; if
they are not enough, the block grows, up to eight bytes. -/
def RoomFor (m : BinaryMetadata) (numOfBits dataSize : ℕ) : Prop :=
  ∀ prev, m.prevBitNode = some prev →
    match prev with
    | none => numOfBits ≤ 8 * dataSize
    | some (node, bits) =>
      let used := bits.bitOffset + bits.numOfBits
      if used = 8 * node.size then numOfBits ≤ 8 * dataSize
      else used + numOfBits ≤ 8 * node.size ∨
        node.size + ((used + numOfBits - 8 * node.size) / 8 + 1) ≤ 8

theorem bitsFit_append_iff (node : Node) (increase : ℕ) :
    (m.append node increase).BitsFit ↔
      m.BitsFit ∧ ∀ bits, node.bits = some bits →
        bits.bitOffset + bits.numOfBits ≤ 8 * node.size ∧ node.size ≤ 8 := by
  constructor
  · intro h
    exact ⟨fun n hn => h n (List.mem_append_left [node] hn),
      h node (List.mem_append_right m.nodes List.mem_cons_self)⟩
  · rintro ⟨hm, hnode⟩ n hn
    rcases List.mem_append.mp hn with hn | hn
    · exact hm n hn
    · rw [List.mem_singleton.mp hn]
      exact hnode

/-- Appending a node that is no bit field. -/
theorem BitsFit.append (h : m.BitsFit) {node : Node} (hbits : node.bits = none) (increase : ℕ) :
    (m.append node increase).BitsFit := by
  refine (bitsFit_append_iff node increase).mpr ⟨h, fun bits hb => ?_⟩
  rw [hbits] at hb
  cases hb

/-- `RoomFor` is about the node that `put_bits` goes on from. -/
theorem roomFor_iff {numOfBits dataSize : ℕ} {prev : Option (Node × BitRange)}
    (hprev : m.prevBitNode = some prev) :
    m.RoomFor numOfBits dataSize ↔
      match (motive := Option (Node × BitRange) → Prop) prev with
      | none => numOfBits ≤ 8 * dataSize
      | some (node, bits) =>
        let used := bits.bitOffset + bits.numOfBits
        if used = 8 * node.size then numOfBits ≤ 8 * dataSize
        else used + numOfBits ≤ 8 * node.size ∨
          node.size + ((used + numOfBits - 8 * node.size) / 8 + 1) ≤ 8 := by
  constructor
  · exact fun hr => hr prev hprev
  · intro hr prev' hprev'
    rw [hprev, Option.some.injEq] at hprev'
    exact hprev' ▸ hr

/-- The block of a new bit field has room for it precisely if `RoomFor` says so. -/
theorem bitBlock_fits_iff (numOfBits : ℕ) (h : m.BitsFit) {dataSize : ℕ}
    {prev : Option (Node × BitRange)} (hprev : m.prevBitNode = some prev) (hdata : dataSize ≤ 8) :
    ((m.bitBlock numOfBits dataSize prev).bits.bitOffset +
          (m.bitBlock numOfBits dataSize prev).bits.numOfBits ≤
        8 * (m.bitBlock numOfBits dataSize prev).size ∧
      (m.bitBlock numOfBits dataSize prev).size ≤ 8) ↔ m.RoomFor numOfBits dataSize := by
  rw [roomFor_iff hprev]
  -- a new block
  have hnew : (0 + numOfBits ≤ 8 * dataSize ∧ dataSize ≤ 8) ↔ numOfBits ≤ 8 * dataSize := by
    omega
  cases prev with
  | none => exact hnew
  | some p =>
    obtain ⟨node, bits⟩ := p
    obtain ⟨hlast, hbits, -⟩ := prevBitNode_eq_some hprev
    obtain ⟨hin, hsize⟩ := h node (List.mem_of_getLast? hlast) bits hbits
    have hmod : Size.modulus = 2 ^ 64 := rfl
    obtain ⟨hcount, hrem⟩ := bitCount_eq hin (by omega)
    simp only [bitBlock, hcount, hrem]
    rcases Nat.lt_or_ge (bits.bitOffset + bits.numOfBits) (8 * node.size) with hlt | hge
    · have hleft : ¬ node.size * 8 - (bits.bitOffset + bits.numOfBits) = 0 := by omega
      have hopen : ¬ bits.bitOffset + bits.numOfBits = 8 * node.size := by omega
      simp only [if_neg hleft, if_neg hopen]
      split_ifs with hgrow
      · -- the block grows
        dsimp only
        have hrest : numOfBits - (node.size * 8 - (bits.bitOffset + bits.numOfBits)) =
            bits.bitOffset + bits.numOfBits + numOfBits - 8 * node.size := by omega
        rw [hrest, Size.add, hmod]
        rcases Nat.lt_or_ge numOfBits 65 with hsmall | hbig
        · rw [Nat.mod_eq_of_lt (by omega)]
          omega
        · -- too many bits for any block of eight bytes
          exact iff_of_false (fun hfit => by omega) (fun hfit => by omega)
      · dsimp only
        omega
    · have hleft : node.size * 8 - (bits.bitOffset + bits.numOfBits) = 0 := by omega
      have hfull : bits.bitOffset + bits.numOfBits = 8 * node.size := by omega
      simp only [if_pos hleft, if_pos hfull]
      exact hnew

end BinaryMetadata

namespace BuilderCall

open BinaryMetadata

variable {store : String → Option BinaryMetadata} {m m' : BinaryMetadata}

/-- A call of `put_bits` that is accepted has room for the field. -/
def KeepsBlocks (m : BinaryMetadata) : BuilderCall → Prop
  | putBits _ numOfBits dataSize =>
    numOfBits ≠ 0 → dataSize ≤ 8 → m.RoomFor numOfBits dataSize
  | _ => True

theorem bitsFit_putBits_iff (h : m.BitsFit) {name : String} {numOfBits dataSize : ℕ}
    {r : BinaryMetadata × Bool} (hr : m.putBits name numOfBits dataSize = some r) :
    r.1.BitsFit ↔ (putBits name numOfBits dataSize).KeepsBlocks m := by
  rw [BinaryMetadata.putBits] at hr
  split at hr
  · rename_i hrefused
    rw [← Option.some.inj hr]
    refine iff_of_true h fun hbits hdata => ?_
    rcases hrefused with hzero | hbig
    · exact absurd hzero hbits
    · omega
  · rename_i haccepted
    obtain ⟨prev, hprev, rfl⟩ := Option.map_eq_some_iff.mp hr
    have hdata : dataSize ≤ 8 := by omega
    have hbits : numOfBits ≠ 0 := fun hzero => haccepted (Or.inl hzero)
    have hfits := bitBlock_fits_iff numOfBits h hprev hdata
    rw [bitsFit_append_iff]
    constructor
    · intro hm _ _
      exact hfits.mp (hm.2 _ rfl)
    · intro hroom
      refine ⟨h, fun bits hb => ?_⟩
      cases hb
      exact hfits.mpr (hroom hbits hdata)

theorem bitsFit_array (h : m.BitsFit) {name : String} {size numOfElements : ℕ} {type : TypeEnum}
    {options : SimpleOptions} {nested : Option BinaryMetadata}
    (hm' : m.array name size type numOfElements options nested = some m') : m'.BitsFit := by
  rw [BinaryMetadata.array] at hm'
  split at hm'
  · obtain ⟨nested, -, rfl⟩ := Option.map_eq_some_iff.mp hm'
    exact h.append rfl _
  · rw [← Option.some.inj hm']
    exact h.append rfl _

/-- A builder call keeps the bit fields in their blocks precisely if it keeps the blocks. -/
theorem bitsFit_step_iff (h : m.BitsFit) {call : BuilderCall}
    (hstep : call.step store m = some m') :
    m'.BitsFit ↔ call.KeepsBlocks m := by
  obtain ⟨r, hr, rfl⟩ := Option.map_eq_some_iff.mp hstep
  cases call with
  | putBits name numOfBits dataSize => exact bitsFit_putBits_iff h hr
  | setBigEndian b =>
    obtain rfl := Option.some.inj hr
    exact iff_of_true h trivial
  | put name size type options =>
    obtain rfl := Option.some.inj hr
    exact iff_of_true (h.append rfl _) trivial
  | putEnum name size enum options =>
    obtain rfl := Option.some.inj hr
    exact iff_of_true (h.append rfl _) trivial
  | putString name maxSize defString =>
    obtain rfl := Option.some.inj hr
    exact iff_of_true (h.append rfl _) trivial
  | nest name nested =>
    obtain rfl := Option.some.inj hr
    exact iff_of_true (h.append rfl _) trivial
  | nestNamed name metadataName =>
    refine iff_of_true ?_ trivial
    rw [apply] at hr
    split at hr
    · rw [← Option.some.inj hr]
      exact h
    · rw [← Option.some.inj hr]
      exact h.append rfl _
  | array name size type numOfElements options nested =>
    obtain ⟨m', hm', rfl⟩ := Option.map_eq_some_iff.mp hr
    exact iff_of_true (bitsFit_array h hm') trivial
  | arrayString name size numOfElements defString =>
    obtain rfl := Option.some.inj hr
    exact iff_of_true (h.append rfl _) trivial
  | arrayNamed name numOfElements options metadataName =>
    refine iff_of_true ?_ trivial
    rw [apply] at hr
    split at hr
    · rw [← Option.some.inj hr]
      exact h
    · obtain ⟨m', hm', rfl⟩ := Option.map_eq_some_iff.mp hr
      exact bitsFit_array h hm'
  | arrayEnum name numOfElements size options enum =>
    cases enum with
    | none =>
      obtain rfl := Option.some.inj hr
      exact iff_of_true h trivial
    | some enum =>
      obtain rfl := Option.some.inj hr
      exact iff_of_true (h.append rfl _) trivial

/-- **Accepted bit fields fit** throughout a run of builder calls precisely if every call of
`put_bits` that is accepted has room for its field. -/
theorem always_bitsFit_iff (store : String → Option BinaryMetadata) (bigEndian : Bool)
    (calls : List BuilderCall) :
    Always (fun m call => call.step store m) BitsFit (empty bigEndian) calls ↔
      Guarded (fun m call => call.step store m) (fun m call => call.KeepsBlocks m)
        (empty bigEndian) calls :=
  always_iff_guarded calls (J := fun _ => True) (fun _ _ _ _ _ => trivial)
    (fun _ _ _ _ h hstep => bitsFit_step_iff h hstep) trivial
    fun _ hnode => absurd hnode List.not_mem_nil

/-- A field of nine bits in a block of one byte is accepted, and so are two fields of 60 and 10
bits whose common block has nine bytes. -/
theorem not_always_bitsFit :
    (∃ m, (putBits "a" 9 1).apply (fun _ => none) (empty false) = some (m, true) ∧
      ¬ m.BitsFit) ∧
    ¬ Always (fun m call => step (fun _ => none) m call) BitsFit (empty false)
      [putBits "a" 60 8, putBits "b" 10 8] := by
  constructor
  · refine ⟨_, rfl, fun h => ?_⟩
    have hfit := h _ List.mem_cons_self _ rfl
    revert hfit
    decide
  · intro h
    have hfit := h _ _ List.prefix_rfl rfl _ (List.mem_cons_of_mem _ List.mem_cons_self) _ rfl
    revert hfit
    decide

end BuilderCall

end UtilityFramework
