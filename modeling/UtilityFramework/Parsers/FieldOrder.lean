import UtilityFramework.Core.ByteOrder
import UtilityFramework.Parsers.BinaryParser

/-!
# The byte order of fields

A field is declared in one byte order and the platform has one. If they differ, the parser
swaps the bytes of each 16-bit unit when it reads the field, and nothing when it writes it.

For a field of 2, 4 or 8 bytes the swap gives the declared number precisely if the units of the
field are the same backwards (`swapPairs_eq_reverse_iff`): always for one unit, and for four or
eight bytes for few values. Writing a value and reading it gives the value precisely if both
bytes of every unit are the same (`swapPairs_eq_self_iff`). `fieldOrder_iff` is both, on a
platform of either order.
-/

namespace UtilityFramework

open Bytes

/-! ### Units of two bytes -/

/-- The 16-bit units of a byte sequence. -/
def units : List UInt8 → List (UInt8 × UInt8)
  | a :: b :: rest => (a, b) :: units rest
  | _ => []

/-- The bytes of 16-bit units. -/
def ofUnits : List (UInt8 × UInt8) → List UInt8
  | [] => []
  | u :: us => u.1 :: u.2 :: ofUnits us

theorem units_ofUnits (us : List (UInt8 × UInt8)) : units (ofUnits us) = us := by
  induction us with
  | nil => rfl
  | cons u us ih => rw [ofUnits, units, ih]

theorem ofUnits_injective : Function.Injective ofUnits :=
  Function.LeftInverse.injective units_ofUnits

theorem ofUnits_append (us vs : List (UInt8 × UInt8)) :
    ofUnits (us ++ vs) = ofUnits us ++ ofUnits vs := by
  induction us with
  | nil => rfl
  | cons u us ih => rw [List.cons_append, ofUnits, ih, ofUnits, List.cons_append, List.cons_append]

theorem ofUnits_units : ∀ bytes : List UInt8, Even bytes.length → ofUnits (units bytes) = bytes
  | [], _ => rfl
  | [_], h => absurd h (by rw [List.length_singleton]; decide)
  | a :: b :: rest, h => by
    have hrest : Even rest.length := by
      rw [List.length_cons, List.length_cons, Nat.even_add_one, Nat.not_even_iff_odd,
        Nat.odd_add_one, Nat.not_odd_iff_even] at h
      exact h
    rw [units, ofUnits, ofUnits_units rest hrest]

theorem swapPairs_ofUnits (us : List (UInt8 × UInt8)) :
    swapPairs (ofUnits us) = ofUnits (us.map Prod.swap) := by
  induction us with
  | nil => rfl
  | cons u us ih => rw [ofUnits, swapPairs, ih, List.map_cons, ofUnits, Prod.fst_swap,
      Prod.snd_swap]

theorem reverse_ofUnits (us : List (UInt8 × UInt8)) :
    (ofUnits us).reverse = ofUnits (us.reverse.map Prod.swap) := by
  induction us with
  | nil => rfl
  | cons u us ih =>
    rw [ofUnits, List.reverse_cons, List.reverse_cons, ih, List.reverse_cons, List.map_append,
      ofUnits_append, List.append_assoc]
    rfl

/-- Swapping reverses the bytes precisely if the units are the same backwards. -/
theorem swapPairs_eq_reverse_iff {bytes : List UInt8} (h : Even bytes.length) :
    swapPairs bytes = bytes.reverse ↔ (units bytes).reverse = units bytes := by
  have hunits := ofUnits_units bytes h
  conv_lhs => rw [← hunits]
  rw [swapPairs_ofUnits, reverse_ofUnits, ofUnits_injective.eq_iff,
    (List.map_injective_iff.mpr Prod.swap_injective).eq_iff]
  exact eq_comm

/-- Swapping changes nothing precisely if both bytes of every unit are the same. -/
theorem swapPairs_eq_self_iff {bytes : List UInt8} (h : Even bytes.length) :
    swapPairs bytes = bytes ↔ ∀ u ∈ units bytes, u.1 = u.2 := by
  have hunits := ofUnits_units bytes h
  conv_lhs => rw [← hunits]
  rw [swapPairs_ofUnits, ofUnits_injective.eq_iff]
  conv_lhs => rhs; rw [← List.map_id (units bytes)]
  rw [List.map_inj_left]
  refine forall₂_congr fun u _ => ?_
  rw [Prod.ext_iff]
  exact ⟨fun hu => hu.2, fun hu => ⟨hu.symm, hu⟩⟩

/-! ### Fields on a platform -/

/-- The order in which a field is declared. -/
def BinaryNode.endian {μ : Type} (node : BinaryNode μ) : Endian :=
  if node.bigEndian then .big else .little

/-- `read_by_node` of a field that is no bit field, with `read_from_buffer`, on a platform of
the given order. -/
def readByNodeOn (platform : Endian) (buf : List UInt8) (off : ℕ) (node : Node) (n : ℕ) :
    Option (List UInt8) :=
  if node.size < n then none
  else
    (safeRead buf n (off + node.offset)).map fun data =>
      if node.bigEndian ≠ decide (platform = .big) then swapPairs data else data

/-- On the platform of the other modules this is their `read_by_node`. -/
theorem readByNodeOn_platform (p : Platform) (buf : List UInt8) (off : ℕ) {node : Node}
    (h : node.type ≠ .bitmap) (n : ℕ) :
    readByNodeOn .platform buf off node n = readByNode p buf off node n := by
  rw [readByNodeOn, readByNode, if_neg h]
  congr 2
  funext data
  rw [convertOrder]
  cases node.bigEndian <;> rfl

/-- An integer field of `w` bytes: 2, 4 or 8. -/
structure Node.IsInteger (node : Node) (w : ℕ) (signed : Bool) : Prop where
  format : node.type.integerFormat = some (w, signed)
  wide : w ≠ 1
  size : node.size = w

/-- What is read from the field is the integer that its bytes denote in the declared order. -/
def ReadsDeclared (platform : Endian) (buf : List UInt8) (off : ℕ) (node : Node) (w : ℕ)
    (signed : Bool) : Prop :=
  ∃ data, readByNodeOn platform buf off node w = some data ∧
    toInteger w signed (platform.decode data) =
      toInteger w signed (node.endian.decode (slice buf (off + node.offset) w))

/-- What is read from the field after the integer with the bytes of `v` has been written is this
integer. -/
def ReadsWritten (p : Platform) (platform : Endian) (buf : List UInt8) (off : ℕ) (node : Node)
    (w : ℕ) (signed : Bool) (v : ℕ) : Prop :=
  ∃ buf' data, writeByNode p buf off node (platform.encode w v) = some buf' ∧
    readByNodeOn platform buf' off node w = some data ∧
    toInteger w signed (platform.decode data) = toInteger w signed v

/-! ### The exact condition -/

/-- Integers of one width are equal precisely if their bytes are. -/
theorem toInteger_inj (w : ℕ) (signed : Bool) (a b : ℕ) :
    toInteger w signed a = toInteger w signed b ↔ a % 256 ^ w = b % 256 ^ w := by
  have hpow : (256 : ℕ) ^ w = 2 ^ (8 * w) := by rw [pow_mul]; norm_num
  rw [hpow]
  constructor
  · intro h
    have hmod := congrArg (· % ((2 ^ (8 * w) : ℕ) : ℤ)) h
    simp only [toInteger_emod] at hmod
    exact_mod_cast hmod
  · intro h
    rw [toInteger, toInteger, toSigned, toSigned, h]

theorem decode_mod (e : Endian) {bytes : List UInt8} {w : ℕ} (h : bytes.length = w) :
    e.decode bytes % 256 ^ w = e.decode bytes := Nat.mod_eq_of_lt (h ▸ e.decode_lt bytes)

section Field

variable {p : Platform} {platform : Endian} {buf : List UInt8} {off w : ℕ} {signed : Bool}
  {node : Node}

namespace Node.IsInteger

theorem width (h : node.IsInteger w signed) : w = 2 ∨ w = 4 ∨ w = 8 := by
  have hformat := h.format
  have hwide := h.wide
  revert hformat hwide
  cases node.type <;> simp only [TypeEnum.integerFormat, Option.some.injEq, Prod.mk.injEq,
    reduceCtorEq, false_implies] <;> omega

theorem even (h : node.IsInteger w signed) : Even w := by
  rcases h.width with rfl | rfl | rfl <;> decide

theorem type_ne (h : node.IsInteger w signed) : node.type ≠ .bitmap := by
  intro htype
  have hformat := h.format
  rw [htype] at hformat
  cases hformat

end Node.IsInteger

/-- A field in the order of the platform is read as it is. -/
theorem readByNodeOn_of_same (h : node.IsInteger w signed)
    (hin : off + node.offset + w ≤ buf.length) (hsame : node.endian = platform) :
    readByNodeOn platform buf off node w = some (slice buf (off + node.offset) w) := by
  have hread : safeRead buf w (off + node.offset) = some (slice buf (off + node.offset) w) :=
    if_pos (by omega)
  rw [readByNodeOn, if_neg (by rw [h.size]; exact lt_irrefl w), hread, Option.map_some, if_neg]
  rw [← hsame, BinaryNode.endian]
  cases node.bigEndian <;> decide

/-- In a field in the other order the bytes of each unit are swapped. -/
theorem readByNodeOn_of_other (h : node.IsInteger w signed)
    (hin : off + node.offset + w ≤ buf.length) (hother : node.endian ≠ platform) :
    readByNodeOn platform buf off node w =
      some (swapPairs (slice buf (off + node.offset) w)) := by
  have hread : safeRead buf w (off + node.offset) = some (slice buf (off + node.offset) w) :=
    if_pos (by omega)
  rw [readByNodeOn, if_neg (by rw [h.size]; exact lt_irrefl w), hread, Option.map_some, if_pos]
  revert hother
  rw [BinaryNode.endian]
  cases node.bigEndian <;> cases platform <;> decide

theorem readsDeclared_iff (h : node.IsInteger w signed)
    (hin : off + node.offset + w ≤ buf.length) :
    ReadsDeclared platform buf off node w signed ↔
      node.endian = platform ∨ (units (slice buf (off + node.offset) w)).reverse =
        units (slice buf (off + node.offset) w) := by
  have hlen : (slice buf (off + node.offset) w).length = w := length_slice hin
  by_cases hsame : node.endian = platform
  · refine iff_of_true ⟨_, readByNodeOn_of_same h hin hsame, by rw [hsame]⟩ (Or.inl hsame)
  · have heven : Even (slice buf (off + node.offset) w).length := by
      rw [hlen]
      exact h.even
    have hswap := (length_swapPairs (slice buf (off + node.offset) w)).trans hlen
    rw [or_iff_right hsame, ← swapPairs_eq_reverse_iff heven, ReadsDeclared,
      readByNodeOn_of_other h hin hsame]
    simp only [Option.some.injEq, exists_eq_left']
    rw [toInteger_inj, decode_mod _ hswap, decode_mod _ hlen, Endian.eq_other_of_ne hsame,
      Endian.decode_other, Endian.decode_inj]
    rw [hswap, List.length_reverse, hlen]

theorem readsWritten_iff (h : node.IsInteger w signed) (hin : off + node.offset + w ≤ buf.length)
    (v : ℕ) :
    ReadsWritten p platform buf off node w signed v ↔
      node.endian = platform ∨ ∀ u ∈ units (platform.encode w v), u.1 = u.2 := by
  have hlen : (platform.encode w v).length = w := platform.length_encode w v
  have hfit : off + node.offset + (platform.encode w v).length ≤ buf.length := by rwa [hlen]
  have hwrite : writeByNode p buf off node (platform.encode w v) =
      some (blit buf (off + node.offset) (platform.encode w v)) := by
    rw [writeByNode, if_neg (by rw [hlen, h.size]; exact lt_irrefl w), if_neg h.type_ne, safeWrite,
      if_pos (by omega)]
  have hin' : off + node.offset + w ≤
      (blit buf (off + node.offset) (platform.encode w v)).length := by rwa [length_blit hfit]
  have hslice : slice (blit buf (off + node.offset) (platform.encode w v)) (off + node.offset) w =
      platform.encode w v := by
    have hself := slice_blit_self hfit
    rwa [hlen] at hself
  rw [ReadsWritten, hwrite]
  simp only [Option.some.injEq, exists_eq_left', exists_and_left]
  by_cases hsame : node.endian = platform
  · rw [readByNodeOn_of_same h hin' hsame, hslice]
    refine iff_of_true ⟨_, rfl, ?_⟩ (Or.inl hsame)
    rw [toInteger_inj, Endian.decode_encode, Nat.mod_mod]
  · have heven : Even (platform.encode w v).length := by
      rw [hlen]
      exact h.even
    have hswap := (length_swapPairs (platform.encode w v)).trans hlen
    rw [readByNodeOn_of_other h hin' hsame, hslice, or_iff_right hsame,
      ← swapPairs_eq_self_iff heven]
    simp only [Option.some.injEq, exists_eq_left']
    rw [toInteger_inj, decode_mod _ hswap, ← platform.decode_encode w v, Endian.decode_inj]
    rw [hswap, hlen]

/-- **Field endianness.** A field is read in its declared order, and what is written to it is
read back, precisely if it has the order of the platform, or the 16-bit units of its bytes are
the same backwards and the units of what is written have two bytes that are the same. -/
theorem fieldOrder_iff (p : Platform) (platform : Endian) (h : node.IsInteger w signed)
    (hin : off + node.offset + w ≤ buf.length) (v : ℕ) :
    ReadsDeclared platform buf off node w signed ∧
        ReadsWritten p platform buf off node w signed v ↔
      node.endian = platform ∨
        (units (slice buf (off + node.offset) w)).reverse =
            units (slice buf (off + node.offset) w) ∧
          ∀ u ∈ units (platform.encode w v), u.1 = u.2 := by
  rw [readsDeclared_iff h hin, readsWritten_iff h hin]
  exact or_and_left.symm

end Field

/-- A big-endian field at the beginning of a record. -/
def bigEndianField (type : TypeEnum) (size : ℕ) : Node :=
  (BinaryMetadata.empty true).newNode "a" size type

/-- A big-endian field of two bytes on a little-endian platform. -/
theorem fieldOrder_two_bytes :
    ReadsDeclared .little [1, 2] 0 (bigEndianField .uint16 2) 2 false ∧
      ReadsWritten ⟨fun _ _ => 0⟩ .little [1, 2] 0 (bigEndianField .uint16 2) 2 false 0x0303 :=
  (fieldOrder_iff ⟨fun _ _ => 0⟩ .little ⟨rfl, by decide, rfl⟩ (by decide) 0x0303).mpr
    (Or.inr ⟨rfl, fun u hu => by
      obtain rfl := List.mem_singleton.mp hu
      rfl⟩)

/-- On a little-endian platform four big-endian bytes that denote 1 are read as 65536, and a
big-endian field of two bytes to which 1 has been written is read as 256. -/
theorem fieldOrder_fails :
    ¬ ReadsDeclared .little [0, 0, 0, 1] 0 (bigEndianField .uint32 4) 4 false ∧
      ¬ ReadsWritten ⟨fun _ _ => 0⟩ .little [0, 0] 0 (bigEndianField .uint16 2) 2 false 1 := by
  constructor
  · rintro ⟨data, hdata, hvalue⟩
    obtain rfl : [0, 0, 1, 0] = data := Option.some.inj hdata
    revert hvalue
    decide
  · rintro ⟨buf', data, hwrite, hdata, hvalue⟩
    obtain rfl : [1, 0] = buf' := Option.some.inj hwrite
    obtain rfl : [0, 1] = data := Option.some.inj hdata
    revert hvalue
    decide

end UtilityFramework
