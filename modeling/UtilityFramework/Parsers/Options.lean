import Mathlib.Tactic.NormNum
import UtilityFramework.Parsers.Metadata

/-!
# Field values and their bounds

How the bytes of a simple field are read as a value of its type, and the bounds
`utils::parsers::simple_options` puts on it. A value is given by the unsigned number its
bytes hold, least significant byte first; bytes above the width of the type are ignored.
-/

namespace UtilityFramework

namespace TypeEnum

/-- The width in bytes and the signedness of the integer type a field of the given type is
read as. -/
def integerFormat : TypeEnum → Option (ℕ × Bool)
  | int8 | char => some (1, true)
  | uint8 | byte => some (1, false)
  | int16 | short => some (2, true)
  | uint16 | ushort => some (2, false)
  | int32 => some (4, true)
  | uint32 => some (4, false)
  | int64 => some (8, true)
  | uint64 => some (8, false)
  | _ => none

/-- The C++ type a JSON member of the given type is read as: its width, and
`utils::types::get_type` of it, which is not the type itself for the synonyms. -/
def writtenAs : TypeEnum → Option (ℕ × TypeEnum)
  | int8 | char => some (1, char)
  | uint8 | byte => some (1, byte)
  | int16 | short => some (2, int16)
  | uint16 | ushort => some (2, uint16)
  | bool => some (1, bool)
  | int32 => some (4, int32)
  | uint32 => some (4, uint32)
  | int64 => some (8, int64)
  | uint64 => some (8, uint64)
  | _ => none

end TypeEnum

/-- The signed number of `w` bytes with the same bytes as `v`. -/
def toSigned (w v : ℕ) : ℤ :=
  let u := v % 2 ^ (8 * w)
  if u < 2 ^ (8 * w - 1) then u else u - 2 ^ (8 * w)

/-- The integer of `w` bytes with the same bytes as `v`. -/
def toInteger (w : ℕ) (signed : Bool) (v : ℕ) : ℤ :=
  if signed then toSigned w v else (v % 2 ^ (8 * w) : ℕ)

/-- The bytes of an integer are those of the number it was read from. -/
theorem toInteger_emod (w : ℕ) (signed : Bool) (v : ℕ) :
    toInteger w signed v % (2 ^ (8 * w) : ℕ) = (v % 2 ^ (8 * w) : ℕ) := by
  rw [toInteger]
  split
  · rw [toSigned]
    split
    · exact Int.emod_eq_of_lt (by omega) (by exact_mod_cast Nat.mod_lt _ (Nat.two_pow_pos _))
    · push_cast
      rw [Int.sub_emod_right, Int.emod_emod]
  · rw [Int.emod_eq_of_lt (by omega)]
    exact_mod_cast Nat.mod_lt _ (Nat.two_pow_pos _)

/-- The signed numbers of at most eight bytes. -/
theorem toSigned_bounds {w : ℕ} (hw : w = 1 ∨ w = 2 ∨ w = 4 ∨ w = 8) (v : ℕ) :
    -2 ^ 63 ≤ toSigned w v ∧ toSigned w v < 2 ^ 63 := by
  rw [toSigned]
  rcases hw with rfl | rfl | rfl | rfl <;> norm_num <;> split <;> omega

/-- Storing a signed number in eight bytes and reading it back. -/
theorem toSigned_emod {n : ℤ} (hlo : -2 ^ 63 ≤ n) (hhi : n < 2 ^ 63) :
    toSigned 8 (n % 2 ^ 64).toNat = n := by
  rw [toSigned]
  norm_num
  split <;> omega

/-- The low bytes of a sign-extended number are those it was extended from. -/
theorem toSigned_emod_mod {w v : ℕ} (hw : w = 1 ∨ w = 2 ∨ w = 4 ∨ w = 8) (hv : v < 256 ^ w) :
    (toSigned w v % 2 ^ 64).toNat % 256 ^ w = v := by
  rw [toSigned]
  rcases hw with rfl | rfl | rfl | rfl <;> norm_num at hv ⊢ <;> split <;> omega

/-- Whether IEEE number `a` is less than `b`, both given by their bits: `k` of them, with
`inf` the bits of infinity. A comparison with a NaN fails. -/
def floatLt (k inf a b : ℕ) : Bool :=
  let magnitude (v : ℕ) : ℕ := v % 2 ^ (k - 1)
  let value (v : ℕ) : ℤ := if v / 2 ^ (k - 1) % 2 = 1 then -magnitude v else magnitude v
  decide (magnitude a ≤ inf) && decide (magnitude b ≤ inf) && decide (value a < value b)

/-- `compare_val` of two values of a type, where it decides that the first is less. -/
def TypeEnum.valueLt (type : TypeEnum) (a b : ℕ) : Bool :=
  match type with
  | .float => floatLt 32 0x7f800000 a b
  | .double => floatLt 64 0x7ff0000000000000 a b
  | type =>
    match type.integerFormat with
    | some (w, signed) => decide (toInteger w signed a < toInteger w signed b)
    | none => false

/-- `simple_options::is_in_bounds` for a value of the given type. The bounds of a `BOOL`
are fixed, and types that are not simple have none. -/
def SimpleOptions.isInBounds (options : SimpleOptions) (type : TypeEnum) (v : ℕ) : Bool :=
  match type with
  | .bool => decide (v % 256 ≤ 1)
  | type =>
    (!options.hasMin || !type.valueLt v options.minval.toNat) &&
      (!options.hasMax || !type.valueLt options.maxval.toNat v)

end UtilityFramework
