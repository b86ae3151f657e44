import Mathlib.Algebra.Order.Ring.Nat
import Mathlib.Data.List.Basic

/-!
# Data types of fields and rows

`core::types::type_enum` and the tables of `utils/types.hpp` that classify a type: which
types are simple, how many bytes they take, and which type stands for a block of a given
size. Sizes are `size_t` values of a 64-bit platform, whose arithmetic wraps around.
-/

namespace UtilityFramework

/-- `core::types::type_enum`. -/
inductive TypeEnum
  | debugType
  | unknown
  | byte
  | short
  | int32
  | float
  | complex
  | emptyType
  | bool
  | double
  | string
  | buffer
  | pointer
  | bitmap
  | uint8
  | uint16
  | uint32
  | uint64
  | int8
  | int16
  | char
  | ushort
  | int64
  | enum
  | array
  deriving DecidableEq, Repr

namespace TypeEnum

/-- `utils::types::is_simple_type`. -/
def isSimpleType : TypeEnum → Bool
  | uint8 | byte | bool | int8 | char | ushort | uint16 | short | int16 | uint32 | int32
  | uint64 | int64 | float | double => true
  | _ => false

/-- `utils::types::sizeof_type`, in bytes; `0` when the size cannot be determined. -/
def sizeofType : TypeEnum → ℕ
  | uint8 | byte | bool | int8 | char => 1
  | ushort | uint16 | short | int16 => 2
  | uint32 | int32 | enum => 4
  | uint64 | int64 => 8
  | float => 4
  | double => 8
  | _ => 0

/-- `utils::types::get_type_by_size`. -/
def getTypeBySize (size : ℕ) (unsignedType : Bool) : TypeEnum :=
  if unsignedType then
    if size = 1 then uint8
    else if size = 2 then uint16
    else if size = 4 then uint32
    else if size = 8 then uint64
    else unknown
  else
    if size = 1 then int8
    else if size = 2 then int16
    else if size = 4 then int32
    else if size = 8 then int64
    else unknown

end TypeEnum

/-! ### Arithmetic of `size_t` -/

namespace Size

/-- The number of values of `size_t`. -/
def modulus : ℕ := 2 ^ 64

/-- `a + b`. -/
def add (a b : ℕ) : ℕ := (a + b) % modulus

/-- `a - b`, for `b` a `size_t`. -/
def sub (a b : ℕ) : ℕ := (a + (modulus - b)) % modulus

/-- `a * b`. -/
def mul (a b : ℕ) : ℕ := (a * b) % modulus

/-- `static_cast<size_t>` of `(int32_t)n`: the sign is extended. -/
def ofInt32 (n : ℕ) : ℕ :=
  if n % 2 ^ 32 < 2 ^ 31 then n % 2 ^ 32 else modulus - 2 ^ 32 + n % 2 ^ 32

/-- `static_cast<size_t>` of `(short)n`: the sign is extended. -/
def ofInt16 (n : ℕ) : ℕ :=
  if n % 2 ^ 16 < 2 ^ 15 then n % 2 ^ 16 else modulus - 2 ^ 16 + n % 2 ^ 16

theorem ofInt32_of_lt {n : ℕ} (h : n < 2 ^ 31) : ofInt32 n = n := by
  rw [ofInt32]
  split_ifs <;> omega

theorem ofInt16_of_lt {n : ℕ} (h : n < 2 ^ 15) : ofInt16 n = n := by
  rw [ofInt16]
  split_ifs <;> omega

theorem add_of_lt {a b : ℕ} (h : a + b < modulus) : add a b = a + b := Nat.mod_eq_of_lt h

theorem mul_of_lt {a b : ℕ} (h : a * b < modulus) : mul a b = a * b := Nat.mod_eq_of_lt h

theorem sub_of_le {a b : ℕ} (hle : b ≤ a) (ha : a < modulus) : sub a b = a - b := by
  have hsum : a + (modulus - b) = (a - b) + modulus := by omega
  rw [sub, hsum, Nat.add_mod_right, Nat.mod_eq_of_lt (by omega)]

end Size

end UtilityFramework
