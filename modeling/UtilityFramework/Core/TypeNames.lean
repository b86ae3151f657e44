import UtilityFramework.Core.Types
import UtilityFramework.Lib.Decimal

/-!
# Names of data types

The two tables of `utils/types.hpp` between types and their names. `get_type_name` gives
several types one name, and `get_type` knows more names than the other table gives. The type
of a bit field is written as the type of its block, a colon and the number of bits.
-/

namespace UtilityFramework

open Decimal

namespace TypeEnum

/-- `utils::types::get_type_name`; `none` if it returns false. -/
def getTypeName : TypeEnum → Option String
  | uint8 | byte | int8 | char => some "byte"
  | ushort | uint16 => some "word"
  | bool => some "bool"
  | int16 | short => some "short"
  | uint32 => some "dword"
  | int32 => some "int"
  | uint64 => some "uint64_t"
  | int64 => some "int64_t"
  | float => some "float"
  | double => some "double"
  | enum => some "enum"
  | string => some "string"
  | array => some "array"
  | emptyType => some "none"
  | buffer => some "buffer"
  | complex => some "complex"
  | bitmap => some "bitmap"
  | debugType | unknown | pointer => none

/-- The names `get_type` compares with, in its order. -/
def typeNames : List (String × TypeEnum) :=
  [("byte", byte), ("uint8", byte), ("uint8_t", byte), ("unsigned char", byte),
    ("byteEnum", byte), ("sbyte", byte), ("char", char), ("int8_t", char), ("char8", char),
    ("bool", bool), ("bool8", bool), ("short", int16), ("int16_t", int16),
    ("unsigned int", uint32), ("dword", uint32), ("unsignedinteger", uint32),
    ("uint32", uint32), ("uint32_t", uint32), ("unsigned long", uint32), ("ulong32", uint32),
    ("socketip", uint32), ("long", int32), ("long32", int32), ("int", int32),
    ("int32", int32), ("int32_t", int32), ("float", float), ("float32", float),
    ("double", double), ("long double", double), ("double64", double), ("long long", int64),
    ("int64", int64), ("int64_t", int64), ("unsigned long long", uint64),
    ("unsigned __int64", uint64), ("uint64", uint64), ("uint64_t", uint64),
    ("unsignedshortinteger", uint16), ("word", uint16), ("unsigned short", uint16),
    ("uint16", uint16), ("uint16_t", uint16), ("none", emptyType), ("buffer", buffer),
    ("complex", complex), ("string", string), ("enum", enum), ("array", array)]

/-- The part of `get_type` before it looks for a bit field. A name that contains
`charbuff[` or `char[` is that of a buffer. -/
def plainType (name : String) : Option TypeEnum :=
  match typeNames.find? fun entry => entry.1 = name with
  | some entry => some entry.2
  | none =>
    if "charbuff[".toList <:+: name.toList ∨ "char[".toList <:+: name.toList then some buffer
    else none

/-- The type of the block and the text of the number of bits in the name of a bit field. -/
def bitParts (name : String) : Option (TypeEnum × String) :=
  match split ':' name with
  | [block, bits] =>
    -- The name of the block has no colon, so `get_type` of it is found in the table.
    let type := (plainType block).getD complex
    if (type.isSimpleType ∨ type = enum) ∧ (bits.toList.head?.any Char.isDigit) then
      some (type, bits)
    else none
  | _ => none

/-- `utils::types::get_type`. -/
def getType (name : String) : TypeEnum :=
  match plainType name with
  | some type => type
  | none => if (bitParts name).isSome then bitmap else complex

/-- `utils::types::get_bitmap_sizes`: the number of bits and the size of the block; the inner
`none` if it returns false and the outer one if `std::stol` throws. -/
def getBitmapSizes (name : String) : Option (Option (ℕ × ℕ)) :=
  match bitParts name with
  | none => some none
  | some (type, bits) => (stoll bits).map fun n => some (n.toNat, type.sizeofType)

/-- The type `get_type` gives for the name of a simple type: several of them share one. -/
def readAs : TypeEnum → TypeEnum
  | uint8 | int8 | char => byte
  | ushort => uint16
  | short => int16
  | type => type

theorem getTypeName_of_isSimpleType {type : TypeEnum} (h : type.isSimpleType ∨ type = enum) :
    ∃ name, type.getTypeName = some name ∧ getType name = type.readAs := by
  have hall : ∀ type : TypeEnum, type.isSimpleType ∨ type = enum →
      type.getTypeName.map getType = some type.readAs := by
    intro type
    cases type <;> decide +kernel
  exact Option.map_eq_some_iff.mp (hall type h)

/-! ### Names of bit fields -/

/-- The name of a bit field: that of the type of its block, a colon and the number of bits. -/
def bitName (block : String) (numOfBits : ℕ) : String :=
  block ++ String.singleton ':' ++ toString numOfBits

theorem plainType_eq_none {name : String} (hcolon : ':' ∈ name.toList)
    (hbracket : '[' ∉ name.toList) : plainType name = none := by
  have htable : ∀ entry ∈ typeNames, ':' ∉ entry.1.toList := by decide +kernel
  have hfind : (typeNames.find? fun entry => entry.1 = name) = none := by
    rw [List.find?_eq_none]
    intro entry hentry heq
    rw [decide_eq_true_eq] at heq
    exact htable entry hentry (heq ▸ hcolon)
  rw [plainType, hfind]
  refine if_neg ?_
  rintro (h | h)
  · exact hbracket (h.subset (by decide))
  · exact hbracket (h.subset (by decide))

section BitName

variable {block : String} {type : TypeEnum} (htype : plainType block = some type)
  (hsimple : type.isSimpleType) (hblock : block ≠ "") (hcolon : ':' ∉ block.toList)
  (hbracket : '[' ∉ block.toList) (n : ℕ)

include htype hsimple hblock hcolon

theorem bitParts_bitName : bitParts (bitName block n) = some (type, toString n) := by
  have hdigits : (toString n).toList = Nat.toDigits 10 n := by
    rw [Nat.toString_eq_repr, Nat.toList_repr]
  have hne : toString n ≠ "" := by
    intro h
    rw [h, String.toList_empty] at hdigits
    exact Nat.toDigits_ne_nil hdigits.symm
  have hhead : ((Nat.toDigits 10 n).head?.any Char.isDigit) = true := by
    cases h : Nat.toDigits 10 n with
    | nil => exact absurd h Nat.toDigits_ne_nil
    | cons c rest => exact isDigit_of_toDigits_eq_cons h
  rw [bitParts, bitName, split_append_cons hcolon (not_mem_toString (by decide) n) hblock hne]
  simp [htype, hsimple, hhead]

include hbracket

theorem getType_bitName : getType (bitName block n) = bitmap := by
  have hname : (bitName block n).toList = block.toList ++ ':' :: (toString n).toList := by
    simp [bitName]
  have hplain : plainType (bitName block n) = none := by
    refine plainType_eq_none ?_ ?_
    · rw [hname]
      simp
    · rw [hname, List.mem_append, List.mem_cons]
      rintro (h | h | h)
      · exact hbracket h
      · cases h
      · exact not_mem_toString (by decide) n h
  rw [getType, hplain, bitParts_bitName htype hsimple hblock hcolon]
  rfl

omit hbracket in
theorem getBitmapSizes_bitName (hn : n < 2 ^ 63) :
    getBitmapSizes (bitName block n) = some (some (n, type.sizeofType)) := by
  have hstoll : stoll (toString n) = some (n : ℤ) :=
    stoll_toString (n := (n : ℤ)) (by omega) (by exact_mod_cast hn)
  rw [getBitmapSizes, bitParts_bitName htype hsimple hblock hcolon]
  simp only [hstoll, Option.map_some, Int.toNat_natCast]

omit hbracket in
/-- A number of bits that `std::stol` cannot hold. -/
theorem getBitmapSizes_bitName_of_le (hn : 2 ^ 63 ≤ n) :
    getBitmapSizes (bitName block n) = none := by
  have hparse : parseInteger (toString n) = some (n : ℤ) := parseInteger_toString (n : ℤ)
  have hstoll : stoll (toString n) = none := by
    rw [stoll, hparse, Option.filter_some, if_neg]
    simp only [decide_eq_true_eq, not_and]
    intro _ hlt
    have hlt' : n < 2 ^ 63 := by exact_mod_cast hlt
    exact absurd hlt' (Nat.not_lt.mpr hn)
  rw [getBitmapSizes, bitParts_bitName htype hsimple hblock hcolon]
  simp only [hstoll, Option.map_none]

end BitName

end TypeEnum

end UtilityFramework
