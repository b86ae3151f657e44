import UtilityFramework.Lib.Bytes
import Mathlib.Logic.Equiv.Defs

/-!
# Packed records

The values of a type that takes up a fixed number of bytes, such as a packed structure that is
copied to and from memory as it is. `Codec.pair` is the record of two fields, one after the
other, and `Codec.ofEquiv` a type with the fields of another one. Integers are little-endian,
the byte order of the platform.
-/

namespace UtilityFramework

open Bytes

universe u v

/-- The bytes of the values of a type. Every value is the one that its bytes denote. -/
structure Codec (α : Type u) where
  size : ℕ
  encode : α → List UInt8
  decode : List UInt8 → α
  length_encode : ∀ a, (encode a).length = size
  decode_encode : ∀ a, decode (encode a) = a

namespace Codec

variable {α : Type u} {β : Type v}

def uint32 : Codec UInt32 where
  size := 4
  encode value := toLE 4 value.toNat
  decode bytes := UInt32.ofNat (ofLE bytes)
  length_encode value := length_toLE 4 value.toNat
  decode_encode value := by
    have hlt : value.toNat < 256 ^ 4 := value.toNat_lt
    rw [ofLE_toLE, Nat.mod_eq_of_lt hlt, UInt32.ofNat_toNat]

def uint64 : Codec UInt64 where
  size := 8
  encode value := toLE 8 value.toNat
  decode bytes := UInt64.ofNat (ofLE bytes)
  length_encode value := length_toLE 8 value.toNat
  decode_encode value := by
    have hlt : value.toNat < 256 ^ 8 := value.toNat_lt
    rw [ofLE_toLE, Nat.mod_eq_of_lt hlt, UInt64.ofNat_toNat]

/-- Two fields, one after the other. -/
def pair (p : Codec α) (q : Codec β) : Codec (α × β) where
  size := p.size + q.size
  encode value := p.encode value.1 ++ q.encode value.2
  decode bytes := (p.decode (bytes.take p.size), q.decode (bytes.drop p.size))
  length_encode value := by rw [List.length_append, p.length_encode, q.length_encode]
  decode_encode value := by
    rw [List.take_left' (p.length_encode value.1), List.drop_left' (p.length_encode value.1),
      p.decode_encode, q.decode_encode]

/-- A type with the fields of another one. -/
def ofEquiv (p : Codec β) (e : α ≃ β) : Codec α where
  size := p.size
  encode value := p.encode (e value)
  decode bytes := e.symm (p.decode bytes)
  length_encode value := p.length_encode (e value)
  decode_encode value := by rw [p.decode_encode, e.symm_apply_apply]

end Codec

end UtilityFramework
