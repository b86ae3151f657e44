import UtilityFramework.Lib.Bytes

/-!
# Byte orders

`core::types::endian`, with the number that bytes in an order denote and the bytes of a number
in it. In each order these are inverse to each other on numbers of a given width.
-/

namespace UtilityFramework

open Bytes

/-- `core::types::endian`. -/
inductive Endian
  | little
  | big
  deriving DecidableEq

namespace Endian

/-- `utils::types::platform_endian`, on the platform of this development. -/
def platform : Endian := little

/-- The number that bytes in this order denote. -/
def decode : Endian → List UInt8 → ℕ
  | little, bs => ofLE bs
  | big, bs => ofLE bs.reverse

/-- The low `n` bytes of `v` in this order. -/
def encode : Endian → ℕ → ℕ → List UInt8
  | little, n, v => toLE n v
  | big, n, v => (toLE n v).reverse

/-- The other order. -/
def other : Endian → Endian
  | little => big
  | big => little

theorem eq_other_of_ne {a b : Endian} (h : a ≠ b) : a = b.other := by
  cases a <;> cases b <;> first | rfl | exact absurd rfl h

@[simp] theorem length_encode (e : Endian) (n v : ℕ) : (e.encode n v).length = n := by
  cases e <;> simp [encode]

theorem decode_lt (e : Endian) (bs : List UInt8) : e.decode bs < 256 ^ bs.length := by
  cases e with
  | little => exact ofLE_lt bs
  | big =>
    have hlt := ofLE_lt bs.reverse
    rwa [List.length_reverse] at hlt

theorem decode_encode (e : Endian) (n v : ℕ) : e.decode (e.encode n v) = v % 256 ^ n := by
  cases e with
  | little => exact ofLE_toLE n v
  | big => rw [decode, encode, List.reverse_reverse, ofLE_toLE]

theorem encode_decode (e : Endian) (bs : List UInt8) :
    e.encode bs.length (e.decode bs) = bs := by
  cases e with
  | little => exact toLE_ofLE bs
  | big =>
    have h := toLE_ofLE bs.reverse
    rw [List.length_reverse] at h
    rw [encode, decode, h, List.reverse_reverse]

/-- Bytes in the other order are the reversed bytes. -/
theorem decode_other (e : Endian) (bs : List UInt8) : e.other.decode bs = e.decode bs.reverse := by
  cases e with
  | little => rfl
  | big => rw [other, decode, decode, List.reverse_reverse]

/-- Bytes of one number are denoted by no other number. -/
theorem decode_inj (e : Endian) {bs bs' : List UInt8} (hlen : bs.length = bs'.length) :
    e.decode bs = e.decode bs' ↔ bs = bs' := by
  constructor
  · intro h
    rw [← e.encode_decode bs, ← e.encode_decode bs', h, hlen]
  · exact fun h => h ▸ rfl

end Endian

end UtilityFramework
