import UtilityFramework.Lib.Bytes
import UtilityFramework.Parsers.Options

/-!
# Reading and writing the fields of a record

`parsers::binary_parser_impl` over a buffer: a parser has a metadata, a buffer and the offset
of its record in the buffer. The buffer is a list of bytes, and every access to it is bounds
checked (`safe_buffer`): it fails, and changes nothing, when it leaves the buffer.

The platform is little-endian. A field in the other byte order has the bytes of each pair
swapped when it is read, while only bit fields swap them when they are written. Sums of
offsets are exact: an access whose end does not fit into `size_t` is one that leaves the
buffer.
-/

namespace UtilityFramework

open Bytes

/-! ### The buffer -/

/-- `safe_buffer::safe_read`. -/
def safeRead (buf : List UInt8) (n off : ℕ) : Option (List UInt8) :=
  if n + off ≤ buf.length then some (slice buf off n) else none

/-- `safe_buffer::safe_write`; `none` if it returns false. -/
def safeWrite (buf data : List UInt8) (off : ℕ) : Option (List UInt8) :=
  if data.length + off ≤ buf.length then some (blit buf off data) else none

/-- `safe_buffer::nullify`; also the content of a new buffer of that size. -/
def zeroes (n : ℕ) : List UInt8 := List.replicate n 0

/-- `endian_swap` of each pair of bytes; a last byte without a partner stays. -/
def swapPairs : List UInt8 → List UInt8
  | a :: b :: rest => b :: a :: swapPairs rest
  | bytes => bytes

/-- The conversion between the byte order of a field and that of the platform. -/
def convertOrder (bigEndian : Bool) (bytes : List UInt8) : List UInt8 :=
  if bigEndian then swapPairs bytes else bytes

@[simp] theorem convertOrder_false (bytes : List UInt8) : convertOrder false bytes = bytes := rfl

theorem length_swapPairs : ∀ bytes : List UInt8, (swapPairs bytes).length = bytes.length
  | [] => rfl
  | [_] => rfl
  | a :: b :: rest => by
    rw [swapPairs, List.length_cons, List.length_cons, length_swapPairs rest, List.length_cons,
      List.length_cons]

theorem length_convertOrder (bigEndian : Bool) (bytes : List UInt8) :
    (convertOrder bigEndian bytes).length = bytes.length := by
  rw [convertOrder]
  split
  · exact length_swapPairs bytes
  · rfl

@[simp] theorem length_zeroes (n : ℕ) : (zeroes n).length = n := List.length_replicate

theorem safeRead_eq_some {buf data : List UInt8} {n off : ℕ} (h : safeRead buf n off = some data) :
    n + off ≤ buf.length ∧ data = slice buf off n := by
  rw [safeRead] at h
  split at h
  · exact ⟨by assumption, (Option.some.inj h).symm⟩
  · cases h

theorem length_of_safeRead {buf data : List UInt8} {n off : ℕ}
    (h : safeRead buf n off = some data) : data.length = n := by
  obtain ⟨hle, rfl⟩ := safeRead_eq_some h
  exact length_slice (by omega)

/-! ### Bit fields -/

/-- What the language leaves open: the result of converting a floating-point number that is
out of range to an unsigned type, given the width of the type in bytes and the number. -/
structure Platform where
  outOfRange : ℕ → ℕ → ℕ

/-- `static_cast` of the floating-point number `x` to an unsigned type of `w` bytes. -/
def Platform.castToUnsigned (p : Platform) (w x : ℕ) : ℕ :=
  if x < 2 ^ (8 * w) then x else p.outOfRange w x % 2 ^ (8 * w)

/-- `std::pow(2, n) - 1`, computed in double precision: from `2 ^ 54 - 1` on the difference
is rounded up. -/
def pow2MinusOne (n : ℕ) : ℕ := if n ≤ 53 then 2 ^ n - 1 else 2 ^ n

namespace BitRange

/-- `bit_binary_node::mask`. -/
def mask (p : Platform) (bits : BitRange) : ℕ :=
  ((p.castToUnsigned 8 (2 ^ bits.numOfBits) + (2 ^ 64 - 1)) % 2 ^ 64) <<< bits.bitOffset % 2 ^ 64

/-- `check_data` for data of `w` bytes. -/
def checkData (p : Platform) (bits : BitRange) (w v : ℕ) : Bool :=
  decide (v ≤ p.castToUnsigned w (pow2MinusOne bits.numOfBits))

/-- The shifted value in `mask_bit_data` for data of `w` bytes: data of one or two bytes is
promoted to `int` first. -/
def shifted (bits : BitRange) (w v : ℕ) : ℕ :=
  if w = 8 then v <<< bits.bitOffset % 2 ^ 64
  else if w = 4 then v <<< bits.bitOffset % 2 ^ 32
  else (toSigned 4 (v <<< bits.bitOffset) % 2 ^ 64).toNat

/-- `mask_bit_data`. -/
def maskBitData (p : Platform) (bits : BitRange) (w v exist : ℕ) : ℕ :=
  bits.shifted w v ||| (exist &&& (2 ^ 64 - 1 ^^^ bits.mask p))

end BitRange

namespace BinaryNode

variable {μ : Type}

/-- `binary_node::read` and `bit_binary_node::read` of as many bytes as the node has, from a
block. -/
def read (p : Platform) (node : BinaryNode μ) (block : List UInt8) : Option (List UInt8) :=
  match node.bits with
  | none =>
    if block.length < node.size then none
    else some (convertOrder node.bigEndian (block.take node.size))
  | some bits =>
    if 8 < block.length then none
    else
      some (convertOrder node.bigEndian
        (toLE node.size ((ofLE block &&& bits.mask p) >>> bits.bitOffset)))

/-- `binary_node::write` and `bit_binary_node::write` into a block. -/
def write (p : Platform) (node : BinaryNode μ) (data block : List UInt8) : Option (List UInt8) :=
  if node.size < data.length then none
  else
    match node.bits with
    | none =>
      if block.length < data.length then none
      else some (blit block 0 (convertOrder node.bigEndian data))
    | some bits =>
      if 8 < block.length then none
      else
        let w := data.length
        let v := ofLE (convertOrder node.bigEndian data)
        if w ≠ 1 ∧ w ≠ 2 ∧ w ≠ 4 ∧ w ≠ 8 then none
        else if bits.checkData p w v then
          some (toLE block.length (bits.maskBitData p w v (ofLE block)))
        else none

end BinaryNode

/-! ### Fields -/

section Access

variable (p : Platform) (buf : List UInt8) (off : ℕ) (node : Node)

/-- `read_bits_by_node`, for as many bytes as the node has. -/
def readBitsByNode : Option (List UInt8) :=
  (safeRead buf node.size (off + node.offset)).bind (node.read p)

/-- `write_bits_by_node`; `none` if it returns false. -/
def writeBitsByNode (data : List UInt8) : Option (List UInt8) := do
  let block ← safeRead buf node.size (off + node.offset)
  let block' ← node.write p data block
  safeWrite buf block' (off + node.offset)

/-- `read_by_node`. Bit fields are always read with all the bytes of the node. -/
def readByNode (n : ℕ) : Option (List UInt8) :=
  if node.size < n then none
  else if node.type = .bitmap then readBitsByNode p buf off node
  else (safeRead buf n (off + node.offset)).map (convertOrder node.bigEndian)

/-- `write_by_node`; `none` if it returns false. -/
def writeByNode (data : List UInt8) : Option (List UInt8) :=
  if node.size < data.length then none
  else if node.type = .bitmap then writeBitsByNode p buf off node data
  else safeWrite buf data (off + node.offset)

/-- `write_string`: the characters up to the first zero, and a zero. -/
def writeString (text : List UInt8) : Option (List UInt8) :=
  if node.type ≠ .string then none
  else if node.size < text.length + 1 then none
  else writeByNode p buf off node (text ++ [0])

/-- `read_at` of an element of an array that is not complex, given the node that describes
the elements. -/
def readAt (child : Node) (index : ℕ) : Option (List UInt8) :=
  (safeRead buf child.size (off + node.offset + index * child.size)).map
    (convertOrder child.bigEndian)

/-- `write_at` of an element of an array that is not complex. A write that leaves the buffer
is dropped. -/
def writeAt (child : Node) (index : ℕ) (data : List UInt8) : List UInt8 :=
  (safeWrite buf data (off + node.offset + index * child.size)).getD buf

/-- `item_by_val` of an enumeration. -/
def EnumData.itemByVal (enum : EnumData) (val : ℤ) : Option EnumItem :=
  enum.items.find? fun item => item.value = val

/-- `item_by_name` of an enumeration. -/
def EnumData.itemByName (enum : EnumData) (name : String) : Option EnumItem :=
  enum.items.find? fun item => item.name = name

/-- `reinterpret_enum`: the sign extension of a value of `size` bytes. -/
def reinterpretEnum (size v : ℕ) : ℤ :=
  if size = 1 ∨ size = 2 ∨ size = 4 then toSigned size v else toSigned 8 v

/-- `validate` of a field that is not complex and not an array; `none` when the value of a
simple field cannot be read, which leaves it undefined. -/
def validate : Option Bool :=
  if node.type.isSimpleType then
    if 8 < node.size then none
    else
      (readByNode p buf off node node.size).map fun data =>
        node.options.isInBounds node.type (ofLE data)
  else if node.type = .enum then
    if 8 < node.size then none
    else
      let data := (readByNode p buf off node node.size).getD []
      match node.enum with
      | none => some false
      | some enum => some (enum.itemByVal (reinterpretEnum node.size (ofLE data))).isSome
  else some true

end Access

end UtilityFramework
