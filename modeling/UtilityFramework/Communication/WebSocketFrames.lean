import UtilityFramework.Lib.Bytes
import UtilityFramework.Lib.Framing

/-!
# WebSocket frames

A frame has a byte with the final flag and the opcode, the length of the payload, and the payload.
A length below 126 is one byte, otherwise this byte is 126 or 127 and two or eight bytes follow,
most significant first. What a client sends is masked: the highest bit of the length byte is set,
and four bytes that each byte of the payload is combined with come before the payload.

`sendFrame` are the bytes that `websocket_connection::send` puts into its queue. A server reads
them back as they were, as long as the length fits into its eight bytes, and it reads no frame
before it has arrived as a whole (`clientFraming`).
-/

namespace UtilityFramework

namespace WebSocket

open Bytes

/-! ### Lengths -/

/-- `num_bytes` bytes of the length, most significant first. -/
def lengthBytes (numBytes length : ℕ) : List UInt8 :=
  (List.range numBytes).reverse.map fun c => UInt8.ofNat ((length >>> (8 * c)) % 256)

/-- The length as `send` writes it. -/
def sendLength (length : ℕ) : List UInt8 :=
  if 126 ≤ length then
    if 0xffff < length then UInt8.ofNat (127 + 128) :: lengthBytes 8 length
    else UInt8.ofNat (126 + 128) :: lengthBytes 2 length
  else [UInt8.ofNat (length + 128)]

/-- The number that bytes stand for, most significant first. -/
def ofLengthBytes (bytes : List UInt8) : ℕ := ofLE bytes.reverse

theorem lengthBytes_eq (n length : ℕ) : lengthBytes n length = (toLE n length).reverse := by
  have hle (n : ℕ) : ∀ length, (List.range n).map
      (fun c => UInt8.ofNat ((length >>> (8 * c)) % 256)) = toLE n length := by
    induction n with
    | zero => exact fun _ => rfl
    | succ n ih =>
      intro length
      rw [List.range_succ_eq_map, List.map_cons, List.map_map, toLE, ← ih (length / 256)]
      congr 1
      · refine UInt8.toNat_inj.mp ?_
        simp
      · refine List.map_congr_left fun c _ => ?_
        have hshift : length >>> (8 * (c + 1)) = (length / 256) >>> (8 * c) := by
          rw [Nat.shiftRight_eq_div_pow, Nat.shiftRight_eq_div_pow, Nat.div_div_eq_div_mul,
            Nat.mul_succ, pow_add, mul_comm]
          rfl
        exact congrArg (fun m => UInt8.ofNat (m % 256)) hshift
  rw [lengthBytes, List.map_reverse, hle]

@[simp] theorem length_lengthBytes (n length : ℕ) : (lengthBytes n length).length = n := by
  rw [lengthBytes_eq, List.length_reverse, length_toLE]

theorem ofLengthBytes_lengthBytes (n length : ℕ) :
    ofLengthBytes (lengthBytes n length) = length % 256 ^ n := by
  rw [ofLengthBytes, lengthBytes_eq, List.reverse_reverse, ofLE_toLE]

/-! ### The frames of a client -/

/-- What a client sends, with the mask it has drawn. -/
structure ClientFrame where
  finRsvOpcode : UInt8
  mask : List UInt8
  payload : List UInt8
  deriving DecidableEq

/-- Each byte is combined with the byte of the mask whose turn it is. -/
def applyMask (mask payload : List UInt8) : List UInt8 :=
  payload.zipIdx.map fun byte => byte.1 ^^^ mask.getD (byte.2 % 4) 0

/-- The bytes of a message that `send` puts into the queue. -/
def sendFrame (f : ClientFrame) : List UInt8 :=
  f.finRsvOpcode :: sendLength f.payload.length ++ f.mask ++ applyMask f.mask f.payload

/-- A mask has four bytes, and the length is a `size_t`. -/
structure ClientFrame.Valid (f : ClientFrame) : Prop where
  length_mask : f.mask.length = 4
  length_payload : f.payload.length < 2 ^ 64

instance (f : ClientFrame) : Decidable f.Valid :=
  decidable_of_iff (f.mask.length = 4 ∧ f.payload.length < 2 ^ 64)
    ⟨fun h => ⟨h.1, h.2⟩, fun h => ⟨h.length_mask, h.length_payload⟩⟩

/-- What a server finds behind the length byte. -/
def recieveLength (byte : UInt8) (stream : List UInt8) : Option (ℕ × List UInt8) :=
  if byte = 254 then
    if 2 ≤ stream.length then some (ofLengthBytes (stream.take 2), stream.drop 2) else none
  else if byte = 255 then
    if 8 ≤ stream.length then some (ofLengthBytes (stream.take 8), stream.drop 8) else none
  else some (byte.toNat - 128, stream)

/-- A server reads a masked frame. -/
def recieveFrame : List UInt8 → Option (ClientFrame × List UInt8)
  | finRsvOpcode :: byte :: stream =>
    if byte < 128 then none
    else
      (recieveLength byte stream).bind fun (length, stream) =>
        if 4 + length ≤ stream.length then
          some (⟨finRsvOpcode, stream.take 4,
            applyMask (stream.take 4) ((stream.drop 4).take length)⟩, stream.drop (4 + length))
        else none
  | _ => none

@[simp] theorem length_applyMask (mask payload : List UInt8) :
    (applyMask mask payload).length = payload.length := by
  rw [applyMask, List.length_map, List.length_zipIdx]

/-- A mask that is applied twice has no effect. -/
theorem applyMask_applyMask (mask payload : List UInt8) :
    applyMask mask (applyMask mask payload) = payload := by
  refine List.ext_getElem (by simp) fun i h₁ h₂ => ?_
  simp only [applyMask, List.getElem_map, List.getElem_zipIdx, Nat.zero_add]
  rw [UInt8.xor_assoc, UInt8.xor_self, UInt8.xor_zero]

/-- The length is read back. -/
theorem recieveLength_sendLength {length : ℕ} (hlt : length < 2 ^ 64) (rest : List UInt8) :
    ∃ byte tail, sendLength length = byte :: tail ∧ ¬byte < 128 ∧
      recieveLength byte (tail ++ rest) = some (length, rest) := by
  rw [sendLength]
  split_ifs with h126 hlong
  · refine ⟨_, _, rfl, by decide, ?_⟩
    rw [recieveLength, if_neg (by decide), if_pos (by decide), if_pos (by simp),
      List.take_left' (length_lengthBytes 8 length), List.drop_left' (length_lengthBytes 8 length),
      ofLengthBytes_lengthBytes, Nat.mod_eq_of_lt (hlt.trans_eq (by norm_num))]
  · refine ⟨_, _, rfl, by decide, ?_⟩
    rw [recieveLength, if_pos (by decide), if_pos (by simp),
      List.take_left' (length_lengthBytes 2 length), List.drop_left' (length_lengthBytes 2 length),
      ofLengthBytes_lengthBytes, Nat.mod_eq_of_lt (by omega)]
  · have hbyte : (UInt8.ofNat (length + 128)).toNat = length + 128 := by
      rw [UInt8.toNat_ofNat']
      omega
    have h128 : ¬UInt8.ofNat (length + 128) < 128 := by
      rw [UInt8.lt_iff_toNat_lt, hbyte]
      simp
    have hne (n : UInt8) (hn : length + 128 < n.toNat) : UInt8.ofNat (length + 128) ≠ n := by
      intro h
      rw [← h, hbyte] at hn
      omega
    refine ⟨_, _, rfl, h128, ?_⟩
    rw [recieveLength, if_neg (hne _ (by simp; omega)), if_neg (hne _ (by simp; omega)), hbyte,
      Nat.add_sub_cancel, List.nil_append]

theorem recieveFrame_cons (finRsvOpcode byte : UInt8) (stream : List UInt8) :
    recieveFrame (finRsvOpcode :: byte :: stream) =
      if byte < 128 then none
      else
        (recieveLength byte stream).bind fun (length, stream) =>
          if 4 + length ≤ stream.length then
            some (⟨finRsvOpcode, stream.take 4,
              applyMask (stream.take 4) ((stream.drop 4).take length)⟩, stream.drop (4 + length))
          else none := rfl

/-- **What a client sends, a server reads.** -/
theorem recieveFrame_sendFrame {f : ClientFrame} (hf : f.Valid) (rest : List UInt8) :
    recieveFrame (sendFrame f ++ rest) = some (f, rest) := by
  obtain ⟨byte, tail, htail, hbyte, hlength⟩ := recieveLength_sendLength hf.length_payload
    (f.mask ++ applyMask f.mask f.payload ++ rest)
  have hframe : sendFrame f ++ rest = f.finRsvOpcode :: byte ::
      (tail ++ (f.mask ++ applyMask f.mask f.payload ++ rest)) := by
    rw [sendFrame, htail]
    simp
  have hdrop : (f.mask ++ applyMask f.mask f.payload ++ rest).drop 4 =
      applyMask f.mask f.payload ++ rest := by
    rw [List.append_assoc, List.drop_left' hf.length_mask]
  rw [hframe, recieveFrame_cons, if_neg hbyte, hlength, Option.bind_some]
  dsimp only
  rw [if_pos (by simp [hf.length_mask]), hdrop, ← List.drop_drop, hdrop,
    List.take_left' (length_applyMask _ _), List.drop_left' (length_applyMask _ _),
    List.append_assoc, List.take_left' hf.length_mask, applyMask_applyMask]

theorem recieveLength_append {byte : UInt8} {p rest : List UInt8} {length : ℕ}
    (h : recieveLength byte p = some (length, rest)) (q : List UInt8) :
    recieveLength byte (p ++ q) = some (length, rest ++ q) := by
  rw [recieveLength] at h ⊢
  split_ifs at h with h254 h2 h255 h8
  · rw [Option.some.injEq, Prod.mk.injEq] at h
    rw [if_pos h254, if_pos (by simp; omega), List.take_append_of_le_length h2,
      List.drop_append_of_le_length h2, h.1, h.2]
  · rw [Option.some.injEq, Prod.mk.injEq] at h
    rw [if_neg h254, if_pos h255, if_pos (by simp; omega), List.take_append_of_le_length h8,
      List.drop_append_of_le_length h8, h.1, h.2]
  · rw [Option.some.injEq, Prod.mk.injEq] at h
    rw [if_neg h254, if_neg h255, h.1, h.2]

theorem recieveFrame_append {f : ClientFrame} {p rest : List UInt8}
    (h : recieveFrame p = some (f, rest)) (q : List UInt8) :
    recieveFrame (p ++ q) = some (f, rest ++ q) := by
  rcases p with - | ⟨finRsvOpcode, - | ⟨byte, stream⟩⟩
  · cases h
  · cases h
  · rw [recieveFrame_cons] at h
    rw [List.cons_append, List.cons_append, recieveFrame_cons]
    split_ifs at h ⊢ with hbyte
    obtain ⟨⟨length, s⟩, hlength, h⟩ := Option.bind_eq_some_iff.mp h
    rw [recieveLength_append hlength, Option.bind_some]
    dsimp only at h ⊢
    split_ifs at h with hle
    rw [Option.some.injEq, Prod.mk.injEq] at h
    rw [if_pos (by simp; omega), List.take_append_of_le_length (by omega),
      List.drop_append_of_le_length hle, List.drop_append_of_le_length (by omega),
      List.take_append_of_le_length (by rw [List.length_drop]; omega), h.1, h.2]

/-- What a client sends are frames that a server reads. -/
def clientFraming : Framing ClientFrame UInt8 where
  Valid := ClientFrame.Valid
  encode := sendFrame
  decode := recieveFrame
  decode_nil := rfl
  decode_encode _ rest hf := recieveFrame_sendFrame hf rest
  decode_append _ _ _ q h := recieveFrame_append h q

end WebSocket

end UtilityFramework
