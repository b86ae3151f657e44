import UtilityFramework.Parsers.BinaryParser
import UtilityFramework.Parsers.Json

/-!
# Decoders of hexadecimal text

Three functions read pairs of hexadecimal digits into a buffer. `hex_string2buf` goes along the
string and `safe_buffer::safe_write_hex` along the buffer; both store each byte at once and throw
at a pair that is not of digits, so that the bytes before it have been stored by then
(`storePairs_eq`). `parse_from_string` goes along the buffer, converts each pair with `std::stol`,
which takes signs and white space, and stores all bytes at the end.

`Text.HexText` is the text they are for. Each decoder accepts and stores what it should, and
leaves the buffer as it is otherwise, for the inputs described by a condition on the text and the
buffer (`HexText.decoders_right_iff`); the text that `buf2hex_string` writes is always read back.
-/

namespace UtilityFramework

open Bytes

namespace Text

/-- The characters of a C string. -/
def cChars (s : String) : List Char := s.toList.takeWhile fun c => c.toNat ≠ 0

/-- A hexadecimal digit. -/
def isHexDigit (c : Char) : Bool := (hexChar2int c).isSome

/-- How a decoder ends, with the buffer then; `undefined` when it reads behind the end of the
string or counts beyond an `int`. -/
inductive HexOutcome
  | returned (result : Bool) (buf : List UInt8)
  | threw (buf : List UInt8)
  | undefined
  deriving DecidableEq

/-! ### The decoders -/

/-- The loop of `hex_string2buf`: the byte at position `i` and those after it. -/
def storePairs : List Char → ℕ → List UInt8 → HexOutcome
  | a :: b :: rest, i, buf =>
    match hexChar2int a, hexChar2int b with
    | some hi, some lo => storePairs rest (i + 1) (buf.set i (UInt8.ofNat (hi * 16 + lo)))
    | _, _ => .threw buf
  | _, _, buf => .returned true buf

/-- `hex_string2buf` into a buffer. -/
def hexString2bufInto (s : String) (buf : List UInt8) : HexOutcome :=
  if (cChars s).length % 2 ≠ 0 then .returned false buf
  else if (cChars s).length / 2 > buf.length then .returned false buf
  else storePairs (cChars s) 0 buf

/-- The loop of `safe_write_hex` for `n` bytes more, the first of them at position `i`. The offset
into the string is an `int`; behind the end of the string are its zero, which is no digit, and
what is no longer part of it. -/
def storeBytes : ℕ → ℕ → List Char → List UInt8 → HexOutcome
  | 0, _, _, buf => .returned true buf
  | n + 1, i, a :: b :: rest, buf =>
    match hexChar2int a, hexChar2int b with
    | some hi, some lo =>
      if 2 ^ 31 ≤ 2 * i + 2 then .undefined
      else storeBytes n (i + 1) rest (buf.set i (UInt8.ofNat (hi * 16 + lo)))
    | _, _ => .threw buf
  | _ + 1, _, _, _ => .undefined

/-- `safe_buffer::safe_write_hex`, whose result is not to have thrown. -/
def safeWriteHex (s : String) (buf : List UInt8) : HexOutcome :=
  if (cChars s).length % 2 ≠ 0 then .threw buf
  else if (cChars s).length / 2 > buf.length then .threw buf
  else storeBytes buf.length 0 (cChars s) buf

/-- `isspace`. -/
def isSpace (c : Char) : Bool := decide (c.toNat = 32 ∨ 9 ≤ c.toNat ∧ c.toNat ≤ 13)

/-- A sign. -/
def isSign (c : Char) : Bool := decide (c.toNat = 43 ∨ c.toNat = 45)

/-- `0x` or `0X` before a digit, which is skipped. -/
def dropHexPrefix : List Char → List Char
  | z :: x :: d :: rest =>
    if z = '0' ∧ (x = 'x' ∨ x = 'X') ∧ isHexDigit d = true then d :: rest
    else z :: x :: d :: rest
  | text => text

/-- The digits `std::stol` reads, behind white space, a sign and `0x`. -/
def stolDigits (text : List Char) : List Char :=
  let unspaced := text.dropWhile isSpace
  let unsigned := if unspaced.head?.any isSign then unspaced.tail else unspaced
  (dropHexPrefix unsigned).takeWhile isHexDigit

/-- The number of hexadecimal digits. -/
def hexNumber (digits : List Char) : ℕ :=
  digits.foldl (fun n c => n * 16 + (hexChar2int c).getD 0) 0

/-- `std::stol` with base 16; `none` if it throws. -/
def stol16 (text : List Char) : Option ℤ :=
  if (stolDigits text).isEmpty then none
  else
    let n : ℤ := hexNumber (stolDigits text)
    let signed := if (text.dropWhile isSpace).head? = some '-' then -n else n
    if -2 ^ 63 ≤ signed ∧ signed < 2 ^ 63 then some signed else none

/-- The loop of `parse_from_string` for `n` bytes more; `none` if it throws, which `substr` and
`std::stol` do at the end of the string. -/
def parsePairs : ℕ → List Char → Option (List UInt8)
  | 0, _ => some []
  | n + 1, text => do
    let v ← stol16 (text.take 2)
    let bytes ← parsePairs n (text.drop 2)
    return UInt8.ofNat (v % 256).toNat :: bytes

/-- `parse_from_string` of a parser at an offset: its result, and the buffer after it. The result
of the write is not used. -/
def parseFromString (s : String) (off : ℕ) (buf : List UInt8) : Bool × List UInt8 :=
  if (cChars s).length % 2 ≠ 0 then (false, buf)
  else if (cChars s).length / 2 > buf.length then (false, buf)
  else
    match parsePairs buf.length (cChars s) with
    | none => (false, buf)
    | some bytes => (true, (safeWrite buf bytes off).getD buf)

/-! ### What they are for -/

/-- A string of an even number of hexadecimal digits, and the bytes it stands for. -/
def HexText (s : String) (bytes : List UInt8) : Prop :=
  (cChars s).length % 2 = 0 ∧ (∀ c ∈ cChars s, isHexDigit c) ∧ hexPairs (cChars s) = some bytes

/-- `parse_from_string` returns true for the strings that stand for as many bytes as the buffer
has, which it then holds, and leaves the buffer as it is otherwise. -/
structure ParsesRight (s : String) (off : ℕ) (buf : List UInt8) : Prop where
  result : (parseFromString s off buf).1 = true ↔
    ∃ bytes, HexText s bytes ∧ bytes.length = buf.length
  stored : ∀ bytes, HexText s bytes → (parseFromString s off buf).1 = true →
    (parseFromString s off buf).2 = bytes
  unchanged : (parseFromString s off buf).1 = false → (parseFromString s off buf).2 = buf

/-- A decoder stores the bytes of the strings that fit into the buffer, and leaves the buffer as
it is for all other strings. -/
structure DecodesRight (decode : String → List UInt8 → HexOutcome) (s : String)
    (buf : List UInt8) : Prop where
  stored : ∀ bytes, HexText s bytes → bytes.length ≤ buf.length →
    decode s buf = .returned true (blit buf 0 bytes)
  unchanged : (∀ bytes, HexText s bytes → buf.length < bytes.length) →
    decode s buf = .returned false buf ∨ decode s buf = .threw buf

/-! ### When they do it -/

/-- The bytes of the pairs before the first one that is not of two digits. -/
def hexPrefix : List Char → List UInt8
  | a :: b :: rest =>
    match hexChar2int a, hexChar2int b with
    | some hi, some lo => UInt8.ofNat (hi * 16 + lo) :: hexPrefix rest
    | _, _ => []
  | _ => []

/-- What `std::stol` takes: a digit with anything behind it, or one behind white space or a
sign. -/
def acceptedPairs : List Char → Bool
  | a :: b :: rest =>
    (isHexDigit a || (isSpace a || isSign a) && isHexDigit b) && acceptedPairs rest
  | _ => true

/-- A string of the length of the buffer whose pairs `std::stol` takes is one of digits, and its
bytes can be written at the beginning of the buffer or are in it already. -/
def ParseExact (s : String) (off : ℕ) (buf : List UInt8) : Prop :=
  (cChars s).length = 2 * buf.length → acceptedPairs (cChars s) = true →
    (∀ c ∈ cChars s, isHexDigit c) ∧ (off = 0 ∨ hexPairs (cChars s) = some buf)

/-- An even string that is not too long is one of digits, or what comes before the first pair
that is not is in the buffer already. -/
def StoreExact (s : String) (buf : List UInt8) : Prop :=
  (cChars s).length % 2 = 0 → (cChars s).length / 2 ≤ buf.length →
    (∀ c ∈ cChars s, isHexDigit c) ∨ hexPrefix (cChars s) <+: buf

/-- An even string that is not too long is, if it is one of digits, as long as the buffer, and
otherwise what comes before the first pair that is not is in the buffer already; the offset
into the string stays below `2 ^ 31`. -/
def WriteExact (s : String) (buf : List UInt8) : Prop :=
  (cChars s).length % 2 = 0 → (cChars s).length / 2 ≤ buf.length →
    ((∀ c ∈ cChars s, isHexDigit c) → (cChars s).length = 2 * buf.length) ∧
      ((¬ ∀ c ∈ cChars s, isHexDigit c) → hexPrefix (cChars s) <+: buf) ∧
        (hexPrefix (cChars s)).length < 2 ^ 30

/-! ### Digits -/

variable {a b c : Char} {chars : List Char} {s : String} {buf bytes : List UInt8} {off : ℕ}

theorem isHexDigit_iff :
    isHexDigit c = true ↔ (48 ≤ c.toNat ∧ c.toNat ≤ 57) ∨ (65 ≤ c.toNat ∧ c.toNat ≤ 70) ∨
      (97 ≤ c.toNat ∧ c.toNat ≤ 102) := by
  rw [isHexDigit, hexChar2int]
  split_ifs <;> simp <;> omega

theorem hexChar2int_lt {n : ℕ} (h : hexChar2int c = some n) : n < 16 := by
  rw [hexChar2int] at h
  split_ifs at h <;> cases h <;> omega

theorem isSpace_eq_false (h : isHexDigit c = true) : isSpace c = false := by
  rw [isHexDigit_iff] at h
  exact decide_eq_false (by omega)

theorem isSign_eq_false (h : isHexDigit c = true) : isSign c = false := by
  rw [isHexDigit_iff] at h
  exact decide_eq_false (by omega)

/-- Pairs of digits are read if and only if all characters are digits. -/
theorem hexPairs_isSome_iff (h : chars.length % 2 = 0) :
    (hexPairs chars).isSome = true ↔ ∀ c ∈ chars, isHexDigit c = true := by
  fun_induction hexPairs chars with
  | case1 a b rest ih =>
    have hrest : rest.length % 2 = 0 := by
      simp only [List.length_cons] at h
      omega
    rw [List.forall_mem_cons, List.forall_mem_cons, ← ih hrest, isHexDigit, isHexDigit]
    cases hexChar2int a <;> cases hexChar2int b <;> cases hexPairs rest <;> simp
  | case2 chars hchars =>
    match chars with
    | [] => simp
    | [a] => cases h
    | a :: b :: rest => exact absurd rfl (hchars a b rest)

/-- The end of a string: less than two characters. -/
theorem hexPairs_of_short (h : ∀ a b rest, chars = a :: b :: rest → False) :
    hexPairs chars = some [] ∧ hexPrefix chars = [] ∧ chars.length / 2 = 0 := by
  match chars with
  | [] => exact ⟨rfl, rfl, rfl⟩
  | [a] => exact ⟨rfl, rfl, by simp⟩
  | a :: b :: rest => exact absurd rfl (h a b rest)

/-- A pair that is not of two digits. -/
theorem hexPairs_of_bad (h : ∀ hi lo, hexChar2int a = some hi → hexChar2int b = some lo → False)
    (rest : List Char) :
    hexPairs (a :: b :: rest) = none ∧ hexPrefix (a :: b :: rest) = [] := by
  rw [hexPairs, hexPrefix]
  cases ha : hexChar2int a with
  | none => exact ⟨rfl, rfl⟩
  | some hi =>
    cases hb : hexChar2int b with
    | none => exact ⟨rfl, rfl⟩
    | some lo => exact absurd hb (h hi lo ha)

/-- A pair of two digits. -/
theorem hexPairs_of_good {hi lo : ℕ} (ha : hexChar2int a = some hi) (hb : hexChar2int b = some lo)
    (rest : List Char) :
    hexPairs (a :: b :: rest) = (hexPairs rest).map (UInt8.ofNat (hi * 16 + lo) :: ·) ∧
      hexPrefix (a :: b :: rest) = UInt8.ofNat (hi * 16 + lo) :: hexPrefix rest := by
  rw [hexPairs, hexPrefix, ha, hb]
  cases hexPairs rest <;> exact ⟨rfl, rfl⟩

/-- If all pairs are of digits, their bytes are two characters each, and those before the first
bad one. -/
theorem hexPrefix_of_hexPairs (h : hexPairs chars = some bytes) :
    hexPrefix chars = bytes ∧ bytes.length = chars.length / 2 := by
  fun_induction hexPrefix chars generalizing bytes with
  | case1 a b rest hi lo hb ha ih =>
    rw [(hexPairs_of_good ha hb rest).1] at h
    obtain ⟨tail, htail, rfl⟩ := Option.map_eq_some_iff.mp h
    obtain ⟨hfront, hlen⟩ := ih htail
    refine ⟨by rw [hfront], ?_⟩
    simp only [List.length_cons, hlen]
    omega
  | case2 a b rest hbad =>
    rw [(hexPairs_of_bad hbad rest).1] at h
    cases h
  | case3 chars hchars =>
    obtain ⟨hpairs, -, hlen⟩ := hexPairs_of_short hchars
    obtain rfl := Option.some.inj (hpairs.symm.trans h)
    exact ⟨rfl, hlen.symm⟩

theorem length_hexPrefix_le (chars : List Char) : (hexPrefix chars).length ≤ chars.length / 2 := by
  fun_induction hexPrefix chars with
  | case1 a b rest hi lo hb ha ih =>
    simp only [List.length_cons]
    omega
  | case2 => exact Nat.zero_le _
  | case3 => exact Nat.zero_le _

/-! ### Storing pairs one by one -/

/-- A byte and those after it. -/
theorem blit_set {i : ℕ} {byte : UInt8} (h : i + (byte :: bytes).length ≤ buf.length) :
    blit (buf.set i byte) (i + 1) bytes = blit buf i (byte :: bytes) := by
  have hlen : i + 1 + bytes.length ≤ (buf.set i byte).length := by
    rw [List.length_set]
    rw [List.length_cons] at h
    omega
  refine List.ext_getElem? fun j => ?_
  rw [getElem?_blit hlen, getElem?_blit h, List.length_cons, List.getElem?_set]
  rcases Nat.lt_trichotomy j i with hlt | rfl | hgt
  · rw [if_neg (by omega), if_neg (by omega), if_neg (by omega)]
  · rw [if_neg (by omega), if_pos rfl, if_pos (by rw [List.length_cons] at h; omega),
      if_pos (by omega), Nat.sub_self, List.getElem?_cons_zero]
  · by_cases hin : j < i + 1 + bytes.length
    · rw [if_pos (by omega), if_pos (by omega)]
      rw [show j - i = j - (i + 1) + 1 by omega, List.getElem?_cons_succ]
    · rw [if_neg (by omega), if_neg (by omega), if_neg (by omega)]

theorem blit_nil (buf : List UInt8) (i : ℕ) : blit buf i [] = buf := by
  rw [blit, List.append_nil, List.length_nil, Nat.add_zero, List.take_append_drop]

/-- Bytes at the beginning change nothing if they are there already. -/
theorem blit_zero_eq_self_iff : blit buf 0 bytes = buf ↔ bytes <+: buf := by
  rw [blit_zero]
  exact List.prefix_iff_eq_append.symm

/-- **The loop of `hex_string2buf`** stores the pairs before the first one that is not of two
digits, and throws there. -/
theorem storePairs_eq (chars : List Char) (i : ℕ) (buf : List UInt8)
    (h : i + (hexPrefix chars).length ≤ buf.length) :
    storePairs chars i buf =
      if (hexPairs chars).isSome then .returned true (blit buf i (hexPrefix chars))
      else .threw (blit buf i (hexPrefix chars)) := by
  fun_induction storePairs chars i buf with
  | case1 a b rest i buf hi lo hb ha ih =>
    obtain ⟨hpairs, hfront⟩ := hexPairs_of_good ha hb rest
    rw [hfront] at h
    have hrest : i + 1 + (hexPrefix rest).length ≤
        (buf.set i (UInt8.ofNat (hi * 16 + lo))).length := by
      rw [List.length_set]
      rw [List.length_cons] at h
      omega
    rw [ih hrest, blit_set h, hpairs, hfront, Option.isSome_map]
  | case2 a b rest i buf hbad =>
    obtain ⟨hpairs, hfront⟩ := hexPairs_of_bad hbad rest
    rw [hpairs, hfront, blit_nil]
    rfl
  | case3 chars i buf hchars =>
    obtain ⟨hpairs, hfront, -⟩ := hexPairs_of_short hchars
    rw [hpairs, hfront, blit_nil]
    rfl

/-- **The loop of `safe_write_hex`** does so as well, as long as the offset into the string is an
`int`, but returns only at the end of the buffer. -/
theorem storeBytes_eq (n i : ℕ) (chars : List Char) (buf : List UInt8) {k : ℕ}
    (hlen : chars.length = 2 * k) (hk : k ≤ n) (hn : i + n ≤ buf.length) :
    storeBytes n i chars buf =
      if hexPrefix chars ≠ [] ∧ 2 ^ 30 ≤ i + (hexPrefix chars).length then .undefined
      else if (hexPairs chars).isSome then
        if k = n then .returned true (blit buf i (hexPrefix chars)) else .undefined
      else .threw (blit buf i (hexPrefix chars)) := by
  fun_induction storeBytes n i chars buf generalizing k with
  | case1 i chars buf =>
    obtain rfl : k = 0 := by omega
    obtain rfl := List.eq_nil_of_length_eq_zero hlen
    have hfront : hexPrefix [] = [] := rfl
    rw [hfront, blit_nil]
    rfl
  | case2 n i a b rest buf hi lo hb ha hover =>
    rw [(hexPairs_of_good ha hb rest).2, if_pos]
    refine ⟨List.cons_ne_nil _ _, ?_⟩
    rw [List.length_cons]
    omega
  | case3 n i a b rest buf hi lo hb ha hover ih =>
    obtain ⟨hpairs, hfront⟩ := hexPairs_of_good ha hb rest
    have hle := length_hexPrefix_le rest
    simp only [List.length_cons] at hlen
    have hrest : i + 1 + n ≤ (buf.set i (UInt8.ofNat (hi * 16 + lo))).length := by
      rw [List.length_set]
      omega
    have hfit : i + (UInt8.ofNat (hi * 16 + lo) :: hexPrefix rest).length ≤ buf.length := by
      rw [List.length_cons]
      omega
    have hcount : (hexPrefix rest ≠ [] ∧ 2 ^ 30 ≤ i + 1 + (hexPrefix rest).length) ↔
        2 ^ 30 ≤ i + ((hexPrefix rest).length + 1) := by
      rw [← List.length_pos_iff]
      omega
    rw [ih (k := k - 1) (by omega) (by omega) hrest, blit_set hfit, hpairs, hfront,
      Option.isSome_map]
    have hk' : k - 1 = n ↔ k = n + 1 := by omega
    simp only [hcount, hk', ne_eq, List.cons_ne_nil, not_false_eq_true, true_and, List.length_cons,
      Nat.succ_eq_add_one]
  | case4 n i a b rest buf hbad =>
    obtain ⟨hpairs, hfront⟩ := hexPairs_of_bad hbad rest
    rw [hpairs, hfront, blit_nil]
    rfl
  | case5 n i chars buf hchars =>
    obtain ⟨hpairs, hfront, hshort⟩ := hexPairs_of_short hchars
    rw [hpairs, hfront]
    have hne : k ≠ n + 1 := by omega
    simp [hne]

/-! ### What `std::stol` takes -/

theorem hexNumber_lt {digits : List Char} (h : digits.length ≤ 2) : hexNumber digits < 256 := by
  have hvalue : ∀ c, (hexChar2int c).getD 0 < 16 := by
    intro c
    cases hc : hexChar2int c with
    | none => decide
    | some n => exact hexChar2int_lt hc
  match digits, h with
  | [], _ => decide
  | [a], _ =>
    have ha := hvalue a
    simp only [hexNumber, List.foldl_cons, List.foldl_nil]
    omega
  | [a, b], _ =>
    have ha := hvalue a
    have hb := hvalue b
    simp only [hexNumber, List.foldl_cons, List.foldl_nil]
    omega

/-- The digits of a pair of characters. -/
theorem stolDigits_pair (a b : Char) :
    stolDigits [a, b] =
      if isHexDigit a then if isHexDigit b then [a, b] else [a]
      else if (isSpace a || isSign a) && isHexDigit b then [b] else [] := by
  have hnumber : ∀ c, isHexDigit c = true → isSpace c = false ∧ isSign c = false :=
    fun c hc => ⟨isSpace_eq_false hc, isSign_eq_false hc⟩
  cases hda : isHexDigit a with
  | true =>
    obtain ⟨hsa, hga⟩ := hnumber a hda
    cases hdb : isHexDigit b <;> simp [stolDigits, dropHexPrefix, hda, hdb, hsa, hga]
  | false =>
    cases hdb : isHexDigit b with
    | true =>
      obtain ⟨hsb, hgb⟩ := hnumber b hdb
      cases hsa : isSpace a <;> cases hga : isSign a <;>
        simp [stolDigits, dropHexPrefix, hda, hdb, hsa, hga, hsb, hgb]
    | false =>
      cases hsa : isSpace a <;> cases hga : isSign a <;> cases hsb : isSpace b <;>
        cases hgb : isSign b <;> simp [stolDigits, dropHexPrefix, hda, hdb, hsa, hga, hsb, hgb]

/-- **What is a number** for `std::stol`, of a pair of characters. -/
theorem stol16_isSome (a b : Char) :
    (stol16 [a, b]).isSome =
      (isHexDigit a || (isSpace a || isSign a) && isHexDigit b) := by
  have hlt : hexNumber (stolDigits [a, b]) < 256 := by
    refine hexNumber_lt ?_
    rw [stolDigits_pair]
    split_ifs <;> simp
  rw [stol16]
  have hrange : ∀ signed : ℤ, signed = hexNumber (stolDigits [a, b]) ∨
      signed = -hexNumber (stolDigits [a, b]) → -2 ^ 63 ≤ signed ∧ signed < 2 ^ 63 := by
    intro signed h
    omega
  dsimp only
  rw [if_pos (hrange _ (by split <;> simp))]
  rw [stolDigits_pair]
  cases isHexDigit a <;> cases isHexDigit b <;> cases isSpace a <;> cases isSign a <;> rfl

/-- A pair of digits is the number they stand for. -/
theorem stol16_of_isHexDigit {hi lo : ℕ} (ha : hexChar2int a = some hi)
    (hb : hexChar2int b = some lo) : stol16 [a, b] = some ((hi * 16 + lo : ℕ) : ℤ) := by
  have hda : isHexDigit a = true := Option.isSome_iff_exists.mpr ⟨hi, ha⟩
  have hdb : isHexDigit b = true := Option.isSome_iff_exists.mpr ⟨lo, hb⟩
  have hdigits : stolDigits [a, b] = [a, b] := by
    rw [stolDigits_pair, if_pos hda, if_pos hdb]
  have hnumber : hexNumber [a, b] = hi * 16 + lo := by simp [hexNumber, ha, hb]
  have hminus : ([a, b].dropWhile isSpace).head? ≠ some '-' := by
    rw [List.dropWhile_cons, isSpace_eq_false hda]
    intro h
    obtain rfl := Option.some.inj h
    cases hda
  have hlt := hexChar2int_lt ha
  have hlt' := hexChar2int_lt hb
  rw [stol16, hdigits, hnumber]
  simp only [List.isEmpty_cons, Bool.false_eq_true, if_false, if_neg hminus]
  rw [if_pos (by omega)]

/-! ### The loop of `parse_from_string` -/

theorem parsePairs_isSome {n : ℕ} (h : chars.length = 2 * n) :
    (parsePairs n chars).isSome = acceptedPairs chars := by
  induction n generalizing chars with
  | zero =>
    obtain rfl := List.eq_nil_of_length_eq_zero h
    rfl
  | succ n ih =>
    match chars with
    | [] => cases h
    | [a] => simp at h; omega
    | a :: b :: rest =>
      have hrest : rest.length = 2 * n := by
        simp only [List.length_cons] at h
        omega
      have htake : (a :: b :: rest).take 2 = [a, b] := rfl
      have hdrop : (a :: b :: rest).drop 2 = rest := rfl
      rw [parsePairs, htake, hdrop, acceptedPairs, ← stol16_isSome, ← ih hrest]
      cases stol16 [a, b] <;> cases parsePairs n rest <;> rfl

/-- The pairs of digits are read as their bytes. -/
theorem parsePairs_of_hexPairs {n : ℕ} (h : chars.length = 2 * n)
    (hpairs : hexPairs chars = some bytes) : parsePairs n chars = some bytes := by
  fun_induction hexPrefix chars generalizing n bytes with
  | case1 a b rest hi lo hb ha ih =>
    rw [(hexPairs_of_good ha hb rest).1] at hpairs
    obtain ⟨tail, htail, rfl⟩ := Option.map_eq_some_iff.mp hpairs
    obtain ⟨n, rfl⟩ : ∃ k, n = k + 1 := ⟨n - 1, by simp only [List.length_cons] at h; omega⟩
    have hrest : rest.length = 2 * n := by
      simp only [List.length_cons] at h
      omega
    have htake : (a :: b :: rest).take 2 = [a, b] := rfl
    have hdrop : (a :: b :: rest).drop 2 = rest := rfl
    have hbyte : ((hi * 16 + lo : ℕ) : ℤ) % 256 = (hi * 16 + lo : ℕ) := by
      have hlt := hexChar2int_lt ha
      have hlt' := hexChar2int_lt hb
      omega
    rw [parsePairs, htake, hdrop, stol16_of_isHexDigit ha hb, ih hrest htail]
    simp only [Option.bind_eq_bind, Option.bind_some, hbyte, Int.toNat_natCast]
    rfl
  | case2 a b rest hbad =>
    rw [(hexPairs_of_bad hbad rest).1] at hpairs
    cases hpairs
  | case3 chars hchars =>
    obtain ⟨hnone, -, hshort⟩ := hexPairs_of_short hchars
    obtain rfl : n = 0 := by omega
    obtain rfl := Option.some.inj (hnone.symm.trans hpairs)
    rfl

/-- A string that is too short is read beyond its end. -/
theorem parsePairs_of_short {n k : ℕ} (h : chars.length = 2 * k) (hk : k < n) :
    parsePairs n chars = none := by
  induction n generalizing chars k with
  | zero => omega
  | succ n ih =>
    match chars with
    | [] => rfl
    | [a] => simp at h; omega
    | a :: b :: rest =>
      have hrest : rest.length = 2 * (k - 1) := by
        simp only [List.length_cons] at h
        omega
      have hdrop : (a :: b :: rest).drop 2 = rest := rfl
      simp only [List.length_cons] at h
      rw [parsePairs, hdrop, ih hrest (by omega)]
      cases stol16 ((a :: b :: rest).take 2) <;> rfl

theorem acceptedPairs_of_digits (h : ∀ c ∈ chars, isHexDigit c = true) :
    acceptedPairs chars = true := by
  fun_induction acceptedPairs chars with
  | case1 a b rest ih =>
    rw [h a List.mem_cons_self, Bool.true_or, Bool.true_and]
    exact ih fun c hc => h c (List.mem_cons_of_mem a (List.mem_cons_of_mem b hc))
  | case2 => rfl

/-- **What `parse_from_string` returns.** -/
theorem parseFromString_fst (s : String) (off : ℕ) (buf : List UInt8) :
    (parseFromString s off buf).1 = true ↔
      (cChars s).length = 2 * buf.length ∧ acceptedPairs (cChars s) = true := by
  rw [parseFromString]
  split_ifs with hodd hlong
  · exact iff_of_false not_false fun h => by omega
  · exact iff_of_false not_false fun h => by omega
  · by_cases hlen : (cChars s).length = 2 * buf.length
    · rw [← parsePairs_isSome hlen]
      cases parsePairs buf.length (cChars s) <;> simp [hlen]
    · rw [parsePairs_of_short (k := (cChars s).length / 2) (by omega) (by omega)]
      exact iff_of_false Bool.false_ne_true fun h => hlen h.1

theorem parseFromString_snd_of_false (h : (parseFromString s off buf).1 = false) :
    (parseFromString s off buf).2 = buf := by
  rw [parseFromString] at h ⊢
  split_ifs at h ⊢
  · rfl
  · rfl
  · cases hpairs : parsePairs buf.length (cChars s) with
    | none => rfl
    | some bytes =>
      rw [hpairs] at h
      cases h

/-- The bytes of a string of digits as long as the buffer are written at the offset, where they
fit only at the beginning. -/
theorem parseFromString_snd (hlen : (cChars s).length = 2 * buf.length)
    (hpairs : hexPairs (cChars s) = some bytes) :
    (parseFromString s off buf).2 = if off = 0 then bytes else buf := by
  have hbytes : bytes.length = buf.length := by
    rw [(hexPrefix_of_hexPairs hpairs).2]
    omega
  rw [parseFromString, if_neg (by omega), if_neg (by omega),
    parsePairs_of_hexPairs hlen hpairs]
  dsimp only
  rw [safeWrite]
  by_cases hoff : off = 0
  · rw [if_pos hoff, hoff, if_pos (by omega), Option.getD_some, blit_zero, hbytes,
      List.drop_length, List.append_nil]
  · rw [if_neg hoff]
    split_ifs with hfit
    · omega
    · rfl

/-! ### When the decoders are right -/

/-- The texts that stand for bytes. -/
theorem exists_hexText (heven : (cChars s).length % 2 = 0)
    (hdigits : ∀ c ∈ cChars s, isHexDigit c = true) :
    ∃ bytes, HexText s bytes ∧ bytes.length = (cChars s).length / 2 ∧
      hexPrefix (cChars s) = bytes := by
  obtain ⟨bytes, hbytes⟩ := Option.isSome_iff_exists.mp ((hexPairs_isSome_iff heven).mpr hdigits)
  obtain ⟨hfront, hlen⟩ := hexPrefix_of_hexPairs hbytes
  exact ⟨bytes, ⟨heven, hdigits, hbytes⟩, hlen, hfront⟩

theorem HexText.length_eq (h : HexText s bytes) : (cChars s).length = 2 * bytes.length := by
  have hlen := (hexPrefix_of_hexPairs h.2.2).2
  have heven := h.1
  omega

theorem HexText.unique {bytes' : List UInt8} (h : HexText s bytes) (h' : HexText s bytes') :
    bytes = bytes' := Option.some.inj (h.2.2.symm.trans h'.2.2)

/-- When `parse_from_string` is right. -/
theorem parsesRight_iff (s : String) (off : ℕ) (buf : List UInt8) :
    ParsesRight s off buf ↔ ParseExact s off buf := by
  constructor
  · intro h hlen haccepted
    have htrue := (parseFromString_fst s off buf).mpr ⟨hlen, haccepted⟩
    obtain ⟨bytes, htext, -⟩ := h.result.mp htrue
    refine ⟨htext.2.1, ?_⟩
    have hstored := h.stored bytes htext htrue
    rw [parseFromString_snd hlen htext.2.2] at hstored
    split_ifs at hstored with hoff
    · exact Or.inl hoff
    · exact Or.inr (hstored ▸ htext.2.2)
  · intro h
    refine ⟨?_, fun bytes htext htrue => ?_, parseFromString_snd_of_false⟩
    · rw [parseFromString_fst]
      constructor
      · rintro ⟨hlen, haccepted⟩
        obtain ⟨bytes, htext, hbytes, -⟩ := exists_hexText (by omega) (h hlen haccepted).1
        exact ⟨bytes, htext, by omega⟩
      · rintro ⟨bytes, htext, hbytes⟩
        exact ⟨by rw [htext.length_eq, hbytes], acceptedPairs_of_digits htext.2.1⟩
    · obtain ⟨hlen, haccepted⟩ := (parseFromString_fst s off buf).mp htrue
      rw [parseFromString_snd hlen htext.2.2]
      split_ifs with hoff
      · rfl
      · exact Option.some.inj (((h hlen haccepted).2.resolve_left hoff).symm.trans htext.2.2)

/-- Pairs that are not all of digits are not read. -/
theorem hexPairs_isSome_eq_false (heven : (cChars s).length % 2 = 0)
    (hbad : ¬ ∀ c ∈ cChars s, isHexDigit c = true) : (hexPairs (cChars s)).isSome = false :=
  Bool.eq_false_iff.mpr fun hsome => hbad ((hexPairs_isSome_iff heven).mp hsome)

/-- What a string has that is not to be decoded although its length would do. -/
theorem not_digits_of_not_hexText (heven : (cChars s).length % 2 = 0)
    (hfits : (cChars s).length / 2 ≤ buf.length)
    (hnone : ∀ bytes, HexText s bytes → buf.length < bytes.length) :
    ¬ ∀ c ∈ cChars s, isHexDigit c = true := by
  intro hdigits
  obtain ⟨bytes, htext, hlen, -⟩ := exists_hexText heven hdigits
  have hlong := hnone bytes htext
  omega

/-- `hex_string2buf` for a string whose length would do. -/
theorem hexString2bufInto_eq (heven : (cChars s).length % 2 = 0)
    (hfits : (cChars s).length / 2 ≤ buf.length) :
    hexString2bufInto s buf =
      if (hexPairs (cChars s)).isSome then .returned true (blit buf 0 (hexPrefix (cChars s)))
      else .threw (blit buf 0 (hexPrefix (cChars s))) := by
  have hle := length_hexPrefix_le (cChars s)
  rw [hexString2bufInto, if_neg (by omega), if_neg (by omega), storePairs_eq _ 0 buf (by omega)]

/-- When `hex_string2buf` is right. -/
theorem decodesRight_hexString2bufInto_iff (s : String) (buf : List UInt8) :
    DecodesRight hexString2bufInto s buf ↔ StoreExact s buf := by
  constructor
  · intro h heven hfits
    by_cases hdigits : ∀ c ∈ cChars s, isHexDigit c = true
    · exact Or.inl hdigits
    · right
      have hkept := h.unchanged fun bytes htext => absurd htext.2.1 hdigits
      rw [hexString2bufInto_eq heven hfits, hexPairs_isSome_eq_false heven hdigits] at hkept
      rcases hkept with hfalse | hthrew
      · cases hfalse
      · exact blit_zero_eq_self_iff.mp (HexOutcome.threw.inj hthrew)
  · intro h
    refine ⟨fun bytes htext hfits => ?_, fun hnone => ?_⟩
    · have hlen := htext.length_eq
      rw [hexString2bufInto_eq htext.1 (by omega), htext.2.2,
        (hexPrefix_of_hexPairs htext.2.2).1]
      rfl
    · by_cases heven : (cChars s).length % 2 = 0
      · by_cases hfits : (cChars s).length / 2 ≤ buf.length
        · right
          have hbad := not_digits_of_not_hexText heven hfits hnone
          rw [hexString2bufInto_eq heven hfits, hexPairs_isSome_eq_false heven hbad,
            blit_zero_eq_self_iff.mpr ((h heven hfits).resolve_left hbad)]
          rfl
        · left
          rw [hexString2bufInto, if_neg (by omega), if_pos (by omega)]
      · left
        rw [hexString2bufInto, if_pos heven]

/-- `safe_write_hex` for a string whose length would do. -/
theorem safeWriteHex_eq (heven : (cChars s).length % 2 = 0)
    (hfits : (cChars s).length / 2 ≤ buf.length) :
    safeWriteHex s buf =
      if 2 ^ 30 ≤ (hexPrefix (cChars s)).length then .undefined
      else if (hexPairs (cChars s)).isSome then
        if (cChars s).length = 2 * buf.length then
          .returned true (blit buf 0 (hexPrefix (cChars s)))
        else .undefined
      else .threw (blit buf 0 (hexPrefix (cChars s))) := by
  have hcount : (hexPrefix (cChars s) ≠ [] ∧ 2 ^ 30 ≤ 0 + (hexPrefix (cChars s)).length) ↔
      2 ^ 30 ≤ (hexPrefix (cChars s)).length := by
    rw [← List.length_pos_iff]
    omega
  have hend : (cChars s).length / 2 = buf.length ↔ (cChars s).length = 2 * buf.length := by omega
  rw [safeWriteHex, if_neg (by omega), if_neg (by omega),
    storeBytes_eq buf.length 0 (cChars s) buf (k := (cChars s).length / 2) (by omega) (by omega)
      (by omega)]
  simp only [hcount, hend]

/-- When `safe_write_hex` is right. -/
theorem decodesRight_safeWriteHex_iff (s : String) (buf : List UInt8) :
    DecodesRight safeWriteHex s buf ↔ WriteExact s buf := by
  constructor
  · intro h heven hfits
    by_cases hdigits : ∀ c ∈ cChars s, isHexDigit c = true
    · obtain ⟨bytes, htext, hlen, -⟩ := exists_hexText heven hdigits
      have hstored := h.stored bytes htext (by omega)
      rw [safeWriteHex_eq heven hfits, htext.2.2, Option.isSome_some, if_pos rfl] at hstored
      split_ifs at hstored with hover hend
      exact ⟨fun _ => hend, fun hnot => absurd hdigits hnot, by omega⟩
    · have hkept := h.unchanged fun bytes htext => absurd htext.2.1 hdigits
      rw [safeWriteHex_eq heven hfits, hexPairs_isSome_eq_false heven hdigits] at hkept
      by_cases hover : 2 ^ 30 ≤ (hexPrefix (cChars s)).length
      · rw [if_pos hover] at hkept
        rcases hkept with hkept | hkept <;> cases hkept
      · rw [if_neg hover, if_neg Bool.false_ne_true] at hkept
        refine ⟨fun hall => absurd hall hdigits, fun _ => ?_, by omega⟩
        rcases hkept with hfalse | hthrew
        · cases hfalse
        · exact blit_zero_eq_self_iff.mp (HexOutcome.threw.inj hthrew)
  · intro h
    refine ⟨fun bytes htext hfits => ?_, fun hnone => ?_⟩
    · have hlen := htext.length_eq
      obtain ⟨hend, -, hcount⟩ := h htext.1 (by omega)
      rw [safeWriteHex_eq htext.1 (by omega), if_neg (by omega), htext.2.2, Option.isSome_some,
        if_pos rfl, if_pos (hend htext.2.1), (hexPrefix_of_hexPairs htext.2.2).1]
    · right
      by_cases heven : (cChars s).length % 2 = 0
      · by_cases hfits : (cChars s).length / 2 ≤ buf.length
        · have hbad := not_digits_of_not_hexText heven hfits hnone
          obtain ⟨-, hfront, hcount⟩ := h heven hfits
          rw [safeWriteHex_eq heven hfits, if_neg (by omega),
            hexPairs_isSome_eq_false heven hbad, blit_zero_eq_self_iff.mpr (hfront hbad)]
          rfl
        · rw [safeWriteHex, if_neg (by omega), if_pos (by omega)]
      · rw [safeWriteHex, if_pos heven]

/-- The text of bytes stands for them. -/
theorem hexText_buf2hexString (bytes : List UInt8) : HexText (buf2hexString bytes) bytes := by
  have hchars : cChars (buf2hexString bytes) =
      bytes.flatMap fun b => [hexDigit (b.toNat / 16), hexDigit (b.toNat % 16)] :=
    takeWhile_buf2hexString bytes
  have hpairs := hexPairs_flatMap bytes
  have heven : (cChars (buf2hexString bytes)).length % 2 = 0 := by
    rw [hchars, List.length_flatMap]
    simp
  rw [← hchars] at hpairs
  exact ⟨heven, (hexPairs_isSome_iff heven).mp (Option.isSome_iff_exists.mpr ⟨bytes, hpairs⟩),
    hpairs⟩

/-- **When the decoders are right**, and that `hex_string2buf` reads what `buf2hex_string` has
written. -/
theorem decoders_right_iff (s : String) (off : ℕ) (buf : List UInt8) :
    (ParsesRight s off buf ↔ ParseExact s off buf) ∧
      (DecodesRight hexString2bufInto s buf ↔ StoreExact s buf) ∧
      (DecodesRight safeWriteHex s buf ↔ WriteExact s buf) ∧
      ∀ bytes, bytes.length ≤ buf.length →
        hexString2bufInto (buf2hexString bytes) buf = .returned true (blit buf 0 bytes) := by
  refine ⟨parsesRight_iff s off buf, decodesRight_hexString2bufInto_iff s buf,
    decodesRight_safeWriteHex_iff s buf, fun bytes hfits => ?_⟩
  have htext := hexText_buf2hexString bytes
  have hright := (decodesRight_hexString2bufInto_iff (buf2hexString bytes) buf).mpr
    fun _ _ => Or.inl htext.2.1
  exact hright.stored bytes htext hfits

/-- A sign is taken for a digit by `parse_from_string`; a bad second pair leaves the first one
in the buffer of `hex_string2buf` and `safe_write_hex`, and a short string is not decoded by the
latter. -/
theorem not_decoders_right :
    ¬ ParsesRight "+5" 0 [0] ∧ ¬ DecodesRight hexString2bufInto "11zz" [0, 0] ∧
      ¬ DecodesRight safeWriteHex "11zz" [0, 0] ∧ ¬ DecodesRight safeWriteHex "11" [0, 0] := by
  rw [parsesRight_iff, decodesRight_hexString2bufInto_iff, decodesRight_safeWriteHex_iff,
    decodesRight_safeWriteHex_iff]
  refine ⟨fun h => ?_, fun h => ?_, fun h => ?_, fun h => ?_⟩
  · exact absurd ((h (by decide) (by decide)).1 '+' (by decide)) (by decide)
  · rcases h (by decide) (by decide) with hdigits | hfront
    · exact absurd (hdigits 'z' (by decide)) (by decide)
    · exact absurd hfront (by decide)
  · exact absurd ((h (by decide) (by decide)).2.1
      fun hdigits => absurd (hdigits 'z' (by decide)) (by decide)) (by decide)
  · exact absurd ((h (by decide) (by decide)).1 (List.all_eq_true.mp (by decide))) (by decide)

end Text

end UtilityFramework
