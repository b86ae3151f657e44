import UtilityFramework.Parsers.HexDecoders

/-!
# Bytes as text

`crypto::base64` and `websocket::percent`, which the WebSocket client uses for the handshake and
for header fields. Strings are lists of bytes. Both decoders read any text: `base64_decode` stops
at the first character that is not of the alphabet, and `percent::decode` takes what follows a
`%` for a number as `std::strtol` reads it. What the encoders write is read back as it was
(`base64Decode_base64Encode`, `percentDecode_percentEncode`).
-/

namespace UtilityFramework

/-- The bytes of an ASCII text. -/
def asciiBytes (s : String) : List UInt8 := s.toList.map fun c => UInt8.ofNat c.toNat

/-- What holds of the numbers below 256 holds of bytes. -/
theorem forall_uint8 {P : UInt8 → Prop} (h : ∀ n < 256, P (UInt8.ofNat n)) (b : UInt8) : P b := by
  have := h b.toNat b.toNat_lt
  rwa [UInt8.ofNat_toNat] at this

/-- What is checked byte by byte. -/
theorem forall_mem_of_all {l : List UInt8} {P : UInt8 → Prop} [DecidablePred P]
    (h : (l.all fun c => decide (P c)) = true) : ∀ c ∈ l, P c := fun c hc =>
  of_decide_eq_true (List.all_eq_true.mp h c hc)

/-! ### Base64 -/

namespace Base64

/-- `base64_chars`. -/
def base64Chars : List UInt8 :=
  asciiBytes ("ABCDEFGHIJKLMNOPQRSTUVWXYZ" ++ "abcdefghijklmnopqrstuvwxyz" ++ "0123456789+/")

/-- `isalnum`. -/
def isAlnum (c : UInt8) : Bool :=
  (48 ≤ c && c ≤ 57) || (65 ≤ c && c ≤ 90) || (97 ≤ c && c ≤ 122)

/-- `is_base64`. -/
def isBase64 (c : UInt8) : Bool := isAlnum c || c == 43 || c == 47

/-- `'='`. -/
def pad : UInt8 := 61

/-- `char_array_4`, computed from `char_array_3`. -/
def sextets (bytes : List UInt8) : List UInt8 :=
  let c (i : ℕ) := bytes.getD i 0
  [(c 0 &&& 0xfc) >>> 2, ((c 0 &&& 0x03) <<< 4) + ((c 1 &&& 0xf0) >>> 4),
    ((c 1 &&& 0x0f) <<< 2) + ((c 2 &&& 0xc0) >>> 6), c 2 &&& 0x3f]

/-- `char_array_3`, computed from `char_array_4`. Entries of the arrays that have not been
filled have no effect on what is used. -/
def octets (sextets : List UInt8) : List UInt8 :=
  let c (i : ℕ) := sextets.getD i 0
  [(c 0 <<< 2) + ((c 1 &&& 0x30) >>> 4), ((c 1 &&& 0xf) <<< 4) + ((c 2 &&& 0x3c) >>> 2),
    ((c 2 &&& 0x3) <<< 6) + c 3]

/-- `base64_chars[i]`. -/
def toChar (i : UInt8) : UInt8 := base64Chars.getD i.toNat 0

/-- `base64_chars.find(c) & 0xff`. -/
def toSextet (c : UInt8) : UInt8 := UInt8.ofNat (base64Chars.idxOf c)

/-- The loop of `base64_encode` and what comes after it, with the first `i` bytes of
`char_array_3`. -/
def encodeLoop : List UInt8 → List UInt8 → List UInt8 → List UInt8
  | [], charArray, ret =>
    if charArray = [] then ret
    else ret ++ ((sextets charArray).take (charArray.length + 1)).map toChar ++
      List.replicate (3 - charArray.length) pad
  | b :: bytes, charArray, ret =>
    if (charArray ++ [b]).length = 3 then
      encodeLoop bytes [] (ret ++ (sextets (charArray ++ [b])).map toChar)
    else encodeLoop bytes (charArray ++ [b]) ret

/-- `base64_encode`. -/
def base64Encode (bytes : List UInt8) : List UInt8 := encodeLoop bytes [] []

/-- What comes after the loop of `base64_decode`. -/
def decodeRest (charArray ret : List UInt8) : List UInt8 :=
  if charArray = [] then ret
  else ret ++ (octets (charArray.map toSextet)).take (charArray.length - 1)

/-- The loop of `base64_decode` and what comes after it, with the first `i` characters of
`char_array_4`. The index into the text is an `int`, so that a text has less than `2 ^ 31`
characters. -/
def decodeLoop : List UInt8 → List UInt8 → List UInt8 → List UInt8
  | [], charArray, ret => decodeRest charArray ret
  | c :: text, charArray, ret =>
    if c ≠ pad ∧ isBase64 c = true then
      if (charArray ++ [c]).length = 4 then
        decodeLoop text [] (ret ++ octets ((charArray ++ [c]).map toSextet))
      else decodeLoop text (charArray ++ [c]) ret
    else decodeRest charArray ret

/-- `base64_decode`. -/
def base64Decode (text : List UInt8) : List UInt8 := decodeLoop text [] []

/-! The bits of bytes -/

/-- A mask and a shift to the right. -/
theorem toNat_and_shiftRight (b : UInt8) {m k : UInt8} {j : ℕ} (hk : k.toNat < 8)
    (hm : m.toNat / 2 ^ k.toNat = 2 ^ j - 1) :
    ((b &&& m) >>> k).toNat = b.toNat / 2 ^ k.toNat % 2 ^ j := by
  rw [UInt8.toNat_shiftRight, UInt8.toNat_and, Nat.mod_eq_of_lt hk, Nat.shiftRight_and_distrib,
    Nat.shiftRight_eq_div_pow, Nat.shiftRight_eq_div_pow, hm, Nat.and_two_pow_sub_one_eq_mod]

/-- A mask and a shift to the left. -/
theorem toNat_and_shiftLeft (b : UInt8) {m k : UInt8} {j : ℕ} (hk : k.toNat < 8)
    (hm : m.toNat = 2 ^ j - 1) :
    ((b &&& m) <<< k).toNat = b.toNat % 2 ^ j * 2 ^ k.toNat % 256 := by
  rw [UInt8.toNat_shiftLeft, UInt8.toNat_and, Nat.mod_eq_of_lt hk, Nat.shiftLeft_eq, hm,
    Nat.and_two_pow_sub_one_eq_mod]

theorem toNat_and_fc_shiftRight (b : UInt8) : ((b &&& 0xfc) >>> 2).toNat = b.toNat / 4 := by
  have hb := b.toNat_lt
  have h : ((b &&& 0xfc) >>> 2).toNat = b.toNat / 4 % 64 :=
    toNat_and_shiftRight b (j := 6) (by decide) rfl
  omega

theorem toNat_and_03_shiftLeft (b : UInt8) : ((b &&& 0x03) <<< 4).toNat = b.toNat % 4 * 16 := by
  have h : ((b &&& 0x03) <<< 4).toNat = b.toNat % 4 * 16 % 256 :=
    toNat_and_shiftLeft b (j := 2) (by decide) rfl
  omega

theorem toNat_and_f0_shiftRight (b : UInt8) : ((b &&& 0xf0) >>> 4).toNat = b.toNat / 16 := by
  have hb := b.toNat_lt
  have h : ((b &&& 0xf0) >>> 4).toNat = b.toNat / 16 % 16 :=
    toNat_and_shiftRight b (j := 4) (by decide) rfl
  omega

theorem toNat_and_0f_shiftLeft (b : UInt8) : ((b &&& 0x0f) <<< 2).toNat = b.toNat % 16 * 4 := by
  have h : ((b &&& 0x0f) <<< 2).toNat = b.toNat % 16 * 4 % 256 :=
    toNat_and_shiftLeft b (j := 4) (by decide) rfl
  omega

theorem toNat_and_c0_shiftRight (b : UInt8) : ((b &&& 0xc0) >>> 6).toNat = b.toNat / 64 := by
  have hb := b.toNat_lt
  have h : ((b &&& 0xc0) >>> 6).toNat = b.toNat / 64 % 4 :=
    toNat_and_shiftRight b (j := 2) (by decide) rfl
  omega

theorem toNat_and_3f (b : UInt8) : (b &&& 0x3f).toNat = b.toNat % 64 :=
  Nat.and_two_pow_sub_one_eq_mod _ 6

theorem toNat_shiftLeft_two (b : UInt8) : (b <<< 2).toNat = b.toNat * 4 % 256 := by
  rw [UInt8.toNat_shiftLeft, Nat.shiftLeft_eq]
  rfl

theorem toNat_and_30_shiftRight (b : UInt8) : ((b &&& 0x30) >>> 4).toNat = b.toNat / 16 % 4 :=
  toNat_and_shiftRight b (j := 2) (by decide) rfl

theorem toNat_and_f_shiftLeft (b : UInt8) : ((b &&& 0xf) <<< 4).toNat = b.toNat % 16 * 16 := by
  have h : ((b &&& 0xf) <<< 4).toNat = b.toNat % 16 * 16 % 256 :=
    toNat_and_shiftLeft b (j := 4) (by decide) rfl
  omega

theorem toNat_and_3c_shiftRight (b : UInt8) : ((b &&& 0x3c) >>> 2).toNat = b.toNat / 4 % 16 :=
  toNat_and_shiftRight b (j := 4) (by decide) rfl

theorem toNat_and_3_shiftLeft (b : UInt8) : ((b &&& 0x3) <<< 6).toNat = b.toNat % 4 * 64 := by
  have h : ((b &&& 0x3) <<< 6).toNat = b.toNat % 4 * 64 % 256 :=
    toNat_and_shiftLeft b (j := 2) (by decide) rfl
  omega

/-- The six bits of a character, four times. -/
theorem toNat_sextets (a b c : UInt8) : (sextets [a, b, c]).map UInt8.toNat =
    [a.toNat / 4, a.toNat % 4 * 16 + b.toNat / 16, b.toNat % 16 * 4 + c.toNat / 64,
      c.toNat % 64] := by
  have ha := a.toNat_lt
  have hb := b.toNat_lt
  have hc := c.toNat_lt
  simp only [sextets, List.getD_cons_zero, List.getD_cons_succ, List.map_cons, List.map_nil,
    UInt8.toNat_add, toNat_and_fc_shiftRight, toNat_and_03_shiftLeft, toNat_and_f0_shiftRight,
    toNat_and_0f_shiftLeft, toNat_and_c0_shiftRight, toNat_and_3f, List.cons.injEq, and_true,
    true_and]
  omega

/-- The groups of six bits are below 64, and are put together as they were. -/
theorem octets_sextets (a b c : UInt8) :
    octets (sextets [a, b, c]) = [a, b, c] ∧ ∀ s ∈ sextets [a, b, c], s.toNat < 64 := by
  have ha := a.toNat_lt
  have hb := b.toNat_lt
  have hc := c.toNat_lt
  have h := toNat_sextets a b c
  obtain ⟨s₀, s₁, s₂, s₃, hs⟩ : ∃ s₀ s₁ s₂ s₃, sextets [a, b, c] = [s₀, s₁, s₂, s₃] :=
    ⟨_, _, _, _, rfl⟩
  rw [hs] at h ⊢
  simp only [List.map_cons, List.map_nil, List.cons.injEq, and_true] at h
  obtain ⟨h₀, h₁, h₂, h₃⟩ := h
  constructor
  · simp only [octets, List.getD_cons_zero, List.getD_cons_succ, List.cons.injEq, and_true,
      ← UInt8.toNat_inj, UInt8.toNat_add, toNat_shiftLeft_two, toNat_and_30_shiftRight,
      toNat_and_f_shiftLeft, toNat_and_3c_shiftRight, toNat_and_3_shiftLeft, h₀, h₁, h₂, h₃]
    omega
  · simp only [List.forall_mem_cons, List.not_mem_nil, false_imp_iff, implies_true, and_true]
    omega

/-- The characters of the alphabet. -/
theorem toChar_spec {s : UInt8} (hs : s.toNat < 64) :
    toChar s ≠ pad ∧ isBase64 (toChar s) = true ∧ toSextet (toChar s) = s := by
  have h : ∀ n < 64, toChar (UInt8.ofNat n) ≠ pad ∧ isBase64 (toChar (UInt8.ofNat n)) = true ∧
      toSextet (toChar (UInt8.ofNat n)) = UInt8.ofNat n := by decide +kernel
  have := h s.toNat hs
  rwa [UInt8.ofNat_toNat] at this

theorem decodeLoop_toChar {s : UInt8} (hs : s.toNat < 64) (text ret : List UInt8)
    {charArray : List UInt8} (hlen : charArray.length < 3) :
    decodeLoop (toChar s :: text) charArray ret =
      decodeLoop text (charArray ++ [toChar s]) ret := by
  obtain ⟨hpad, hbase, -⟩ := toChar_spec hs
  rw [decodeLoop, if_pos ⟨hpad, hbase⟩, if_neg]
  simpa using hlen.ne

theorem decodeLoop_toChar_last {s : UInt8} (hs : s.toNat < 64) (text ret : List UInt8)
    {charArray : List UInt8} (hlen : charArray.length = 3) :
    decodeLoop (toChar s :: text) charArray ret =
      decodeLoop text [] (ret ++ octets ((charArray ++ [toChar s]).map toSextet)) := by
  obtain ⟨hpad, hbase, -⟩ := toChar_spec hs
  rw [decodeLoop, if_pos ⟨hpad, hbase⟩, if_pos]
  simpa using hlen

theorem decodeLoop_pad (text charArray ret : List UInt8) :
    decodeLoop (pad :: text) charArray ret = decodeRest charArray ret := by
  rw [decodeLoop, if_neg fun h => h.1 rfl]

theorem decodeLoop_append (text charArray ret : List UInt8) :
    decodeLoop text charArray ret = ret ++ decodeLoop text charArray [] := by
  have hrest (charArray ret : List UInt8) :
      decodeRest charArray ret = ret ++ decodeRest charArray [] := by
    rw [decodeRest, decodeRest]
    split_ifs
    · rw [List.append_nil]
    · rw [List.nil_append]
  induction text generalizing charArray ret with
  | nil => exact hrest charArray ret
  | cons c text ih =>
    rw [decodeLoop, decodeLoop]
    split_ifs
    · rw [ih, ih [] ([] ++ _), List.append_assoc, List.nil_append]
    · exact ih _ ret
    · exact hrest charArray ret

theorem encodeLoop_append (bytes charArray ret : List UInt8) :
    encodeLoop bytes charArray ret = ret ++ encodeLoop bytes charArray [] := by
  induction bytes generalizing charArray ret with
  | nil =>
    rw [encodeLoop, encodeLoop]
    split_ifs
    · rw [List.append_nil]
    · rw [List.nil_append, List.append_assoc]
  | cons b bytes ih =>
    rw [encodeLoop, encodeLoop]
    split_ifs
    · rw [ih, ih [] ([] ++ _), List.append_assoc, List.nil_append]
    · exact ih _ ret

/-- Three bytes are four characters. -/
theorem base64Encode_cons (a b c : UInt8) (bytes : List UInt8) :
    base64Encode (a :: b :: c :: bytes) =
      (sextets [a, b, c]).map toChar ++ base64Encode bytes := by
  rw [base64Encode, base64Encode, ← List.nil_append ((sextets [a, b, c]).map toChar),
    ← encodeLoop_append]
  rfl

/-- What is written are characters of the alphabet, and padding. -/
theorem mem_base64Encode {c : UInt8} :
    ∀ {bytes : List UInt8}, c ∈ base64Encode bytes →
      c = pad ∨ ∃ s : UInt8, s.toNat < 64 ∧ toChar s = c
  | [], h => nomatch h
  | [a], h => by
    have hlt := (octets_sextets a 0 0).2
    change c ∈ ((sextets [a, 0, 0]).take 2).map toChar ++ List.replicate 2 pad at h
    rcases List.mem_append.mp h with h | h
    · obtain ⟨s, hs, rfl⟩ := List.mem_map.mp h
      exact .inr ⟨s, hlt s (List.mem_of_mem_take hs), rfl⟩
    · exact .inl (List.eq_of_mem_replicate h)
  | [a, b], h => by
    have hlt := (octets_sextets a b 0).2
    change c ∈ ((sextets [a, b, 0]).take 3).map toChar ++ List.replicate 1 pad at h
    rcases List.mem_append.mp h with h | h
    · obtain ⟨s, hs, rfl⟩ := List.mem_map.mp h
      exact .inr ⟨s, hlt s (List.mem_of_mem_take hs), rfl⟩
    · exact .inl (List.eq_of_mem_replicate h)
  | a :: b :: d :: bytes, h => by
    rw [base64Encode_cons] at h
    rcases List.mem_append.mp h with h | h
    · obtain ⟨s, hs, rfl⟩ := List.mem_map.mp h
      exact .inr ⟨s, (octets_sextets a b d).2 s hs, rfl⟩
    · exact mem_base64Encode h

/-- Four characters are three bytes. -/
theorem base64Decode_toChar {s₀ s₁ s₂ s₃ : UInt8}
    (hs : ∀ s ∈ [s₀, s₁, s₂, s₃], s.toNat < 64) (text : List UInt8) :
    base64Decode ([s₀, s₁, s₂, s₃].map toChar ++ text) =
      octets [s₀, s₁, s₂, s₃] ++ base64Decode text := by
  simp only [List.forall_mem_cons, List.not_mem_nil, false_imp_iff, implies_true,
    and_true] at hs
  obtain ⟨h₀, h₁, h₂, h₃⟩ := hs
  have hmap : [toChar s₀, toChar s₁, toChar s₂, toChar s₃].map toSextet = [s₀, s₁, s₂, s₃] := by
    simp only [List.map_cons, List.map_nil, (toChar_spec h₀).2.2, (toChar_spec h₁).2.2,
      (toChar_spec h₂).2.2, (toChar_spec h₃).2.2]
  rw [base64Decode, base64Decode, ← List.nil_append (octets _), ← decodeLoop_append,
    List.map_cons, List.map_cons, List.map_cons, List.map_cons, List.map_nil, List.cons_append,
    decodeLoop_toChar h₀ _ _ (by simp), List.cons_append, decodeLoop_toChar h₁ _ _ (by simp),
    List.cons_append, decodeLoop_toChar h₂ _ _ (by simp), List.cons_append,
    decodeLoop_toChar_last h₃ _ _ rfl]
  exact congrArg (fun l => decodeLoop text [] ([] ++ octets l)) hmap

/-- **What `base64_encode` writes, `base64_decode` reads.** -/
theorem base64Decode_base64Encode :
    ∀ bytes : List UInt8, base64Decode (base64Encode bytes) = bytes
  | [] => rfl
  | [a] => by
    obtain ⟨hoctets, hlt⟩ := octets_sextets a 0 0
    obtain ⟨s₀, s₁, s₂, s₃, hs⟩ : ∃ s₀ s₁ s₂ s₃, sextets [a, 0, 0] = [s₀, s₁, s₂, s₃] :=
      ⟨_, _, _, _, rfl⟩
    have henc : base64Encode [a] = [toChar s₀, toChar s₁, pad, pad] := by
      change ((sextets [a, 0, 0]).take 2).map toChar ++ _ = _
      rw [hs]
      rfl
    rw [hs] at hoctets hlt
    have h₀ := hlt s₀ (by simp)
    have h₁ := hlt s₁ (by simp)
    rw [henc, base64Decode, decodeLoop_toChar h₀ _ _ (by simp),
      decodeLoop_toChar h₁ _ _ (by simp), decodeLoop_pad]
    change (octets ([toChar s₀, toChar s₁].map toSextet)).take 1 = _
    rw [List.map_cons, List.map_cons, (toChar_spec h₀).2.2, (toChar_spec h₁).2.2]
    exact congrArg (List.take 1) hoctets
  | [a, b] => by
    obtain ⟨hoctets, hlt⟩ := octets_sextets a b 0
    obtain ⟨s₀, s₁, s₂, s₃, hs⟩ : ∃ s₀ s₁ s₂ s₃, sextets [a, b, 0] = [s₀, s₁, s₂, s₃] :=
      ⟨_, _, _, _, rfl⟩
    have henc : base64Encode [a, b] = [toChar s₀, toChar s₁, toChar s₂, pad] := by
      change ((sextets [a, b, 0]).take 3).map toChar ++ _ = _
      rw [hs]
      rfl
    rw [hs] at hoctets hlt
    have h₀ := hlt s₀ (by simp)
    have h₁ := hlt s₁ (by simp)
    have h₂ := hlt s₂ (by simp)
    rw [henc, base64Decode, decodeLoop_toChar h₀ _ _ (by simp),
      decodeLoop_toChar h₁ _ _ (by simp), decodeLoop_toChar h₂ _ _ (by simp), decodeLoop_pad]
    change (octets ([toChar s₀, toChar s₁, toChar s₂].map toSextet)).take 2 = _
    rw [List.map_cons, List.map_cons, List.map_cons, (toChar_spec h₀).2.2,
      (toChar_spec h₁).2.2, (toChar_spec h₂).2.2]
    exact congrArg (List.take 2) hoctets
  | a :: b :: c :: bytes => by
    obtain ⟨hoctets, hlt⟩ := octets_sextets a b c
    have ih := base64Decode_base64Encode bytes
    rw [base64Encode_cons]
    have := base64Decode_toChar hlt (base64Encode bytes)
    rw [ih] at this
    exact this.trans (congrArg (· ++ bytes) hoctets)

end Base64

/-! ### Percent-encoding -/

namespace Percent

/-- `hex_chars`. -/
def hexChars : List UInt8 := asciiBytes "0123456789ABCDEF"

/-- The characters that are not encoded. -/
def isPlain (c : UInt8) : Bool := Base64.isAlnum c || c == 45 || c == 46 || c == 95 || c == 126

/-- `'%'`. -/
def percent : UInt8 := 37

/-- `percent::encode`. -/
def percentEncode (value : List UInt8) : List UInt8 :=
  value.flatMap fun c =>
    if isPlain c = true then [c]
    else [percent, hexChars.getD (c >>> 4).toNat 0, hexChars.getD (c &&& 15).toNat 0]

/-- `std::strtol` with base 16. -/
def strtol16 (text : List Char) : ℤ :=
  let n : ℤ := Text.hexNumber (Text.stolDigits text)
  if (text.dropWhile Text.isSpace).head? = some '-' then -n else n

/-- The character that the two characters behind a `%` stand for. -/
def decodedChr (x y : UInt8) : UInt8 :=
  UInt8.ofNat (strtol16 [Char.ofNat x.toNat, Char.ofNat y.toNat] % 256).toNat

/-- `percent::decode`. -/
def percentDecode : List UInt8 → List UInt8
  | c :: x :: y :: value =>
    if c = percent then decodedChr x y :: percentDecode value
    else (if c = 43 then 32 else c) :: percentDecode (x :: y :: value)
  | c :: value => (if c = 43 then 32 else c) :: percentDecode value
  | [] => []

/-- A character that is not encoded is left as it is. -/
theorem percentDecode_cons_of_isPlain {c : UInt8} (hc : isPlain c = true)
    (value : List UInt8) : percentDecode (c :: value) = c :: percentDecode value := by
  have hplus : c ≠ 43 := by
    rintro rfl
    exact absurd hc (by decide)
  have hpercent : c ≠ percent := by
    rintro rfl
    exact absurd hc (by decide)
  rcases value with - | ⟨x, - | ⟨y, value⟩⟩
  · rw [percentDecode, if_neg hplus]
    · intro _ _ _ h
      cases h
  · rw [percentDecode, if_neg hplus]
    · intro _ _ _ h
      cases h
  · rw [percentDecode, if_neg hpercent, if_neg hplus]

theorem decodedChr_hexChars (c : UInt8) :
    decodedChr (hexChars.getD (c >>> 4).toNat 0) (hexChars.getD (c &&& 15).toNat 0) = c :=
  forall_uint8 (P := fun c =>
    decodedChr (hexChars.getD (c >>> 4).toNat 0) (hexChars.getD (c &&& 15).toNat 0) = c)
    (by decide +kernel) c

/-- **What `percent::encode` writes, `percent::decode` reads.** -/
theorem percentDecode_percentEncode (value : List UInt8) :
    percentDecode (percentEncode value) = value := by
  induction value with
  | nil => rfl
  | cons c value ih =>
    rw [percentEncode, List.flatMap_cons, ← percentEncode]
    split_ifs with hc
    · rw [List.singleton_append, percentDecode_cons_of_isPlain hc, ih]
    · change percentDecode (percent :: _ :: _ :: percentEncode value) = _
      rw [percentDecode, if_pos rfl, decodedChr_hexChars, ih]

end Percent

end UtilityFramework
