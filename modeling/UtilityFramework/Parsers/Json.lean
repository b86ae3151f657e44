import Mathlib.Algebra.Order.Ring.Int
import Mathlib.Data.Int.Notation
import Mathlib.Data.List.Basic
import Mathlib.Data.List.TakeWhile

/-!
# JSON values, byte strings and hexadecimal text

The JSON library of the parsers, at the level of values: writing a value as text and
parsing it gives the value back, and objects keep their members in order of insertion
(`fifo_map`). Numbers are integers; floating-point numbers are left out. A string is a byte
string, one character for each byte.

The second half is the text the parser writes for buffers: two hexadecimal digits for each
byte (`buf2hex_string`, `hex_string2buf`).
-/

namespace UtilityFramework

/-- A JSON value. -/
inductive Json
  | null
  | bool (b : Bool)
  | num (n : ℤ)
  | str (s : String)
  | arr (l : List Json)
  | obj (l : List (String × Json))

namespace Json

/-! ### Members -/

/-- The members of an object, in order of insertion. -/
abbrev Fields := List (String × Json)

/-- The value of a member. -/
def Fields.get? (fields : Fields) (key : String) : Option Json :=
  (fields.find? fun f => f.1 = key).map Prod.snd

/-- `json[key] = value` on the members of an object. -/
def Fields.set (fields : Fields) (key : String) (value : Json) : Fields :=
  if key ∈ fields.map Prod.fst then
    fields.map fun f => if f.1 = key then (key, value) else f
  else fields ++ [(key, value)]

/-- The value with the given members: a value to which no member was ever added is null. -/
def ofFields (fields : Fields) : Json :=
  if fields.isEmpty then null else obj fields

/-- `json.find(key)`; only objects have members. -/
def find (json : Json) (key : String) : Option Json :=
  match json with
  | obj fields => Fields.get? fields key
  | _ => none

@[simp] theorem Fields.get?_cons (f : String × Json) (fields : Fields) (key : String) :
    Fields.get? (f :: fields) key = if f.1 = key then some f.2 else Fields.get? fields key := by
  rw [Fields.get?, Fields.get?, List.find?_cons]
  by_cases hf : f.1 = key
  · simp [hf]
  · simp [hf]

theorem Fields.get?_append (fields fields' : Fields) (key : String) :
    Fields.get? (fields ++ fields') key = (fields.get? key).or (fields'.get? key) := by
  induction fields with
  | nil => rfl
  | cons f fields ih =>
    rw [List.cons_append, Fields.get?_cons, Fields.get?_cons, ih]
    split <;> rfl

private theorem get?_replace_self {key : String} (value : Json) {l : Fields}
    (h : key ∈ l.map Prod.fst) :
    Fields.get? (l.map fun f => if f.1 = key then (key, value) else f) key = some value := by
  induction l with
  | nil => simp at h
  | cons f l ih =>
    rw [List.map_cons, Fields.get?_cons]
    by_cases hf : f.1 = key
    · simp [hf]
    · rw [if_neg hf, if_neg hf]
      rw [List.map_cons, List.mem_cons] at h
      exact ih (h.resolve_left (Ne.symm hf))

private theorem get?_replace_of_ne {key key' : String} (hne : key ≠ key') (value : Json)
    (l : Fields) :
    Fields.get? (l.map fun f => if f.1 = key then (key, value) else f) key' = l.get? key' := by
  induction l with
  | nil => rfl
  | cons f l ih =>
    rw [List.map_cons, Fields.get?_cons, Fields.get?_cons, ih]
    by_cases hf : f.1 = key
    · simp [hf, hne]
    · simp [hf]

private theorem get?_append_singleton {key : String} (key' : String) (value : Json) {l : Fields}
    (h : key ∉ l.map Prod.fst) :
    Fields.get? (l ++ [(key, value)]) key' =
      if key = key' then some value else l.get? key' := by
  induction l with
  | nil => simp
  | cons f l ih =>
    rw [List.map_cons, List.mem_cons, not_or] at h
    rw [List.cons_append, Fields.get?_cons, Fields.get?_cons, ih h.2]
    by_cases hk : key = key'
    · subst hk
      simp [Ne.symm h.1]
    · simp [hk]

/-- A member is what it was set to last. -/
theorem Fields.get?_set (fields : Fields) (key key' : String) (value : Json) :
    (fields.set key value).get? key' =
      if key = key' then some value else fields.get? key' := by
  rw [Fields.set]
  split
  · rename_i hmem
    split
    · rename_i hkey
      rw [← hkey]
      exact get?_replace_self value hmem
    · rename_i hkey
      exact get?_replace_of_ne hkey value fields
  · rename_i hmem
    exact get?_append_singleton key' value hmem

theorem Fields.set_ne_nil (fields : Fields) (key : String) (value : Json) :
    fields.set key value ≠ [] := by
  rw [Fields.set]
  split
  · rename_i hmem
    intro hnil
    rw [List.map_eq_nil_iff] at hnil
    simp [hnil] at hmem
  · simp

theorem ofFields_of_ne_nil {fields : Fields} (h : fields ≠ []) : ofFields fields = obj fields := by
  rw [ofFields, if_neg]
  simpa using h

theorem find_ofFields (fields : Fields) (key : String) :
    (ofFields fields).find key = fields.get? key := by
  rw [ofFields]
  split
  · rename_i hnil
    rw [List.isEmpty_iff.mp hnil]
    rfl
  · rfl

/-- The members after a sequence of assignments `json[key] = value`. -/
def Fields.assign (assignments : List (String × Json)) : Fields :=
  assignments.foldl (fun fields a => fields.set a.1 a.2) []

private theorem get?_foldl_set {key : String} {value : Json} {l : List (String × Json)}
    (hl : ∀ a ∈ l, a.1 = key → a.2 = value) (fields : Fields)
    (h : (∃ a ∈ l, a.1 = key) ∨ fields.get? key = some value) :
    Fields.get? (l.foldl (fun fields a => Fields.set fields a.1 a.2) fields) key = some value := by
  induction l generalizing fields with
  | nil => simpa using h
  | cons a l ih =>
    refine ih (fun b hb => hl b (List.mem_cons_of_mem a hb)) _ ?_
    by_cases ha : a.1 = key
    · right
      rw [Fields.get?_set, if_pos ha, hl a List.mem_cons_self ha]
    · rcases h with ⟨b, hb, hkey⟩ | h
      · left
        rcases List.mem_cons.mp hb with rfl | hb
        · exact absurd hkey ha
        · exact ⟨b, hb, hkey⟩
      · right
        rw [Fields.get?_set, if_neg ha, h]

/-- A member that is assigned has the value assigned, if all assignments to it agree. -/
theorem Fields.get?_assign_of_mem {assignments : List (String × Json)} {key : String}
    {value : Json} (hmem : (key, value) ∈ assignments)
    (hall : ∀ a ∈ assignments, a.1 = key → a.2 = value) :
    (Fields.assign assignments).get? key = some value :=
  get?_foldl_set hall [] (Or.inl ⟨_, hmem, rfl⟩)

/-- A member that is never assigned does not exist. -/
theorem Fields.get?_assign_of_not_mem {assignments : List (String × Json)} {key : String}
    (h : ∀ a ∈ assignments, a.1 ≠ key) : (Fields.assign assignments).get? key = none := by
  have hfold : ∀ (l : List (String × Json)) (fields : Fields), (∀ a ∈ l, a.1 ≠ key) →
      Fields.get? (l.foldl (fun fields a => Fields.set fields a.1 a.2) fields) key =
        fields.get? key := by
    intro l
    induction l with
    | nil => exact fun _ _ => rfl
    | cons a l ih =>
      intro fields hl
      rw [List.foldl_cons, ih _ fun b hb => hl b (List.mem_cons_of_mem a hb), Fields.get?_set,
        if_neg (hl a List.mem_cons_self)]
  exact hfold assignments [] h

/-- Assignments make an object, unless there are none. -/
theorem Fields.assign_eq_nil_iff {assignments : List (String × Json)} :
    Fields.assign assignments = [] ↔ assignments = [] := by
  have hfold : ∀ (l : List (String × Json)) (fields : Fields), fields ≠ [] →
      l.foldl (fun fields a => Fields.set fields a.1 a.2) fields ≠ [] := by
    intro l
    induction l with
    | nil => exact fun _ h => h
    | cons a l ih => exact fun fields _ => ih _ (Fields.set_ne_nil fields a.1 a.2)
  rcases assignments with _ | ⟨a, l⟩
  · exact iff_of_true rfl rfl
  · exact iff_of_false (hfold l _ (Fields.set_ne_nil [] a.1 a.2)) (List.cons_ne_nil a l)

/-! ### Conversions -/

/-- `is_number() || is_boolean()`. -/
def isNumberOrBoolean : Json → Bool
  | num _ | bool _ => true
  | _ => false

/-- `is_object()`. -/
def isObject : Json → Bool
  | obj _ => true
  | _ => false

/-- `get<T>()` for an integer type of `w` bytes, as the unsigned number with the same
bytes; `none` if the library throws. -/
def getInteger (w : ℕ) : Json → Option ℕ
  | num n => some (n % 2 ^ (8 * w)).toNat
  | bool b => some b.toNat
  | _ => none

/-- A number is read as the value with the same bytes. -/
theorem getInteger_num {w v : ℕ} {n : ℤ} (h : n % (2 ^ (8 * w) : ℕ) = v) :
    (num n).getInteger w = some v := by
  have hpow : ((2 ^ (8 * w) : ℕ) : ℤ) = 2 ^ (8 * w) := by
    rw [Int.natCast_pow]
    rfl
  rw [getInteger, ← hpow, h, Int.toNat_natCast]

theorem getInteger_natCast {w v : ℕ} (hv : v < 2 ^ (8 * w)) :
    (num v).getInteger w = some v :=
  getInteger_num (by rw [← Int.natCast_emod, Nat.mod_eq_of_lt hv])

/-- `get<bool>()`. -/
def getBool : Json → Option Bool
  | bool b => some b
  | _ => none

/-- `get<std::string>()`. -/
def getString : Json → Option String
  | str s => some s
  | _ => none

end Json

/-! ### Byte strings -/

namespace Text

/-- The string with the given bytes. -/
def ofBytes (bytes : List UInt8) : String := String.ofList (bytes.map fun b => Char.ofNat b.toNat)

/-- The bytes of a string. -/
def toBytes (s : String) : List UInt8 := s.toList.map fun c => UInt8.ofNat c.toNat

/-- The bytes before the first zero byte: what a C string in a buffer holds. -/
def untilNul (bytes : List UInt8) : List UInt8 := bytes.takeWhile fun b => b ≠ 0

theorem toBytes_ofBytes (bytes : List UInt8) : toBytes (ofBytes bytes) = bytes := by
  rw [toBytes, ofBytes, String.toList_ofList, List.map_map]
  conv_rhs => rw [← List.map_id bytes]
  refine List.map_congr_left fun b _ => ?_
  have hlt : b.toNat < 256 := b.toNat_lt
  have hvalid : b.toNat.isValidChar := Or.inl (by omega)
  have hchar : (Char.ofNat b.toNat).toNat = b.toNat := by
    rw [Char.ofNat, dif_pos hvalid]
    rfl
  simp [hchar]

@[simp] theorem untilNul_untilNul (bytes : List UInt8) :
    untilNul (untilNul bytes) = untilNul bytes := by
  simp [untilNul, List.takeWhile_takeWhile]

/-- A C string and its zero are the front of the buffer it is in. -/
theorem take_untilNul {bytes : List UInt8} (h : 0 ∈ bytes) :
    bytes.take ((untilNul bytes).length + 1) = untilNul bytes ++ [0] := by
  induction bytes with
  | nil => simp at h
  | cons b bytes ih =>
    by_cases hb : b = 0
    · simp [untilNul, hb]
    · have hrest : 0 ∈ bytes := by simpa [Ne.symm hb] using h
      have hcons : untilNul (b :: bytes) = b :: untilNul bytes := by simp [untilNul, hb]
      rw [hcons, List.length_cons, List.take_succ_cons, ih hrest, List.cons_append]

theorem length_untilNul_lt {bytes : List UInt8} (h : 0 ∈ bytes) :
    (untilNul bytes).length < bytes.length := by
  have hlen := congrArg List.length (take_untilNul h)
  simp only [List.length_take, List.length_append, List.length_singleton] at hlen
  omega

/-- What follows the zero does not matter. -/
theorem untilNul_append {bytes rest : List UInt8} (h : 0 ∈ bytes) :
    untilNul (bytes ++ rest) = untilNul bytes := by
  induction bytes with
  | nil => simp at h
  | cons b bytes ih =>
    by_cases hb : b = 0
    · simp [untilNul, hb]
    · have hrest : 0 ∈ bytes := by simpa [Ne.symm hb] using h
      have hcons : ∀ l, untilNul (b :: l) = b :: untilNul l := by simp [untilNul, hb]
      rw [List.cons_append, hcons, hcons, ih hrest]

theorem untilNul_take {bytes : List UInt8} {k : ℕ} (h : 0 ∈ bytes.take k) :
    untilNul (bytes.take k) = untilNul bytes := by
  conv_rhs => rw [← List.take_append_drop k bytes]
  rw [untilNul_append h]

/-- The character of a hexadecimal digit, as `%02hhX` prints it. -/
def hexDigit (n : ℕ) : Char :=
  if n < 10 then Char.ofNat (48 + n) else Char.ofNat (55 + n)

/-- `hex_char2int`; `none` if it throws. -/
def hexChar2int (c : Char) : Option ℕ :=
  if 48 ≤ c.toNat ∧ c.toNat ≤ 57 then some (c.toNat - 48)
  else if 65 ≤ c.toNat ∧ c.toNat ≤ 70 then some (c.toNat - 55)
  else if 97 ≤ c.toNat ∧ c.toNat ≤ 102 then some (c.toNat - 87)
  else none

/-- `buf2hex_string`, into a string that is large enough. -/
def buf2hexString (bytes : List UInt8) : String :=
  String.ofList (bytes.flatMap fun b => [hexDigit (b.toNat / 16), hexDigit (b.toNat % 16)])

/-- The loop of `hex_string2buf`. -/
def hexPairs : List Char → Option (List UInt8)
  | a :: b :: rest => do
    let hi ← hexChar2int a
    let lo ← hexChar2int b
    let bytes ← hexPairs rest
    return UInt8.ofNat (hi * 16 + lo) :: bytes
  | _ => some []

/-- `hex_string2buf`: the bytes it writes, the inner `none` if it fails and the outer one
if it throws. -/
def hexString2buf (s : String) (maxSize : ℕ) : Option (Option (List UInt8)) :=
  let chars := s.toList.takeWhile fun c => c.toNat ≠ 0
  if chars.length % 2 ≠ 0 then some none
  else if chars.length / 2 > maxSize then some none
  else (hexPairs chars).map some

theorem hexChar2int_hexDigit {n : ℕ} (h : n < 16) : hexChar2int (hexDigit n) = some n := by
  have hall : ∀ i : Fin 16, hexChar2int (hexDigit i.val) = some i.val := by decide
  exact hall ⟨n, h⟩

theorem hexDigit_ne_nul {n : ℕ} (h : n < 16) : (hexDigit n).toNat ≠ 0 := by
  have hall : ∀ i : Fin 16, (hexDigit i.val).toNat ≠ 0 := by decide
  exact hall ⟨n, h⟩

theorem hexPairs_flatMap (bytes : List UInt8) :
    hexPairs (bytes.flatMap fun b => [hexDigit (b.toNat / 16), hexDigit (b.toNat % 16)]) =
      some bytes := by
  induction bytes with
  | nil => rfl
  | cons b bytes ih =>
    have hlt : b.toNat < 256 := b.toNat_lt
    have hhi : b.toNat / 16 < 16 := by omega
    have hlo : b.toNat % 16 < 16 := by omega
    have hbyte : UInt8.ofNat (b.toNat / 16 * 16 + b.toNat % 16) = b := by
      rw [Nat.div_add_mod']
      exact UInt8.ofNat_toNat
    rw [List.flatMap_cons, List.cons_append, List.cons_append, List.nil_append, hexPairs,
      hexChar2int_hexDigit hhi, hexChar2int_hexDigit hlo, ih]
    simp only [Option.bind_eq_bind, Option.bind_some, hbyte]
    rfl

/-- The text of bytes has no zero character in it. -/
theorem takeWhile_buf2hexString (bytes : List UInt8) :
    (buf2hexString bytes).toList.takeWhile (fun c => c.toNat ≠ 0) =
      bytes.flatMap fun b => [hexDigit (b.toNat / 16), hexDigit (b.toNat % 16)] := by
  rw [buf2hexString, String.toList_ofList, List.takeWhile_eq_self_iff]
  intro c hc
  obtain ⟨b, -, hcb⟩ := List.mem_flatMap.mp hc
  have hlt : b.toNat < 256 := b.toNat_lt
  rcases List.mem_pair.mp hcb with rfl | rfl
  · exact decide_eq_true (hexDigit_ne_nul (by omega))
  · exact decide_eq_true (hexDigit_ne_nul (by omega))

/-- **Hexadecimal round trip.** -/
theorem hexString2buf_buf2hexString {bytes : List UInt8} {maxSize : ℕ}
    (h : bytes.length ≤ maxSize) :
    hexString2buf (buf2hexString bytes) maxSize = some (some bytes) := by
  have hlen : (bytes.flatMap fun b =>
      [hexDigit (b.toNat / 16), hexDigit (b.toNat % 16)]).length = 2 * bytes.length := by
    clear h
    induction bytes with
    | nil => rfl
    | cons b bytes ih => simp [ih]; omega
  rw [hexString2buf]
  simp only [takeWhile_buf2hexString, hlen, hexPairs_flatMap, Option.map_some]
  rw [if_neg (by omega), if_neg (by omega)]

end Text

end UtilityFramework
