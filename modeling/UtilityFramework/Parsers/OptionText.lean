import Mathlib.Data.Nat.Log
import UtilityFramework.Lib.Decimal
import UtilityFramework.Parsers.Options

/-!
# Bounds and defaults as text

`simple_options::to_string` and `from_string`: the text of a raw value of eight bytes, read as
a value of the type of its field, and the way back, which overwrites the low bytes of a raw
value and leaves the others. An `ENUM` is written as a 32-bit number and read as a 64-bit one.

`TypeEnum.KeptAsText` are the values that survive this; integers always do. Numbers with a
fraction are written with six decimals.
-/

namespace UtilityFramework

open Decimal

/-! ### Numbers with a fraction -/

/-- An IEEE format, given by the bits of its fraction and of its exponent. -/
structure FloatFormat where
  fraction : ℕ
  exponent : ℕ

namespace FloatFormat

/-- `float`. -/
def single : FloatFormat := ⟨23, 8⟩

/-- `double`. -/
def double : FloatFormat := ⟨52, 11⟩

/-- The exponent of infinities and NaNs. -/
def maxExponent (f : FloatFormat) : ℕ := 2 ^ f.exponent - 1

/-- The number with significand `s` and exponent `e` is `s * 2 ^ e / 2 ^ scale`. -/
def scale (f : FloatFormat) : ℕ := 2 ^ (f.exponent - 1) - 1 + f.fraction

/-- The nearest integer to `a / b`, the even one if there are two. -/
def roundDiv (a b : ℕ) : ℕ :=
  if 2 * (a % b) < b ∨ 2 * (a % b) = b ∧ a / b % 2 = 0 then a / b else a / b + 1

/-- `std::to_string` of a number given by its bits: six decimals, rounded. -/
def toText (f : FloatFormat) (bits : ℕ) : String :=
  let fraction := bits % 2 ^ f.fraction
  let exponent := bits / 2 ^ f.fraction % 2 ^ f.exponent
  let sign := if bits / 2 ^ (f.fraction + f.exponent) % 2 = 1 then "-" else ""
  if exponent = f.maxExponent then sign ++ if fraction = 0 then "inf" else "nan"
  else
    let significand := if exponent = 0 then fraction else 2 ^ f.fraction + fraction
    let millionths := roundDiv (significand * 2 ^ max exponent 1 * 10 ^ 6) (2 ^ f.scale)
    let decimals := (Nat.toDigits 10 (10 ^ 6 + millionths % 10 ^ 6)).tail
    sign ++ toString (millionths / 10 ^ 6) ++ "." ++ String.ofList decimals

/-- The bits of the number nearest to `a / b`; `none` if it is out of range. -/
def nearest (f : FloatFormat) (a b : ℕ) : Option ℕ :=
  let exponent := max 1 (Nat.log2 (a * 2 ^ f.scale / b) - f.fraction)
  let significand := roundDiv (a * 2 ^ f.scale) (b * 2 ^ exponent)
  let bits := (exponent - 1) * 2 ^ f.fraction + significand
  if f.maxExponent * 2 ^ f.fraction ≤ bits then none
  -- A number below the normal ones is out of range unless it is exact.
  else if significand < 2 ^ f.fraction ∧ significand * (b * 2 ^ exponent) ≠ a * 2 ^ f.scale then
    none
  else some bits

/-- `std::stof` and `std::stod`, of texts without an exponent; `none` if they throw. -/
def ofText (f : FloatFormat) (text : String) : Option ℕ :=
  let (negative, chars) := signed text
  let sign := if negative then 2 ^ (f.fraction + f.exponent) else 0
  let word := (chars.take 3).map Char.toLower
  if word = "inf".toList then some (sign + f.maxExponent * 2 ^ f.fraction)
  else if word = "nan".toList then
    some (sign + f.maxExponent * 2 ^ f.fraction + 2 ^ (f.fraction - 1))
  else
    let whole := chars.takeWhile Char.isDigit
    let decimals :=
      match chars.dropWhile Char.isDigit with
      | '.' :: rest => rest.takeWhile Char.isDigit
      | _ => []
    if whole = [] ∧ decimals = [] then none
    else
      (f.nearest (Nat.ofDigitChars 10 (whole ++ decimals) 0) (10 ^ decimals.length)).map
        fun bits => sign + bits

end FloatFormat

namespace TypeEnum

/-- `simple_options::to_string` of a raw value; `none` if it throws, or if a byte that is
neither zero nor one is read as a `bool`, which is undefined. -/
def toText (type : TypeEnum) (v : ℕ) : Option String :=
  match type with
  | .bool => if v % 256 ≤ 1 then some (toString (v % 256)) else none
  | .enum => some (toString (toSigned 4 v))
  | .float => some (FloatFormat.single.toText (v % 2 ^ 32))
  | .double => some (FloatFormat.double.toText (v % 2 ^ 64))
  | type => type.integerFormat.map fun (w, signed) => toString (toInteger w signed v)

/-- The value `simple_options::from_string` reads, before it is stored; `none` if it
throws. -/
def ofText (type : TypeEnum) (text : String) : Option ℕ :=
  match type with
  | .int8 | .char | .int16 | .short => (stoi text).map fun n => (n % 2 ^ 64).toNat
  | .uint8 | .byte | .uint16 | .ushort | .uint32 | .uint64 => stoull text
  | .bool => (stoull text).map fun n => if n = 0 then 0 else 1
  | .int32 | .int64 => (stoll text).map fun n => (n % 2 ^ 64).toNat
  -- The case of `ENUM` falls through to that of `UINT64`.
  | .enum => (stoll text).bind fun _ => stoull text
  | .float => FloatFormat.single.ofText text
  | .double => FloatFormat.double.ofText text
  | _ => none

/-- The number of bytes `from_string` stores. -/
def storedBytes (type : TypeEnum) : ℕ := if type = .enum then 8 else type.sizeofType

/-- The number of bytes of a raw value that count for a field. -/
def valueBytes (type : TypeEnum) (size : ℕ) : ℕ :=
  if type = .enum then min size 8 else if type.isSimpleType then type.sizeofType else 8

/-- The values that survive being written as text, for a field of the given type and size:
an `ENUM` fits in four bytes as far as the field is wide, and a number with a fraction is the
one that its text denotes. -/
def KeptAsText (type : TypeEnum) (size v : ℕ) : Prop :=
  match type with
  | .bool => v % 256 ≤ 1
  | .enum => toSigned 4 v % 2 ^ (8 * min size 8) = (v : ℤ) % 2 ^ (8 * min size 8)
  | .float => (FloatFormat.single.ofText (FloatFormat.single.toText (v % 2 ^ 32))).map
      (· % 2 ^ 32) = some (v % 2 ^ 32)
  | .double => (FloatFormat.double.ofText (FloatFormat.double.toText (v % 2 ^ 64))).map
      (· % 2 ^ 64) = some (v % 2 ^ 64)
  | _ => True

/-- The types whose bounds are written. -/
def HasOptions (type : TypeEnum) : Prop := type.isSimpleType = true ∨ type = .enum

instance (type : TypeEnum) : Decidable type.HasOptions :=
  inferInstanceAs (Decidable (_ ∨ _))

end TypeEnum

/-! ### Integers -/

theorem toSigned_bounds_int {w : ℕ} (hw : w = 1 ∨ w = 2 ∨ w = 4) (v : ℕ) :
    -2 ^ 31 ≤ toSigned w v ∧ toSigned w v < 2 ^ 31 := by
  rw [toSigned]
  rcases hw with rfl | rfl | rfl <;> norm_num <;> split <;> omega

/-- The low bytes of an integer that is stored in eight bytes. -/
theorem toNat_emod_mod {w : ℕ} (hw : w ≤ 8) (n : ℤ) :
    (n % 2 ^ 64).toNat % 2 ^ (8 * w) = (n % (2 ^ (8 * w) : ℕ)).toNat := by
  have hdvd : ((2 ^ (8 * w) : ℕ) : ℤ) ∣ 2 ^ 64 := by
    have hpow : 2 ^ (8 * w) ∣ 2 ^ 64 := Nat.pow_dvd_pow 2 (by omega)
    exact_mod_cast hpow
  have hnonneg : 0 ≤ n % 2 ^ 64 := Int.emod_nonneg n (by norm_num)
  have hcast : (((n % 2 ^ 64).toNat % 2 ^ (8 * w) : ℕ) : ℤ) = n % (2 ^ (8 * w) : ℕ) := by
    rw [Int.natCast_emod, Int.toNat_of_nonneg hnonneg, Int.emod_emod_of_dvd n hdvd]
  rw [← hcast, Int.toNat_natCast]

namespace TypeEnum

/-- **Integers survive as text.** -/
theorem ofText_toString {type : TypeEnum} {w : ℕ} {signed : Bool}
    (h : type.integerFormat = some (w, signed)) (v : ℕ) :
    ∃ v', type.ofText (toString (toInteger w signed v)) = some v' ∧
      v' % 2 ^ (8 * w) = v % 2 ^ (8 * w) := by
  have hw : w = 1 ∨ w = 2 ∨ w = 4 ∨ w = 8 := by
    cases type <;> simp [integerFormat] at h <;> simp [← h.1]
  have hlow : (toInteger w signed v % 2 ^ 64).toNat % 2 ^ (8 * w) = v % 2 ^ (8 * w) := by
    rw [toNat_emod_mod (by omega), toInteger_emod, Int.toNat_natCast]
  refine ⟨_, ?_, hlow⟩
  -- The unsigned types are read by `stoull`, the short signed ones by `stoi`.
  have hunsigned : signed = false →
      stoull (toString (toInteger w signed v)) = some (toInteger w signed v % 2 ^ 64).toNat := by
    rintro rfl
    have hlt : v % 2 ^ (8 * w) < 2 ^ 64 :=
      (Nat.mod_lt _ (Nat.two_pow_pos _)).trans_le (Nat.pow_le_pow_right (by decide) (by omega))
    have hvalue : toInteger w false v = (v % 2 ^ (8 * w) : ℕ) := rfl
    refine stoull_toString ?_ ?_
    · rw [hvalue]
      omega
    · rw [hvalue]
      exact_mod_cast hlt
  have hsigned : signed = true → stoll (toString (toInteger w signed v)) =
      some (toInteger w signed v) := by
    rintro rfl
    obtain ⟨hlo, hhi⟩ := toSigned_bounds hw v
    exact stoll_toString hlo hhi
  have hshort : signed = true → w ≤ 2 → stoi (toString (toInteger w signed v)) =
      some (toInteger w signed v) := by
    rintro rfl hle
    obtain ⟨hlo, hhi⟩ := toSigned_bounds_int (w := w) (by omega) v
    exact stoi_toString hlo hhi
  cases type <;> simp [integerFormat] at h <;> obtain ⟨rfl, rfl⟩ := h <;>
    simp only [ofText] <;>
    first
    | exact hunsigned rfl
    | (rw [hshort rfl (by decide)]; rfl)
    | (rw [hsigned rfl]; rfl)

theorem ofText_bool {v : ℕ} (hv : v % 256 ≤ 1) :
    bool.ofText (toString (v % 256)) = some (v % 256) := by
  have hstoull : stoull (toString (v % 256)) = some (v % 256) := by
    have h := stoull_toString (n := (v % 256 : ℕ)) (by omega) (by omega)
    rw [Int.emod_eq_of_lt (by omega) (by omega), Int.toNat_natCast] at h
    exact h
  rw [ofText, hstoull, Option.map_some]
  split <;> congr 1 <;> omega

theorem ofText_enum (v : ℕ) :
    enum.ofText (toString (toSigned 4 v)) = some (toSigned 4 v % 2 ^ 64).toNat := by
  obtain ⟨hlo, hhi⟩ := toSigned_bounds (w := 4) (by decide) v
  rw [ofText, stoll_toString hlo hhi, Option.bind_some,
    stoull_toString (by omega) (by omega)]

/-- The types with options: four special ones and the integers. -/
theorem HasOptions.cases {type : TypeEnum} (h : type.HasOptions) :
    type = bool ∨ type = enum ∨ type = float ∨ type = double ∨
      ∃ w signed, type.integerFormat = some (w, signed) ∧
        ∀ size v, type.toText v = some (toString (toInteger w signed v)) ∧
          type.valueBytes size = w ∧ type.KeptAsText size v := by
  rcases h with h | rfl
  · cases type <;> first | (cases h; done) | (simp; done) | skip
    all_goals
      refine .inr (.inr (.inr (.inr ⟨_, _, rfl, fun size v => ⟨rfl, rfl, trivial⟩⟩)))
  · exact .inr (.inl rfl)

/-- A value that survives is written and read back. -/
theorem KeptAsText.readable {type : TypeEnum} (hopt : type.HasOptions) {size v : ℕ}
    (h : type.KeptAsText size v) :
    ∃ text v', type.toText v = some text ∧ type.ofText text = some v' := by
  rcases hopt.cases with rfl | rfl | rfl | rfl | ⟨w, signed, hformat, hint⟩
  · exact ⟨_, _, if_pos h, ofText_bool h⟩
  · exact ⟨_, _, rfl, ofText_enum v⟩
  · obtain ⟨v', hv', -⟩ := Option.map_eq_some_iff.mp h
    exact ⟨_, v', rfl, hv'⟩
  · obtain ⟨v', hv', -⟩ := Option.map_eq_some_iff.mp h
    exact ⟨_, v', rfl, hv'⟩
  · obtain ⟨v', hv', -⟩ := ofText_toString hformat v
    exact ⟨_, v', (hint size v).1, hv'⟩

/-- **What survives as text.** A value that is written and read back is the same precisely if
it is one of those. -/
theorem readBack_iff {type : TypeEnum} (hopt : type.HasOptions) (size : ℕ) {v v' : ℕ}
    {text : String}
    (hwrite : type.toText v = some text) (hread : type.ofText text = some v') :
    v' % 2 ^ (8 * type.valueBytes size) = v % 2 ^ (8 * type.valueBytes size) ↔
      type.KeptAsText size v := by
  rcases hopt.cases with rfl | rfl | rfl | rfl | ⟨w, signed, hformat, hint⟩
  · rw [toText] at hwrite
    split at hwrite
    · rename_i hv
      rw [← Option.some.inj hwrite, ofText_bool hv] at hread
      rw [← Option.some.inj hread]
      exact iff_of_true (Nat.mod_mod v 256) hv
    · cases hwrite
  · rw [← Option.some.inj hwrite, ofText_enum] at hread
    have hbytes : enum.valueBytes size = min size 8 := rfl
    rw [← Option.some.inj hread, hbytes, toNat_emod_mod (by omega), KeptAsText]
    have hpos : (0 : ℤ) < (2 ^ (8 * min size 8) : ℕ) := by exact_mod_cast Nat.two_pow_pos _
    have hnonneg : 0 ≤ toSigned 4 v % (2 ^ (8 * min size 8) : ℕ) :=
      Int.emod_nonneg _ hpos.ne'
    push_cast at hnonneg ⊢
    rw [← Int.toNat_of_nonneg hnonneg]
    norm_cast
  · rw [← Option.some.inj hwrite, ofText] at hread
    rw [KeptAsText, hread, Option.map_some, Option.some.injEq]
    exact Iff.rfl
  · rw [← Option.some.inj hwrite, ofText] at hread
    rw [KeptAsText, hread, Option.map_some, Option.some.injEq]
    exact Iff.rfl
  · obtain ⟨htext, hbytes, hkept⟩ := hint size v
    obtain ⟨v'', hv'', hlow⟩ := ofText_toString hformat v
    rw [← Option.some.inj (htext.symm.trans hwrite), hv''] at hread
    rw [← Option.some.inj hread, hbytes]
    exact iff_of_true hlow hkept

end TypeEnum

/-! ### Options -/

/-- `from_val`: the low `n` bytes of a raw value are replaced. -/
def storeLow (n : ℕ) (old : UInt64) (v : ℕ) : UInt64 :=
  UInt64.ofNat (old.toNat / 2 ^ (8 * n) * 2 ^ (8 * n) + v % 2 ^ (8 * n))

theorem toNat_storeLow_mod {k n : ℕ} (hk : k ≤ n) (hn : n ≤ 8) (old : UInt64) (v : ℕ) :
    (storeLow n old v).toNat % 2 ^ (8 * k) = v % 2 ^ (8 * k) := by
  have hdvd : 2 ^ (8 * k) ∣ 2 ^ 64 := Nat.pow_dvd_pow 2 (by omega)
  have hdvd' : 2 ^ (8 * k) ∣ 2 ^ (8 * n) := Nat.pow_dvd_pow 2 (by omega)
  rw [storeLow, UInt64.toNat_ofNat', Nat.mod_mod_of_dvd _ hdvd, Nat.add_mod,
    Nat.mod_eq_zero_of_dvd (hdvd'.mul_left _), Nat.zero_add, Nat.mod_mod,
    Nat.mod_mod_of_dvd _ hdvd']

/-- A bound or a default: whether there is one, and its raw value. -/
abbrev Bound := Bool × UInt64

namespace Bound

variable (type : TypeEnum)

/-- What a bound says about a field for which the given number of bytes count. -/
def value (n : ℕ) (bound : Bound) : Option ℕ :=
  if bound.1 then some (bound.2.toNat % 2 ^ (8 * n)) else none

/-- The text of a bound, if there is one. -/
def text (bound : Bound) : Option (Option String) :=
  if bound.1 then (type.toText bound.2.toNat).map some else some none

/-- `minval`, `maxval` and `defval` of a text; without one the bound stays as it is. -/
def read (bound : Bound) : Option String → Option Bound
  | none => some bound
  | some text => (type.ofText text).map fun v => (true, storeLow type.storedBytes bound.2 v)

/-- The bound after a field has been read: that of the field as its text gives it, or the one
from before. -/
def after (carried bound : Bound) : Bound :=
  if bound.1 then
    (true, storeLow type.storedBytes carried.2
      (((type.toText bound.2.toNat).bind type.ofText).getD 0))
  else carried

/-- A bound that is read back as it is: no bound is left over from before in its place, and
its value survives as text. -/
def Kept (size : ℕ) (carried bound : Bound) : Prop :=
  (carried.1 = true → bound.1 = true) ∧
    (bound.1 = true → type.KeptAsText size bound.2.toNat)

variable {type}

theorem Kept.read {size : ℕ} {carried bound : Bound} (hopt : type.HasOptions)
    (h : Kept type size carried bound) : ∃ text, bound.text type = some text ∧
      carried.read type text = some (after type carried bound) := by
  obtain ⟨has, v⟩ := bound
  cases has with
  | false => exact ⟨none, rfl, rfl⟩
  | true =>
    obtain ⟨text, v', htext, hv'⟩ := TypeEnum.KeptAsText.readable hopt (h.2 rfl)
    refine ⟨some text, ?_, ?_⟩
    · rw [Bound.text, htext]
      rfl
    · rw [Bound.read, hv', after, htext, Option.bind_some, hv']
      rfl

theorem valueBytes_le_storedBytes (hopt : type.HasOptions) (size : ℕ) :
    type.valueBytes size ≤ type.storedBytes := by
  rcases hopt with hopt | rfl
  · cases type <;> first | (cases hopt; done) | exact Nat.le_refl _
  · exact Nat.min_le_right size 8

theorem storedBytes_le (type : TypeEnum) : type.storedBytes ≤ 8 := by
  cases type <;> decide

/-- **A bound that is written and read back.** -/
theorem value_eq_iff (size : ℕ) {carried bound result : Bound} {text : Option String}
    (hopt : type.HasOptions) (hwrite : bound.text type = some text)
    (hread : carried.read type text = some result) :
    result.value (type.valueBytes size) = bound.value (type.valueBytes size) ↔
      Kept type size carried bound := by
  obtain ⟨has, v⟩ := bound
  cases has with
  | false =>
    obtain rfl := Option.some.inj hwrite
    obtain rfl := Option.some.inj hread
    obtain ⟨has', v'⟩ := carried
    cases has' <;> simp [value, Kept]
  | true =>
    obtain ⟨text', htext, rfl⟩ := Option.map_eq_some_iff.mp hwrite
    obtain ⟨v', hv', rfl⟩ := Option.map_eq_some_iff.mp hread
    have hlow := toNat_storeLow_mod (valueBytes_le_storedBytes hopt size) (storedBytes_le type)
      carried.2 v'
    have hback := TypeEnum.readBack_iff hopt size htext hv'
    simp only [value, if_true, Option.some.injEq, hlow, hback, Kept, implies_true, true_and,
      forall_const]

end Bound

namespace SimpleOptions

/-- `minval`. -/
def min (o : SimpleOptions) : Bound := (o.hasMin, o.minval)

/-- `maxval`. -/
def max (o : SimpleOptions) : Bound := (o.hasMax, o.maxval)

/-- `defval`. -/
def default (o : SimpleOptions) : Bound := (o.hasDef, o.defval)

/-- Options with the given bounds. -/
def ofBounds (min max default : Bound) : SimpleOptions :=
  ⟨min.1, min.2, max.1, max.2, default.1, default.2⟩

/-- The options after a field has been read that had options of the given type. -/
def after (type : TypeEnum) (carried o : SimpleOptions) : SimpleOptions :=
  ofBounds (Bound.after type carried.min o.min) (Bound.after type carried.max o.max)
    (Bound.after type carried.default o.default)

/-- Options that are read back as they are, for a field of the given type and size. -/
structure Kept (type : TypeEnum) (size : ℕ) (carried o : SimpleOptions) : Prop where
  min : Bound.Kept type size carried.min o.min
  max : Bound.Kept type size carried.max o.max
  default : Bound.Kept type size carried.default o.default

/-- Options that say the same about a field for which the given number of bytes count. -/
structure Agrees (n : ℕ) (o o' : SimpleOptions) : Prop where
  min : o.min.value n = o'.min.value n
  max : o.max.value n = o'.max.value n
  default : o.default.value n = o'.default.value n

end SimpleOptions

end UtilityFramework
