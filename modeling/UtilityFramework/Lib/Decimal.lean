import Mathlib.Algebra.Order.Ring.Int
import Mathlib.Data.Int.Notation
import Mathlib.Data.List.Basic
import Mathlib.Data.List.Infix
import Mathlib.Data.List.TakeWhile

/-!
# Decimal text

Integers as decimal text, and the conversions of the C library that read them back: they skip
white space, take a sign and as many digits as there are, and report a number that is out of
range. `split` cuts a text at a character and drops the empty pieces.

* `parseInteger_toString`: an integer is read back from its text.
* `split_append_cons`: cutting a text that was put together from two pieces.
-/

namespace UtilityFramework

namespace Decimal

/-- `isspace`. -/
def isSpace (c : Char) : Bool :=
  decide (c = ' ' ∨ 9 ≤ c.toNat ∧ c.toNat ≤ 13)

/-- The number the leading digits denote; `none` if there are none. -/
def parseDigits (chars : List Char) : Option ℕ :=
  let digits := chars.takeWhile Char.isDigit
  if digits.isEmpty then none else some (Nat.ofDigitChars 10 digits 0)

/-- A text without its leading white space, split into its sign and the rest. -/
def signed (text : String) : Bool × List Char :=
  match text.toList.dropWhile isSpace with
  | '-' :: rest => (true, rest)
  | '+' :: rest => (false, rest)
  | rest => (false, rest)

/-- The integer at the front of a text. -/
def parseInteger (text : String) : Option ℤ :=
  (parseDigits (signed text).2).map fun n => if (signed text).1 then -(n : ℤ) else n

/-- `std::stoi`; `none` if it throws. -/
def stoi (text : String) : Option ℤ :=
  (parseInteger text).filter fun n => -2 ^ 31 ≤ n ∧ n < 2 ^ 31

/-- `std::stol` and `std::stoll`. -/
def stoll (text : String) : Option ℤ :=
  (parseInteger text).filter fun n => -2 ^ 63 ≤ n ∧ n < 2 ^ 63

/-- `std::stoul` and `std::stoull`: a negative number is taken modulo `2 ^ 64`. -/
def stoull (text : String) : Option ℕ :=
  ((parseInteger text).filter fun n => -2 ^ 64 < n ∧ n < 2 ^ 64).map fun n => (n % 2 ^ 64).toNat

/-- The pieces of a text between the occurrences of a character, without the empty ones. -/
def split (c : Char) (text : String) : List String :=
  ((text.toList.splitOn c).filter fun piece => !piece.isEmpty).map String.ofList

/-! ### Reading back -/

theorem takeWhile_isDigit_toDigits (n : ℕ) :
    (Nat.toDigits 10 n).takeWhile Char.isDigit = Nat.toDigits 10 n := by
  rw [List.takeWhile_eq_self_iff]
  exact fun c hc => Nat.isDigit_of_mem_toDigits (by decide) (by decide) hc

theorem parseDigits_toDigits (n : ℕ) : parseDigits (Nat.toDigits 10 n) = some n := by
  rw [parseDigits, takeWhile_isDigit_toDigits]
  simp [Nat.ofDigitChars_ten_toDigits, Nat.toDigits_ne_nil]

/-- The digits of a number begin with neither white space nor a sign. -/
theorem isDigit_of_toDigits_eq_cons {n : ℕ} {c : Char} {rest : List Char}
    (h : Nat.toDigits 10 n = c :: rest) : c.isDigit :=
  Nat.isDigit_of_mem_toDigits (b := 10) (n := n) (by decide) (by decide)
    (h ▸ List.mem_cons_self)

theorem not_isSpace_of_isDigit {c : Char} (h : c.isDigit) : isSpace c = false := by
  have hge : 48 ≤ c.toNat := by
    have h48 := (Char.isDigit_iff_toNat.mp h).1
    exact h48
  rw [isSpace, decide_eq_false_iff_not]
  rintro (rfl | h')
  · exact absurd hge (by decide)
  · omega

theorem signed_toString_ofNat (n : ℕ) : signed (toString n) = (false, Nat.toDigits 10 n) := by
  rw [signed, Nat.toString_eq_repr, Nat.toList_repr]
  cases hdigits : Nat.toDigits 10 n with
  | nil => exact absurd hdigits Nat.toDigits_ne_nil
  | cons c rest =>
    have hdigit := isDigit_of_toDigits_eq_cons hdigits
    rw [List.dropWhile_cons_of_neg (by simp [not_isSpace_of_isDigit hdigit])]
    split
    · rename_i heq
      rw [(List.cons.inj heq).1] at hdigit
      exact absurd hdigit (by decide)
    · rename_i heq
      rw [(List.cons.inj heq).1] at hdigit
      exact absurd hdigit (by decide)
    · rfl

theorem signed_toString_neg (n : ℕ) :
    signed ("-" ++ toString n) = (true, Nat.toDigits 10 n) := by
  have hchars : ("-" ++ toString n).toList = '-' :: Nat.toDigits 10 n := by
    rw [String.toList_append, Nat.toString_eq_repr, Nat.toList_repr]
    rfl
  rw [signed, hchars, List.dropWhile_cons_of_neg (by decide)]
  rfl

/-- **Reading an integer back from its text.** -/
theorem parseInteger_toString (n : ℤ) : parseInteger (toString n) = some n := by
  cases n with
  | ofNat n =>
    have htext : toString (Int.ofNat n) = toString n := rfl
    rw [htext, parseInteger, signed_toString_ofNat, parseDigits_toDigits]
    rfl
  | negSucc n =>
    have htext : toString (Int.negSucc n) = "-" ++ toString (n + 1) := rfl
    rw [htext, parseInteger, signed_toString_neg, parseDigits_toDigits]
    rfl

theorem stoi_toString {n : ℤ} (hlo : -2 ^ 31 ≤ n) (hhi : n < 2 ^ 31) :
    stoi (toString n) = some n := by
  rw [stoi, parseInteger_toString]
  exact if_pos (decide_eq_true ⟨hlo, hhi⟩)

theorem stoll_toString {n : ℤ} (hlo : -2 ^ 63 ≤ n) (hhi : n < 2 ^ 63) :
    stoll (toString n) = some n := by
  rw [stoll, parseInteger_toString]
  exact if_pos (decide_eq_true ⟨hlo, hhi⟩)

theorem stoull_toString {n : ℤ} (hlo : -2 ^ 64 < n) (hhi : n < 2 ^ 64) :
    stoull (toString n) = some (n % 2 ^ 64).toNat := by
  rw [stoull, parseInteger_toString]
  have hrange : (some n).filter (fun n => -2 ^ 64 < n ∧ n < 2 ^ 64) = some n :=
    if_pos (decide_eq_true ⟨hlo, hhi⟩)
  rw [hrange]
  rfl

/-! ### Pieces -/

theorem split_append_cons {c : Char} {a b : String} (ha : c ∉ a.toList) (hb : c ∉ b.toList)
    (ha' : a ≠ "") (hb' : b ≠ "") : split c (a ++ String.singleton c ++ b) = [a, b] := by
  have hnil : ∀ {s : String}, s ≠ "" → s.toList.isEmpty = false := by
    intro s hs
    rw [List.isEmpty_eq_false_iff]
    intro h
    exact hs (String.toList_injective (h.trans String.toList_empty.symm))
  have hchars : (a ++ String.singleton c ++ b).toList = a.toList ++ c :: b.toList := by
    simp
  rw [split, hchars, List.splitOn_append_cons_self_of_not_mem ha, List.splitOn_eq_singleton hb]
  simp [hnil ha', hnil hb']

theorem not_mem_toString {c : Char} (hc : c.isDigit = false) (n : ℕ) :
    c ∉ (toString n).toList := by
  rw [Nat.toString_eq_repr, Nat.toList_repr]
  intro hmem
  have hdigit := Nat.isDigit_of_mem_toDigits (by decide) (by decide) hmem
  rw [hc] at hdigit
  cases hdigit

end Decimal

end UtilityFramework
