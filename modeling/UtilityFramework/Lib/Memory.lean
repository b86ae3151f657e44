import Mathlib.Algebra.Order.Ring.Nat
import Mathlib.Data.List.Basic

/-!
# Memory behind a pointer

A pointer that a callee stores through is a function from offsets to entries: the memory from
the pointer on, also past the end of the object it points to. `store m off src` is the memory
after the entries of `src` have been stored at `off`, and `load m off n` the `n` entries at
`off`. Bounds are no part of either; they are statements about the offsets that are used.
-/

namespace UtilityFramework

namespace Memory

universe u

variable {α : Type u}

/-- The `n` entries at `off`. -/
def load (m : ℕ → α) (off n : ℕ) : List α := (List.range n).map fun i => m (off + i)

/-- The memory after the entries of `src` have been stored at `off`. -/
def store (m : ℕ → α) (off : ℕ) (src : List α) : ℕ → α := fun i =>
  if off ≤ i then (src[i - off]?).getD (m i) else m i

@[simp] theorem length_load (m : ℕ → α) (off n : ℕ) : (load m off n).length = n := by
  simp [load]

theorem getElem?_load (m : ℕ → α) (off n i : ℕ) :
    (load m off n)[i]? = if i < n then some (m (off + i)) else none := by
  rw [load, List.getElem?_map]
  split_ifs with hi
  · rw [List.getElem?_range hi]
    rfl
  · rw [List.getElem?_eq_none (by simpa using hi)]
    rfl

theorem load_add (m : ℕ → α) (off n k : ℕ) :
    load m off (n + k) = load m off n ++ load m (off + n) k := by
  simp only [load, List.range_add, List.map_append, List.map_map, Function.comp_def, add_assoc]

/-- A window of a window. -/
theorem take_drop_load (m : ℕ → α) (off : ℕ) {n i k : ℕ} (h : i + k ≤ n) :
    ((load m off n).drop i).take k = load m (off + i) k := by
  refine List.ext_getElem? fun j => ?_
  rw [List.getElem?_take, List.getElem?_drop, getElem?_load, getElem?_load]
  split_ifs with hj hij
  · rw [add_assoc]
  · omega
  · rfl

/-- What has been stored is what is loaded. -/
theorem load_store (m : ℕ → α) (off : ℕ) (src : List α) :
    load (store m off src) off src.length = src := by
  refine List.ext_getElem? fun i => ?_
  rw [getElem?_load]
  split_ifs with hi
  · rw [store, if_pos (Nat.le_add_right off i), Nat.add_sub_cancel_left,
      List.getElem?_eq_getElem hi, Option.getD_some]
  · exact (List.getElem?_eq_none (not_lt.mp hi)).symm

/-- What is loaded from below the stored entries is what was there. -/
theorem load_store_of_le {m : ℕ → α} {off i n : ℕ} {src : List α} (h : i + n ≤ off) :
    load (store m off src) i n = load m i n := by
  refine List.ext_getElem? fun j => ?_
  rw [getElem?_load, getElem?_load]
  split_ifs with hj
  · rw [store, if_neg (by omega)]
  · rfl

/-- Two stores, one after the other, are one store of both. -/
theorem load_store_store (m : ℕ → α) (off : ℕ) (src src' : List α) :
    load (store (store m off src) (off + src.length) src') off (src.length + src'.length) =
      src ++ src' := by
  rw [load_add, load_store, load_store_of_le le_rfl, load_store]

theorem load_store_of_length {m : ℕ → α} {off n : ℕ} {src : List α} (h : src.length = n) :
    load (store m off src) off n = src := h ▸ load_store m off src

/-- The memories differ at most in the `n` entries at `off`. -/
def SameOutside (m m' : ℕ → α) (off n : ℕ) : Prop := ∀ i, i < off ∨ off + n ≤ i → m' i = m i

theorem SameOutside.refl (m : ℕ → α) (off n : ℕ) : SameOutside m m off n := fun _ _ => rfl

/-- Storing inside a window. -/
theorem SameOutside.store {m m' : ℕ → α} {off n i : ℕ} {src : List α}
    (h : SameOutside m m' off n) (hlo : off ≤ i) (hhi : i + src.length ≤ off + n) :
    SameOutside m (store m' i src) off n := by
  intro j hj
  rw [← h j hj, Memory.store]
  split_ifs with hij
  · rw [List.getElem?_eq_none (by omega), Option.getD_none]
  · rfl

end Memory

/-! ### Aligned addresses -/

/-- Clearing the low bits of an address. -/
theorem and_two_pow_sub_two_pow {x w k : ℕ} (hx : x < 2 ^ w) (hk : k ≤ w) :
    x &&& (2 ^ w - 2 ^ k) = x / 2 ^ k * 2 ^ k := by
  have hmask : 2 ^ w - 2 ^ k = 2 ^ k * (2 ^ (w - k) - 1) := by
    rw [Nat.mul_sub, ← pow_add, Nat.add_sub_cancel' hk, mul_one]
  rw [hmask, mul_comm (x / 2 ^ k)]
  refine Nat.eq_of_testBit_eq fun i => ?_
  rw [Nat.testBit_and, Nat.testBit_two_pow_mul, Nat.testBit_two_pow_mul,
    Nat.testBit_two_pow_sub_one, Nat.testBit_div_two_pow]
  by_cases hi : k ≤ i
  · by_cases hw : i < w
    · have hlt : i - k < w - k := by omega
      simp [hi, hlt, Nat.sub_add_cancel hi]
    · have hbit : x.testBit i = false :=
        Nat.testBit_lt_two_pow (lt_of_lt_of_le hx (Nat.pow_le_pow_right (by decide) (by omega)))
      simp [hbit, Nat.sub_add_cancel hi]
  · simp [hi]

end UtilityFramework
