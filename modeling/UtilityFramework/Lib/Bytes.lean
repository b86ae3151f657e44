import Mathlib.Data.List.Basic
import Mathlib.Algebra.Order.Ring.Nat
import Mathlib.Tactic.Ring

/-!
# Byte buffers and little-endian integers

A buffer is a list. `slice b off n` is the window of `n` entries at `off`, and
`blit b off src` overwrites the window at `off` with `src`, as `memcpy` does. Both are
total; the facts about them carry the bounds that a checked access tests first.

`ofLE` and `toLE` are the little-endian reading and writing of natural numbers, the byte
order of the platform the rest of the development is about.
-/

namespace UtilityFramework

namespace Bytes

universe u

section Windows

variable {α : Type u}

/-- The window of `n` entries of `b` that starts at `off`. -/
def slice (b : List α) (off n : ℕ) : List α := (b.drop off).take n

/-- Overwrite the window of `b` at `off` with `src`. -/
def blit (b : List α) (off : ℕ) (src : List α) : List α :=
  b.take off ++ src ++ b.drop (off + src.length)

theorem length_slice {b : List α} {off n : ℕ} (h : off + n ≤ b.length) :
    (slice b off n).length = n := by
  simp only [slice, List.length_take, List.length_drop]
  omega

theorem slice_zero_left (b : List α) (n : ℕ) : slice b 0 n = b.take n := by
  simp [slice]

theorem take_slice {n k : ℕ} (b : List α) (off : ℕ) (h : k ≤ n) :
    (slice b off n).take k = slice b off k := by
  rw [slice, slice, List.take_take, Nat.min_eq_left h]

theorem length_blit {b src : List α} {off : ℕ} (h : off + src.length ≤ b.length) :
    (blit b off src).length = b.length := by
  simp only [blit, List.length_append, List.length_take, List.length_drop]
  omega

theorem getElem?_slice (b : List α) (off n i : ℕ) :
    (slice b off n)[i]? = if i < n then b[off + i]? else none := by
  simp only [slice, List.getElem?_take, List.getElem?_drop]

/-- A window of a window. -/
theorem slice_slice {off n k l : ℕ} (b : List α) (h : k + l ≤ n) :
    slice (slice b off n) k l = slice b (off + k) l := by
  refine List.ext_getElem? fun i => ?_
  rw [getElem?_slice, getElem?_slice, getElem?_slice, Nat.add_assoc]
  split_ifs with hi hk
  · rfl
  · omega
  · rfl

/-- The entries of an overwritten buffer: the written ones inside the window, the old ones
outside. -/
theorem getElem?_blit {b src : List α} {off : ℕ} (h : off + src.length ≤ b.length) (i : ℕ) :
    (blit b off src)[i]? =
      if off ≤ i ∧ i < off + src.length then src[i - off]? else b[i]? := by
  have hto : (b.take off).length = off := by
    rw [List.length_take]
    omega
  simp only [blit, List.append_assoc]
  rcases Nat.lt_or_ge i off with hi | hi
  · rw [List.getElem?_append_left (by omega), List.getElem?_take, if_pos hi,
      if_neg (by omega)]
  · rw [List.getElem?_append_right (by omega), hto]
    rcases Nat.lt_or_ge i (off + src.length) with hj | hj
    · rw [List.getElem?_append_left (by omega), if_pos ⟨hi, hj⟩]
    · rw [List.getElem?_append_right (by omega), List.getElem?_drop, if_neg (by omega)]
      congr 1
      omega

/-- Reading back the overwritten window gives what was written. -/
theorem slice_blit_self {b src : List α} {off : ℕ} (h : off + src.length ≤ b.length) :
    slice (blit b off src) off src.length = src := by
  refine List.ext_getElem? fun i => ?_
  rw [getElem?_slice, getElem?_blit h]
  split_ifs with h₁ h₂
  · congr 1
    omega
  · omega
  · exact (List.getElem?_eq_none (by omega)).symm

/-- A window apart from the overwritten one stays. -/
theorem slice_blit_of_apart {b src : List α} {off pos n : ℕ} (h : off + src.length ≤ b.length)
    (hapart : off + src.length ≤ pos ∨ pos + n ≤ off) :
    slice (blit b off src) pos n = slice b pos n := by
  refine List.ext_getElem? fun i => ?_
  rw [getElem?_slice, getElem?_slice, getElem?_blit h]
  split_ifs with hi hin
  · omega
  · rfl
  · rfl

/-- `dst'` comes from `dst` by taking over entries of `src` at the same positions. -/
def Copies (src dst dst' : List α) : Prop :=
  dst'.length = dst.length ∧ ∀ i : ℕ, dst'[i]? = dst[i]? ∨ dst'[i]? = src[i]?

theorem Copies.refl (src dst : List α) : Copies src dst dst := ⟨rfl, fun _ => Or.inl rfl⟩

theorem Copies.trans {src b₁ b₂ b₃ : List α} (h : Copies src b₁ b₂) (h' : Copies src b₂ b₃) :
    Copies src b₁ b₃ := by
  refine ⟨h'.1.trans h.1, fun i => ?_⟩
  rcases h'.2 i with hi | hi
  · rw [hi]
    exact h.2 i
  · exact Or.inr hi

/-- A window that agrees with the source keeps doing so. -/
theorem Copies.slice_eq {src dst dst' : List α} {off n : ℕ} (h : Copies src dst dst')
    (hs : slice dst off n = slice src off n) : slice dst' off n = slice src off n := by
  refine List.ext_getElem? fun i => ?_
  have hi := congrArg (fun l => l[i]?) hs
  simp only [getElem?_slice] at hi ⊢
  split
  · rename_i hlt
    rw [if_pos hlt, if_pos hlt] at hi
    rcases h.2 (off + i) with heq | heq
    · rw [heq, hi]
    · exact heq
  · rfl

/-- Writing a window of the source at its own position. -/
theorem copies_blit_slice {src dst : List α} {off n : ℕ} (hlen : dst.length = src.length)
    (h : off + n ≤ src.length) :
    Copies src dst (blit dst off (slice src off n)) ∧
      slice (blit dst off (slice src off n)) off n = slice src off n := by
  have hn : (slice src off n).length = n := length_slice h
  have hfit : off + (slice src off n).length ≤ dst.length := by omega
  refine ⟨⟨length_blit hfit, fun i => ?_⟩, ?_⟩
  · rw [getElem?_blit hfit, hn]
    split
    · right
      rw [getElem?_slice, if_pos (by omega)]
      congr 1
      omega
    · exact Or.inl rfl
  · have hself := slice_blit_self hfit
    rwa [hn] at hself

theorem blit_zero (b src : List α) : blit b 0 src = src ++ b.drop src.length := by
  simp [blit]

/-- Writing at the front twice: the later write wins on its own length. -/
theorem blit_zero_blit_zero {b s t : List α} (h : t.length ≤ s.length) :
    blit (blit b 0 s) 0 t = blit b 0 (t ++ s.drop t.length) := by
  simp only [blit_zero, List.drop_append_of_le_length h, List.append_assoc,
    List.length_append, List.length_drop]
  rw [Nat.add_sub_cancel' h]

/-- Writing at the front keeps the first `n` entries precisely if these and the written ones
agree as far as both go. -/
theorem take_blit_zero_eq_iff {b src : List α} (h : src.length ≤ b.length) (n : ℕ) :
    (blit b 0 src).take n = b.take n ↔ src <+: b.take n ∨ b.take n <+: src := by
  have hwhole : src <+: b → src ++ b.drop src.length = b := by
    rintro ⟨tail, rfl⟩
    rw [List.drop_left]
  rw [blit_zero]
  constructor
  · intro heq
    rcases Nat.le_total src.length n with hn | hn
    · left
      rw [← heq, List.take_append, List.take_of_length_le hn]
      exact List.prefix_append _ _
    · right
      rw [← heq, List.take_append_of_le_length hn]
      exact List.take_prefix n src
  · rintro (hpre | hpre)
    · rw [hwhole (hpre.trans (List.take_prefix n b))]
    · rcases Nat.le_total n b.length with hn | hn
      · have hlen : (b.take n).length = n := List.length_take_of_le hn
        have htake := List.prefix_iff_eq_take.mp hpre
        have hle := hpre.length_le
        rw [hlen] at htake hle
        rw [List.take_append_of_le_length hle, htake]
      · -- the first `n` entries are all of them, so the written ones are these
        rw [List.take_of_length_le hn] at hpre
        rw [hwhole (hpre.eq_of_length (le_antisymm hpre.length_le h) ▸ List.prefix_rfl)]

end Windows

/-! ### Little-endian integers -/

/-- The number a byte sequence denotes, least significant byte first. -/
def ofLE : List UInt8 → ℕ
  | [] => 0
  | b :: bs => b.toNat + 256 * ofLE bs

/-- The low `n` bytes of `v`, least significant byte first. -/
def toLE : ℕ → ℕ → List UInt8
  | 0, _ => []
  | n + 1, v => UInt8.ofNat v :: toLE n (v / 256)

@[simp] theorem ofLE_nil : ofLE [] = 0 := rfl

@[simp] theorem ofLE_cons (b : UInt8) (bs : List UInt8) :
    ofLE (b :: bs) = b.toNat + 256 * ofLE bs := rfl

@[simp] theorem length_toLE (n v : ℕ) : (toLE n v).length = n := by
  induction n generalizing v with
  | zero => rfl
  | succ n ih => simp [toLE, ih]

theorem ofLE_lt (bs : List UInt8) : ofLE bs < 256 ^ bs.length := by
  induction bs with
  | nil => simp
  | cons b bs ih =>
    have hb : b.toNat < 256 := b.toNat_lt
    simp only [ofLE_cons, List.length_cons, pow_succ]
    omega

theorem ofLE_toLE (n v : ℕ) : ofLE (toLE n v) = v % 256 ^ n := by
  induction n generalizing v with
  | zero => simp [toLE, Nat.mod_one]
  | succ n ih =>
    have h : (UInt8.ofNat v).toNat = v % 256 := by simp [UInt8.toNat_ofNat']
    rw [toLE, ofLE_cons, ih, h, pow_succ, mul_comm (256 ^ n), Nat.mod_mul]

/-- Writing the number a byte sequence denotes gives the sequence back, also when the
number is known only modulo the width of the sequence. -/
theorem toLE_of_modEq {bs : List UInt8} {v : ℕ} (h : v % 256 ^ bs.length = ofLE bs) :
    toLE bs.length v = bs := by
  induction bs generalizing v with
  | nil => rfl
  | cons b bs ih =>
    have hb : b.toNat < 256 := b.toNat_lt
    rw [List.length_cons, pow_succ, mul_comm, Nat.mod_mul, ofLE_cons] at h
    have hlo : v % 256 = b.toNat := by omega
    have hhi : v / 256 % 256 ^ bs.length = ofLE bs := by omega
    have hbyte : UInt8.ofNat v = b := by
      apply UInt8.toNat_inj.mp
      simpa [UInt8.toNat_ofNat'] using hlo
    rw [List.length_cons, toLE, hbyte, ih hhi]

theorem toLE_ofLE (bs : List UInt8) : toLE bs.length (ofLE bs) = bs :=
  toLE_of_modEq (Nat.mod_eq_of_lt (ofLE_lt bs))

/-- Zero bytes above a number do not change it. -/
theorem ofLE_append_replicate_zero (bs : List UInt8) (n : ℕ) :
    ofLE (bs ++ List.replicate n 0) = ofLE bs := by
  induction bs with
  | nil =>
    induction n with
    | zero => rfl
    | succ n ih => simpa [List.replicate_succ] using ih
  | cons b bs ih => simp [ih]

/-! ### Bits -/

/-- Bit `i` of a byte sequence, least significant bit of the first byte first; the bits after
its end are zero. -/
def bit (b : List UInt8) (i : ℕ) : Bool := (b.getD (i / 8) 0).toNat.testBit (i % 8)

/-- The bits of a little-endian number are those of its bytes. -/
theorem testBit_ofLE (bs : List UInt8) (i : ℕ) : (ofLE bs).testBit i = bit bs i := by
  induction bs generalizing i with
  | nil => simp [bit]
  | cons b bs ih =>
    have hb : b.toNat < 2 ^ 8 := b.toNat_lt
    have hnum : ofLE (b :: bs) = 2 ^ 8 * ofLE bs + b.toNat := by
      rw [ofLE_cons]
      omega
    rw [hnum, Nat.testBit_two_pow_mul_add _ hb]
    split
    · rename_i hi
      have hdiv : i / 8 = 0 := by omega
      have hmod : i % 8 = i := by omega
      simp [bit, hdiv, hmod]
    · rename_i hi
      have hdiv : i / 8 = (i - 8) / 8 + 1 := by omega
      have hmod : (i - 8) % 8 = i % 8 := by omega
      rw [ih, bit, bit, hdiv, hmod, List.getD_cons_succ]

theorem bit_slice (b : List UInt8) (off n i : ℕ) :
    bit (slice b off n) i = (decide (i < 8 * n) && bit b (8 * off + i)) := by
  have hdiv : (8 * off + i) / 8 = off + i / 8 := by omega
  have hmod : (8 * off + i) % 8 = i % 8 := by omega
  rw [bit, bit, hdiv, hmod, List.getD_eq_getElem?_getD, List.getD_eq_getElem?_getD,
    getElem?_slice]
  by_cases hi : i < 8 * n
  · rw [if_pos (by omega)]
    simp [hi]
  · rw [if_neg (by omega)]
    simp [hi]

theorem bit_blit {b src : List UInt8} {off : ℕ} (h : off + src.length ≤ b.length) (i : ℕ) :
    bit (blit b off src) i =
      if 8 * off ≤ i ∧ i < 8 * (off + src.length) then bit src (i - 8 * off) else bit b i := by
  rw [bit, List.getD_eq_getElem?_getD, getElem?_blit h]
  by_cases hi : 8 * off ≤ i ∧ i < 8 * (off + src.length)
  · have hdiv : (i - 8 * off) / 8 = i / 8 - off := by omega
    have hmod : (i - 8 * off) % 8 = i % 8 := by omega
    rw [if_pos (by omega), if_pos hi, bit, List.getD_eq_getElem?_getD, hdiv, hmod]
  · rw [if_neg (by omega), if_neg hi, bit, List.getD_eq_getElem?_getD]

theorem bit_toLE (n v i : ℕ) : bit (toLE n v) i = (decide (i < 8 * n) && v.testBit i) := by
  have hpow : 256 ^ n = 2 ^ (8 * n) := by
    rw [pow_mul]
    norm_num
  rw [← testBit_ofLE, ofLE_toLE, hpow, Nat.testBit_mod_two_pow]

theorem bit_replicate_zero (n i : ℕ) : bit (List.replicate n 0) i = false := by
  rw [bit, List.getD_eq_getElem?_getD, List.getElem?_replicate]
  split <;> simp

end Bytes

end UtilityFramework
