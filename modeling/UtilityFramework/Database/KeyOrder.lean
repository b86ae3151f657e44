import Mathlib.Data.List.Lex
import UtilityFramework.Database.Table
import UtilityFramework.Lib.Bytes
import UtilityFramework.Lib.KeyedContainers

/-!
# The order, the equality and the hash of keys

`core::database::key` has room for sixteen bytes and a length that may be larger. `operator==` and
`key_hash` look at the bytes in use; `operator<` compares as many bytes as both keys use and then
tests whether that is less than the length of the other key. For two keys that are longer than
their bytes it is, even if they are the same key.

`RawKey.comparisons_iff` says that the three functions fit together, and make ordered and hashed
containers maps, on precisely the sets of keys that have no such key.
-/

namespace UtilityFramework

open Bytes

/-! ### The functions -/

/-- `MAX_KEY_SIZE`. -/
def maxKeySize : ℕ := 16

/-- `core::database::key`, with all its bytes. -/
structure RawKey where
  length : ℕ
  data : List UInt8
  length_data : data.length = maxKeySize

/-- `std::memcmp` of `n` bytes. -/
def memcmp : ℕ → List UInt8 → List UInt8 → Ordering
  | n + 1, a :: s, b :: t => if a < b then .lt else if b < a then .gt else memcmp n s t
  | _, _, _ => .eq

namespace RawKey

/-- `operator<`. -/
def lt (key other : RawKey) : Bool :=
  let minLength := min (min key.length other.length) maxKeySize
  match memcmp minLength key.data other.data with
  | .eq => minLength < other.length
  | .lt => true
  | .gt => false

/-- `operator==`. -/
def equal (lhs rhs : RawKey) : Bool :=
  if lhs.length ≠ rhs.length then false
  else memcmp (min lhs.length maxKeySize) lhs.data rhs.data = .eq

/-- The bytes in use, with zeroes behind them. -/
def padded (key : RawKey) : List UInt8 :=
  let length := min key.length maxKeySize
  key.data.take length ++ List.replicate (maxKeySize - length) 0

/-- `key_hash`, given `std::hash<uint32_t>`. -/
def hash (hash32 : UInt32 → UInt64) (key : RawKey) : UInt64 :=
  ((List.range 4).map fun i => hash32 (.ofNat (ofLE (slice key.padded (4 * i) 4)))).foldl
    (· ^^^ ·) 0

/-! ### The specification -/

/-- The three functions fit together on the keys of a set, and make maps of the containers. -/
structure Comparisons (hash32 : UInt32 → UInt64) (S : Set RawKey) : Prop where
  order : IsStrictWeakOrder S fun a b => lt a.1 b.1 = true
  equal_iff : ∀ a b : S, equal a.1 b.1 = true ↔ ¬lt a.1 b.1 = true ∧ ¬lt b.1 a.1 = true
  equivalence : Equivalence fun a b : S => equal a.1 b.1 = true
  hash_eq : ∀ a b : S, equal a.1 b.1 = true → hash hash32 a.1 = hash hash32 b.1
  ordered : ∀ (ν : Type) (calls : List (ContainerCall S ν)) (k : S),
    OrderedContainer.find (fun a b : S => lt a.1 b.1) k
        (OrderedContainer.run (fun a b : S => lt a.1 b.1) calls) =
      ContainerCall.applyAll (fun a b : S => equal a.1 b.1) calls k
  hashed : ∀ (ν : Type) (size : ℕ) (calls : List (ContainerCall S ν)) (k : S),
    HashedContainer.find (fun a : S => (hash hash32 a.1).toNat) (fun a b => equal a.1 b.1) size
        (HashedContainer.run (fun a : S => (hash hash32 a.1).toNat)
          (fun a b => equal a.1 b.1) size calls) k =
      ContainerCall.applyAll (fun a b : S => equal a.1 b.1) calls k

/-! ### Bytes -/

theorem memcmp_eq_iff {n : ℕ} {s t : List UInt8} (hs : n ≤ s.length) (ht : n ≤ t.length) :
    memcmp n s t = .eq ↔ s.take n = t.take n := by
  fun_induction memcmp n s t with
  | case1 n a s b t hlt =>
    refine iff_of_false (by simp) fun heq => ?_
    rw [List.take_succ_cons, List.take_succ_cons, List.cons.injEq] at heq
    exact absurd heq.1 (UInt8.ne_of_lt hlt)
  | case2 n a s b t _ hlt =>
    refine iff_of_false (by simp) fun heq => ?_
    rw [List.take_succ_cons, List.take_succ_cons, List.cons.injEq] at heq
    exact absurd heq.1.symm (UInt8.ne_of_lt hlt)
  | case3 n a s b t hab hba ih =>
    have heq : a = b := UInt8.le_antisymm (UInt8.not_lt.mp hba) (UInt8.not_lt.mp hab)
    rw [ih (Nat.le_of_succ_le_succ hs) (Nat.le_of_succ_le_succ ht), List.take_succ_cons,
      List.take_succ_cons, heq, List.cons.injEq, and_iff_right rfl]
  | case4 n s t hnot =>
    refine iff_of_true rfl ?_
    cases n with
    | zero => rfl
    | succ n =>
      match s, t with
      | [], _ => simp at hs
      | _, [] => simp at ht
      | a :: s, b :: t => exact absurd rfl (hnot n a s b t rfl rfl)

/-- The bytes behind those compared do not matter. -/
theorem memcmp_take {n k l : ℕ} (s t : List UInt8) (hk : n ≤ k) (hl : n ≤ l) :
    memcmp n (s.take k) (t.take l) = memcmp n s t := by
  induction n generalizing k l s t with
  | zero => simp only [memcmp]
  | succ n ih =>
    obtain ⟨k, rfl⟩ : ∃ k', k = k' + 1 := ⟨k - 1, by omega⟩
    obtain ⟨l, rfl⟩ : ∃ l', l = l' + 1 := ⟨l - 1, by omega⟩
    match s, t with
    | [], t => simp [memcmp]
    | a :: s, [] => simp [memcmp]
    | a :: s, b :: t =>
      rw [List.take_succ_cons, List.take_succ_cons, memcmp, memcmp,
        ih s t (by omega) (by omega)]

/-- **Comparing** the bytes two strings have in common, and then their lengths, is comparing them
lexicographically. -/
theorem memcmp_lt_iff (s t : List UInt8) :
    (match memcmp (min s.length t.length) s t with
      | .eq => decide (min s.length t.length < t.length)
      | .lt => true
      | .gt => false) = true ↔ s.map UInt8.toNat < t.map UInt8.toNat := by
  induction s generalizing t with
  | nil =>
    cases t with
    | nil => simp [memcmp]
    | cons b t => simp [memcmp]
  | cons a s ih =>
    cases t with
    | nil => simp [memcmp]
    | cons b t =>
      rw [List.length_cons, List.length_cons, Nat.add_min_add_right, memcmp, List.map_cons,
        List.map_cons, List.cons_lt_cons_iff]
      by_cases hab : a < b
      · rw [if_pos hab]
        exact iff_of_true rfl (.inl hab)
      · rw [if_neg hab]
        by_cases hba : b < a
        · rw [if_pos hba]
          refine iff_of_false Bool.false_ne_true ?_
          rintro (hlt | ⟨heq, -⟩)
          · exact hab hlt
          · exact absurd heq (Nat.ne_of_gt hba)
        · have heq : a.toNat = b.toNat :=
            Nat.le_antisymm (Nat.not_lt.mp hba) (Nat.not_lt.mp hab)
          rw [if_neg hba, heq, and_iff_right rfl, or_iff_right (lt_irrefl _), ← ih t]
          cases memcmp (min s.length t.length) s t <;> simp

/-! ### Keys -/

variable {a b : RawKey}

/-- Equal keys have the same length and the same bytes in use. -/
theorem equal_eq_true_iff : equal a b = true ↔ a.length = b.length ∧
    a.data.take (min a.length maxKeySize) = b.data.take (min b.length maxKeySize) := by
  rw [equal]
  split_ifs with hne
  · exact iff_of_false not_false fun h => hne h.1
  · rw [decide_eq_true_iff, memcmp_eq_iff (a.length_data.symm ▸ min_le_right _ _)
      (b.length_data.symm ▸ min_le_right _ _), ← not_not.mp hne, and_iff_right rfl]

/-- The key that a table knows. -/
def toKey (key : RawKey) : Key where
  length := key.length
  data := key.data.take (min key.length maxKeySize)
  length_data := by
    rw [List.length_take, key.length_data]
    exact min_eq_left (min_le_right _ _)

/-- Equal keys are the same key of a table. -/
theorem equal_iff_toKey : equal a b = true ↔ a.toKey = b.toKey := by
  rw [equal_eq_true_iff, toKey, toKey, Key.mk.injEq]

theorem equal_equivalence : Equivalence fun a b => equal a b = true where
  refl _ := equal_iff_toKey.mpr rfl
  symm h := equal_iff_toKey.mpr (equal_iff_toKey.mp h).symm
  trans h h' := equal_iff_toKey.mpr ((equal_iff_toKey.mp h).trans (equal_iff_toKey.mp h'))

/-- Equal keys have equal hashes. -/
theorem hash_eq_of_equal (hash32 : UInt32 → UInt64) (h : equal a b = true) :
    hash hash32 a = hash hash32 b := by
  obtain ⟨hlength, hdata⟩ := equal_eq_true_iff.mp h
  have hpadded : a.padded = b.padded := by rw [padded, padded, hdata, hlength]
  rw [hash, hash, hpadded]

/-- The bytes of a key, as numbers. -/
def content (key : RawKey) : List ℕ := (key.data.take key.length).map UInt8.toNat

theorem length_take_data {key : RawKey} (h : key.length ≤ maxKeySize) :
    (key.data.take key.length).length = key.length := by
  rw [List.length_take, key.length_data, min_eq_left h]

/-- `operator<` is the lexicographic order, for keys that are not longer than their bytes. -/
theorem lt_iff_content (ha : a.length ≤ maxKeySize) (hb : b.length ≤ maxKeySize) :
    lt a b = true ↔ a.content < b.content := by
  have hmin : min (min a.length b.length) maxKeySize = min a.length b.length :=
    min_eq_left ((min_le_left _ _).trans ha)
  have hlex := memcmp_lt_iff (a.data.take a.length) (b.data.take b.length)
  rw [length_take_data ha, length_take_data hb,
    memcmp_take a.data b.data (min_le_left _ _) (min_le_right _ _)] at hlex
  rw [lt, hmin, content, content, ← hlex]

theorem equal_iff_content (ha : a.length ≤ maxKeySize) (hb : b.length ≤ maxKeySize) :
    equal a b = true ↔ a.content = b.content := by
  rw [equal_eq_true_iff, min_eq_left ha, min_eq_left hb, content, content,
    (List.map_injective_iff.mpr fun _ _ => UInt8.toNat_inj.mp).eq_iff]
  refine and_iff_right_of_imp fun heq => ?_
  rw [← length_take_data ha, heq, length_take_data hb]

/-- A key that is longer than its bytes is less than itself. -/
theorem lt_self_of_long (h : maxKeySize < a.length) : lt a a = true := by
  have hmin : min (min a.length a.length) maxKeySize = maxKeySize := by
    rw [min_self]
    exact min_eq_right h.le
  have heq : memcmp maxKeySize a.data a.data = .eq :=
    (memcmp_eq_iff a.length_data.ge a.length_data.ge).mpr rfl
  rw [lt, hmin, heq]
  exact decide_eq_true h

section Sets

variable {S : Set RawKey}

/-- On keys that are not longer than their bytes, the order is a strict weak one. -/
theorem orders_of_short (hS : ∀ k ∈ S, k.length ≤ maxKeySize) :
    OrderedContainer.Orders (fun a b : S => lt a.1 b.1) fun a b => equal a.1 b.1 := by
  have hlt (a b : S) : lt a.1 b.1 = true ↔ a.1.content < b.1.content :=
    lt_iff_content (hS a a.2) (hS b b.2)
  refine ⟨{ irrefl := fun a => ?_, trans := fun a b c => ?_, incomp_trans := fun a b c => ?_ },
    fun a b => ?_⟩
  · rw [hlt]
    exact lt_irrefl _
  · rw [hlt, hlt, hlt]
    exact lt_trans
  · -- neither of two contents is less than the other only if they are the same
    rw [hlt, hlt, hlt, hlt, hlt, hlt]
    rintro ⟨hab, hba⟩ ⟨hbc, hcb⟩
    have hac : a.1.content = c.1.content :=
      (le_antisymm (not_lt.mp hba) (not_lt.mp hab)).trans
        (le_antisymm (not_lt.mp hcb) (not_lt.mp hbc))
    rw [hac]
    exact ⟨lt_irrefl _, lt_irrefl _⟩
  · rw [hlt, hlt, equal_iff_content (hS a a.2) (hS b b.2), not_lt, not_lt]
    exact ⟨fun h => ⟨h.ge, h.le⟩, fun h => le_antisymm h.2 h.1⟩

/-- **Comparisons** of keys fit together on a set of keys, and make maps of the containers, if and
only if no key of the set is longer than its bytes. -/
theorem comparisons_iff (hash32 : UInt32 → UInt64) (S : Set RawKey) :
    Comparisons hash32 S ↔ ∀ k ∈ S, k.length ≤ maxKeySize := by
  refine ⟨fun h k hk => ?_, fun hS => ?_⟩
  · by_contra hlong
    exact h.order.toIsStrictOrder.irrefl ⟨k, hk⟩ (lt_self_of_long (not_le.mp hlong))
  · have horders := orders_of_short hS
    have hhashes : HashedContainer.Hashes (fun a : S => (hash hash32 a.1).toNat)
        fun a b => equal a.1 b.1 :=
      ⟨equal_equivalence.comap Subtype.val,
        fun a b hab => congrArg UInt64.toNat (hash_eq_of_equal hash32 hab)⟩
    exact {
      order := horders.order
      equal_iff := horders.equal_iff
      equivalence := hhashes.equivalence
      hash_eq := fun a b => hash_eq_of_equal hash32
      ordered := fun _ calls k => OrderedContainer.find_run horders calls k
      hashed := fun _ size calls k => HashedContainer.find_run hhashes size calls k }

/-- A key of seventeen zeroes, of which it has sixteen, is less than itself. -/
theorem not_comparisons : ∃ k : RawKey, k.length = 17 ∧ k.data = List.replicate 16 0 ∧
    lt k k = true ∧ equal k k = true ∧ ∀ hash32, ¬Comparisons hash32 {k} := by
  let k : RawKey := ⟨17, List.replicate 16 0, rfl⟩
  have hlt : lt k k = true := rfl
  refine ⟨k, rfl, rfl, hlt, rfl, fun hash32 h => ?_⟩
  exact h.order.toIsStrictOrder.irrefl ⟨k, rfl⟩ hlt

end Sets

end RawKey

end UtilityFramework
