import Mathlib.Algebra.Order.Ring.Int
import Mathlib.Data.List.Perm.Subperm
import Mathlib.Data.List.Sort

/-!
# Signals

`utils::signal`: subscriber functions under integer tokens, kept in a `std::map`. A new
subscriber gets the smallest token that is not in use; there is none left when all tokens
below the largest `int` are taken. A raise invokes the functions in order of their tokens.
-/

namespace UtilityFramework

variable {φ : Type*}

/-- `utils::signal`. Functions of type `φ` under tokens, no token twice. -/
structure Signal (φ : Type*) where
  subscribers : List (ℤ × φ)
  keys_nodup : (subscribers.map Prod.fst).Nodup

namespace Signal

/-- A signal without subscribers. -/
def empty : Signal φ := ⟨[], List.nodup_nil⟩

/-- The number of tokens: `std::numeric_limits<signal_token>::max`. -/
def maxToken : ℕ := 2 ^ 31 - 1

/-- The search loop of `subscribe`: the first of the `n` tokens from `i` on that is not in
use. -/
def firstFree (used : ℤ → Bool) : ℕ → ℤ → Option ℤ
  | 0, _ => none
  | n + 1, i => if used i then firstFree used n (i + 1) else some i

theorem firstFree_eq_some {used : ℤ → Bool} {n : ℕ} {i token : ℤ}
    (h : firstFree used n i = some token) : used token = false := by
  induction n generalizing i with
  | zero => cases h
  | succ n ih =>
    rw [firstFree] at h
    split at h
    · exact ih h
    · rename_i hused
      obtain rfl := Option.some.inj h
      exact Bool.eq_false_iff.mpr hused

theorem used_of_firstFree_eq_none {used : ℤ → Bool} {n : ℕ} {i : ℤ}
    (h : firstFree used n i = none) (k : ℕ) (hk : k < n) : used (i + k) = true := by
  induction n generalizing i k with
  | zero => exact absurd hk (Nat.not_lt_zero k)
  | succ n ih =>
    rw [firstFree] at h
    split at h
    · rename_i hused
      cases k with
      | zero => simpa using hused
      | succ k =>
        have := ih h k (by omega)
        rwa [Int.add_assoc, Int.add_comm 1 (k : ℤ), ← Int.natCast_succ] at this
    · cases h

/-- The search of `subscribe` for a token. -/
def freeToken (s : Signal φ) : Option ℤ :=
  firstFree (fun i => i ∈ s.subscribers.map Prod.fst) maxToken 0

theorem freeToken_not_mem {s : Signal φ} {token : ℤ} (h : s.freeToken = some token) :
    token ∉ s.subscribers.map Prod.fst :=
  of_decide_eq_false (firstFree_eq_some h)

/-- A signal without a free token has as many subscribers as there are tokens. -/
theorem maxToken_le_of_freeToken_eq_none {s : Signal φ} (h : s.freeToken = none) :
    maxToken ≤ s.subscribers.length := by
  have hsub : (List.range maxToken).map ((↑) : ℕ → ℤ) ⊆ s.subscribers.map Prod.fst := by
    intro i hi
    obtain ⟨k, hk, rfl⟩ := List.mem_map.mp hi
    have hused := used_of_firstFree_eq_none h k (List.mem_range.mp hk)
    rwa [Int.zero_add, decide_eq_true_eq] at hused
  have hnodup : ((List.range maxToken).map ((↑) : ℕ → ℤ)).Nodup :=
    List.nodup_range.map fun _ _ => Int.ofNat.inj
  have hle := (List.subperm_of_subset hnodup hsub).length_le
  rwa [List.length_map, List.length_range, List.length_map] at hle

/-- A signal without a free token has more than one subscriber. -/
theorem one_lt_of_freeToken_eq_none {s : Signal φ} (h : s.freeToken = none) :
    1 < s.subscribers.length :=
  (by decide : 1 < maxToken).trans_le (maxToken_le_of_freeToken_eq_none h)

/-- `std::map::emplace` under a token that is not in use. -/
def emplace (s : Signal φ) (token : ℤ) (f : φ) (h : token ∉ s.subscribers.map Prod.fst) :
    Signal φ where
  subscribers := s.subscribers.orderedInsert (fun a b => a.1 ≤ b.1) (token, f)
  keys_nodup := by
    rw [((List.perm_orderedInsert _ (token, f) s.subscribers).map Prod.fst).nodup_iff]
    exact List.nodup_cons.mpr ⟨h, s.keys_nodup⟩

/-- `subscribe`: the token, or `none` for `signal_token_undefined`. -/
def subscribe (s : Signal φ) (f : φ) : Signal φ × Option ℤ :=
  match h : s.freeToken with
  | none => (s, none)
  | some token => (s.emplace token f (freeToken_not_mem h), some token)

/-- The first subscriber gets token `0`. -/
@[simp] theorem subscribe_empty (f : φ) :
    (empty : Signal φ).subscribe f = (⟨[(0, f)], List.nodup_singleton 0⟩, some 0) := rfl

/-- `unsubscribe`: false if the token is not in use. -/
def unsubscribe (s : Signal φ) (token : ℤ) : Signal φ × Bool :=
  if token ∈ s.subscribers.map Prod.fst then
    (⟨s.subscribers.filter fun p => p.1 ≠ token,
      s.keys_nodup.sublist (List.filter_sublist.map Prod.fst)⟩, true)
  else (s, false)

/-- `count`, the `callback_count` reported by `subscribe` and `unsubscribe`. -/
def count (s : Signal φ) : ℕ := s.subscribers.length

/-- `raise`: the functions invoked, in order. -/
def raise (s : Signal φ) : List φ := s.subscribers.map Prod.snd

/-- Subscribing adds one subscriber under a token not in use before, or fails and changes
nothing. -/
theorem subscribe_cases (s : Signal φ) (f : φ) :
    (s.freeToken = none ∧ s.subscribe f = (s, none)) ∨
      ∃ token, s.freeToken = some token ∧ (s.subscribe f).2 = some token ∧
        token ∉ s.subscribers.map Prod.fst ∧
        (s.subscribe f).1.subscribers.Perm ((token, f) :: s.subscribers) := by
  rw [subscribe]
  split
  · exact .inl ⟨‹_›, rfl⟩
  · rename_i token h
    exact .inr ⟨token, h, rfl, freeToken_not_mem h, List.perm_orderedInsert _ _ _⟩

theorem unsubscribe_of_mem {s : Signal φ} {token : ℤ}
    (h : token ∈ s.subscribers.map Prod.fst) :
    (s.unsubscribe token).2 = true ∧
      (s.unsubscribe token).1.subscribers = s.subscribers.filter fun p => p.1 ≠ token := by
  rw [unsubscribe, if_pos h]
  exact ⟨rfl, rfl⟩

theorem unsubscribe_of_not_mem {s : Signal φ} {token : ℤ}
    (h : token ∉ s.subscribers.map Prod.fst) : s.unsubscribe token = (s, false) := by
  rw [unsubscribe, if_neg h]

/-- What is in the signal after an unsubscription. -/
theorem mem_unsubscribe (s : Signal φ) (token key : ℤ) (f : φ) :
    (key, f) ∈ (s.unsubscribe token).1.subscribers ↔
      (key, f) ∈ s.subscribers ∧ key ≠ token := by
  by_cases hmem : token ∈ s.subscribers.map Prod.fst
  · rw [(unsubscribe_of_mem hmem).2, List.mem_filter]
    simp
  · rw [unsubscribe_of_not_mem hmem]
    refine ⟨fun h => ⟨h, ?_⟩, fun h => h.1⟩
    rintro rfl
    exact hmem (List.mem_map_of_mem h)

/-- An unsubscription reports whether there was a subscriber. -/
theorem unsubscribe_eq_true_iff (s : Signal φ) (token : ℤ) :
    (s.unsubscribe token).2 = true ↔ ∃ f, (token, f) ∈ s.subscribers := by
  by_cases hmem : token ∈ s.subscribers.map Prod.fst
  · refine iff_of_true (unsubscribe_of_mem hmem).1 ?_
    obtain ⟨p, hp, rfl⟩ := List.mem_map.mp hmem
    exact ⟨p.2, hp⟩
  · rw [unsubscribe_of_not_mem hmem]
    refine iff_of_false Bool.false_ne_true ?_
    rintro ⟨f, hf⟩
    exact hmem (List.mem_map_of_mem hf)

end Signal

end UtilityFramework
