import Mathlib.Data.List.Basic

/-!
# Computations that log

A computation logs entries on its way and gives a value, unless it is aborted. Of the log it is
asked whether all its entries have a property; `all_bind` takes a computation apart, together
with `result_bind`.
-/

namespace UtilityFramework

universe u v

/-- The entries that a computation has logged, and its value, if it has not been aborted. -/
structure Logged (κ : Type u) (α : Type v) where
  log : List κ
  result : Option α

namespace Logged

variable {κ : Type u} {α β : Type v}

instance : Monad (Logged κ) where
  pure a := ⟨[], some a⟩
  bind x f :=
    match x.result with
    | none => ⟨x.log, none⟩
    | some a => ⟨x.log ++ (f a).log, (f a).result⟩

/-- Logging an entry. -/
def record (k : κ) : Logged κ PUnit := ⟨[k], some ⟨⟩⟩

/-- The computation that is aborted at once. -/
def abort : Logged κ α := ⟨[], none⟩

/-- Going on only if a condition holds. -/
def require (p : Prop) [Decidable p] : Logged κ PUnit := if p then pure ⟨⟩ else abort

/-- All entries have the property. -/
def All (P : κ → Prop) (x : Logged κ α) : Prop := ∀ k ∈ x.log, P k

variable {P : κ → Prop}

@[simp] theorem result_record (k : κ) : (record k : Logged κ PUnit.{v + 1}).result = some ⟨⟩ := rfl

@[simp] theorem result_bind (x : Logged κ α) (f : α → Logged κ β) :
    (x >>= f).result = x.result.bind fun a => (f a).result := by
  obtain ⟨log, result⟩ := x
  cases result with
  | none => rfl
  | some a => rfl

theorem result_require_eq_some {p : Prop} [Decidable p] {u : PUnit.{v + 1}} :
    (require p : Logged κ PUnit).result = some u ↔ p := by
  rw [require]
  split_ifs with h
  · exact iff_of_true rfl h
  · exact iff_of_false (by rintro ⟨⟩) h

/-- A computation after a condition gives a value. -/
theorem isSome_require_bind (p : Prop) [Decidable p] (f : PUnit.{v + 1} → Logged κ α) :
    (require p >>= f).result.isSome ↔ p ∧ (f ⟨⟩).result.isSome := by
  rw [result_bind, require]
  split_ifs with h
  · exact (and_iff_right h).symm
  · exact iff_of_false (by rintro ⟨⟩) fun hf => h hf.1

@[simp] theorem all_pure (a : α) : (pure a : Logged κ α).All P ↔ True :=
  iff_true_intro fun _ h => absurd h List.not_mem_nil

@[simp] theorem all_abort : (abort : Logged κ α).All P ↔ True :=
  iff_true_intro fun _ h => absurd h List.not_mem_nil

@[simp] theorem all_record (k : κ) : (record k : Logged κ PUnit.{v + 1}).All P ↔ P k :=
  List.forall_mem_singleton

@[simp] theorem all_require (p : Prop) [Decidable p] :
    (require p : Logged κ PUnit.{v + 1}).All P ↔ True := by
  rw [require]
  split_ifs
  · exact all_pure _
  · exact all_abort

/-- The entries of two computations, the second of which depends on the value of the first. -/
theorem all_bind (x : Logged κ α) (f : α → Logged κ β) :
    (x >>= f).All P ↔ x.All P ∧ ∀ a, x.result = some a → (f a).All P := by
  obtain ⟨log, result⟩ := x
  cases result with
  | none => exact ⟨fun h => ⟨h, by rintro a ⟨⟩⟩, fun h => h.1⟩
  | some a =>
    refine List.forall_mem_append.trans (and_congr_right fun _ => ?_)
    constructor
    · intro h b hb
      obtain rfl := Option.some.inj hb
      exact h
    · exact fun h => h a rfl

/-- The entries of a computation after a condition. -/
theorem all_require_bind (p : Prop) [Decidable p] (f : PUnit.{v + 1} → Logged κ α) :
    (require p >>= f).All P ↔ (p → (f ⟨⟩).All P) := by
  rw [all_bind, all_require, true_and]
  constructor
  · exact fun h hp => h ⟨⟩ (result_require_eq_some.mpr hp)
  · exact fun h _ hu => h (result_require_eq_some.mp hu)

/-- The entries of a computation after an entry. -/
theorem all_record_bind (k : κ) (f : PUnit.{v + 1} → Logged κ α) :
    (record k >>= f).All P ↔ P k ∧ (f ⟨⟩).All P := by
  rw [all_bind, all_record]
  refine and_congr_right fun _ => ⟨fun h => h ⟨⟩ rfl, fun h u _ => h⟩

/-- A value in the place of the one given adds no entries. -/
@[simp] theorem all_bind_pure (x : Logged κ α) (b : β) :
    (x >>= fun _ => pure b).All P ↔ x.All P := by
  rw [all_bind]
  exact and_iff_left fun _ _ => (all_pure b).mpr trivial

end Logged

end UtilityFramework
