import Mathlib.Data.List.Basic

/-!
# Frames on a stream

A format of frames writes a value as a list, and reads it off the front of a list that goes on.
A `Framing` reads what it writes, and what it has read once it reads also when more arrives; so
it reads nothing from a frame that is not complete yet. Whoever reads frame by frame what has
arrived so far, `readAll`, finds the frames that have arrived as a whole, and no others
(`readAll_flatMap_append`).
-/

namespace UtilityFramework

universe u v

/-- A format of frames, for the values that are `Valid`. -/
structure Framing (α : Type u) (β : Type v) where
  Valid : α → Prop
  encode : α → List β
  decode : List β → Option (α × List β)
  decode_nil : decode [] = none
  decode_encode : ∀ a rest, Valid a → decode (encode a ++ rest) = some (a, rest)
  decode_append : ∀ a p rest q, decode p = some (a, rest) → decode (p ++ q) = some (a, rest ++ q)

namespace Framing

variable {α : Type u} {β : Type v} (F : Framing α β)

/-- At most `n` frames. -/
def readFrom : ℕ → List β → List α
  | 0, _ => []
  | n + 1, stream =>
    match F.decode stream with
    | none => []
    | some (a, rest) => a :: readFrom n rest

/-- The frames that can be read. -/
def readAll (stream : List β) : List α := F.readFrom stream.length stream

variable {F} {a : α} {l : List α} {p rest : List β} {n : ℕ}

theorem encode_ne_nil (ha : F.Valid a) : F.encode a ≠ [] := by
  intro h
  have := F.decode_encode a [] ha
  rw [h, List.append_nil, F.decode_nil] at this
  cases this

/-- A frame that is not complete is not read. -/
theorem decode_incomplete (ha : F.Valid a) (hp : p <+: F.encode a) (hne : p ≠ F.encode a) :
    F.decode p = none := by
  obtain ⟨q, hq⟩ := hp
  cases h : F.decode p with
  | none => rfl
  | some r =>
    have happ := F.decode_append r.1 p r.2 q h
    have hwhole := F.decode_encode a [] ha
    rw [List.append_nil, ← hq, happ, Option.some.injEq, Prod.mk.injEq,
      List.append_eq_nil_iff] at hwhole
    rw [hwhole.2.2, List.append_nil] at hq
    exact absurd hq hne

theorem readFrom_of_decode_eq_none (h : F.decode rest = none) (n : ℕ) :
    F.readFrom n rest = [] := by
  cases n with
  | zero => rfl
  | succ n => rw [readFrom, h]

theorem readFrom_encode_append (ha : F.Valid a) (n : ℕ) (rest : List β) :
    F.readFrom (n + 1) (F.encode a ++ rest) = a :: F.readFrom n rest := by
  rw [readFrom, F.decode_encode a rest ha]

/-- Frames that have arrived, and a part of the next. -/
theorem readFrom_flatMap_append (hl : ∀ a ∈ l, F.Valid a) (ha : F.Valid a)
    (hp : p <+: F.encode a) [Decidable (p = F.encode a)]
    (hn : (l.flatMap F.encode ++ p).length ≤ n) :
    F.readFrom n (l.flatMap F.encode ++ p) = l ++ if p = F.encode a then [a] else [] := by
  induction l generalizing n with
  | nil =>
    rw [List.flatMap_nil, List.nil_append] at hn ⊢
    split_ifs with hwhole
    · have hpos := List.length_pos_iff.mpr (encode_ne_nil ha)
      obtain ⟨n, rfl⟩ := Nat.exists_eq_succ_of_ne_zero (n := n) (by rw [hwhole] at hn; omega)
      rw [hwhole, ← List.append_nil (F.encode a), readFrom_encode_append ha,
        readFrom_of_decode_eq_none F.decode_nil, List.nil_append]
    · exact readFrom_of_decode_eq_none (decode_incomplete ha hp hwhole) n
  | cons b l ih =>
    rw [List.forall_mem_cons] at hl
    rw [List.flatMap_cons, List.append_assoc, List.length_append] at hn
    have hpos := List.length_pos_iff.mpr (encode_ne_nil hl.1)
    obtain ⟨n, rfl⟩ := Nat.exists_eq_succ_of_ne_zero (n := n) (by omega)
    rw [List.flatMap_cons, List.append_assoc, readFrom_encode_append hl.1,
      ih hl.2 (by omega), List.cons_append]

/-- **What can be read** of frames that have arrived and of a part of the next. -/
theorem readAll_flatMap_append (hl : ∀ a ∈ l, F.Valid a) (ha : F.Valid a)
    (hp : p <+: F.encode a) [Decidable (p = F.encode a)] :
    F.readAll (l.flatMap F.encode ++ p) = l ++ if p = F.encode a then [a] else [] :=
  readFrom_flatMap_append hl ha hp (Nat.le_refl _)

theorem readAll_flatMap (hl : ∀ a ∈ l, F.Valid a) : F.readAll (l.flatMap F.encode) = l := by
  have hfrom : ∀ n, (l.flatMap F.encode).length ≤ n → F.readFrom n (l.flatMap F.encode) = l := by
    induction l with
    | nil => exact fun n _ => readFrom_of_decode_eq_none F.decode_nil n
    | cons b l ih =>
      intro n hn
      rw [List.forall_mem_cons] at hl
      rw [List.flatMap_cons, List.length_append] at hn
      have hpos := List.length_pos_iff.mpr (encode_ne_nil hl.1)
      obtain ⟨n, rfl⟩ := Nat.exists_eq_succ_of_ne_zero (n := n) (by omega)
      rw [List.flatMap_cons, readFrom_encode_append hl.1, ih hl.2 n (by omega)]
  exact hfrom _ (Nat.le_refl _)

end Framing

end UtilityFramework
