import Mathlib.Data.List.Nodup

/-!
# Nested layouts

Records with fields that may nest records, at any depth: a field has an offset in its record and
an extent, and a record that is nested in a field begins where the field does. A field at any
depth has a path, the names of the fields that lead to it, and a position, the sum of the offsets
along the path.

A record is `Sound` if its fields have distinct names, lie inside the record and do not overlap,
and what is nested in a field is not larger than the field. If all records of a tree are sound,
two fields none of which contains the other lie apart (`At.apart`), however deep they are.
-/

namespace UtilityFramework

/-- Records `R` with fields `F` that have names `K`. -/
structure Layout (R F K : Type*) where
  fields : R → List F
  size : R → ℕ
  name : F → K
  offset : F → ℕ
  extent : F → ℕ
  nested : F → Option R

namespace Layout

variable {R F K : Type*} {L : Layout R F K} {P Q : R → Prop} {r : R}

/-- The field `f` at the end of a path in the record `r`, which lies at `off`, has the
position `pos`. -/
inductive At (L : Layout R F K) : R → ℕ → List K → F → ℕ → Prop
  | here {r : R} {off : ℕ} {f : F} (hf : f ∈ L.fields r) :
    At L r off [L.name f] f (off + L.offset f)
  | nested {r n : R} {off pos : ℕ} {g f : F} {path : List K} (hg : g ∈ L.fields r)
    (hn : L.nested g = some n) (h : At L n (off + L.offset g) path f pos) :
    At L r off (L.name g :: path) f pos

/-- A record and all records nested in it satisfy `P`. -/
inductive Throughout (L : Layout R F K) (P : R → Prop) : R → Prop
  | intro {r : R} (here : P r)
    (nested : ∀ f ∈ L.fields r, ∀ n, L.nested f = some n → Throughout L P n) : Throughout L P r

theorem Throughout.here (h : L.Throughout P r) : P r := by
  obtain ⟨hr, -⟩ := h
  exact hr

theorem Throughout.of_nested (h : L.Throughout P r) {f : F} (hf : f ∈ L.fields r) {n : R}
    (hn : L.nested f = some n) : L.Throughout P n := by
  obtain ⟨-, hnested⟩ := h
  exact hnested f hf n hn

/-- A record that nests nothing. -/
theorem Throughout.of_flat (h : P r) (hflat : ∀ f ∈ L.fields r, L.nested f = none) :
    L.Throughout P r :=
  ⟨h, fun f hf n hn => absurd ((hflat f hf).symm.trans hn) (Option.some_ne_none n).symm⟩

/-- What follows in every record from a condition that is inherited by the nested records. -/
theorem Throughout.imp_of_inherited {I : R → Prop} (h : L.Throughout P r) (hI : I r)
    (hPQ : ∀ r, I r → P r → (∀ f ∈ L.fields r, ∀ n, L.nested f = some n → P n) → Q r)
    (hinherit : ∀ r, I r → ∀ f ∈ L.fields r, ∀ n, L.nested f = some n → I n) :
    L.Throughout Q r := by
  induction h with
  | intro hr hnested ih =>
    refine ⟨hPQ _ hI hr fun f hf n hn => (hnested f hf n hn).here, fun f hf n hn => ?_⟩
    exact ih f hf n hn (hinherit _ hI f hf n hn)

/-- The windows of two fields at the given positions have no byte in common. -/
def Apart (L : Layout R F K) (f : F) (pos : ℕ) (f' : F) (pos' : ℕ) : Prop :=
  pos + L.extent f ≤ pos' ∨ pos' + L.extent f' ≤ pos

/-- The fields of a record have distinct names, lie inside the record and apart from each other,
and hold what is nested in them. -/
structure Sound (L : Layout R F K) (r : R) : Prop where
  names : ((L.fields r).map L.name).Nodup
  inside : ∀ f ∈ L.fields r, L.offset f + L.extent f ≤ L.size r
  apart : ∀ f ∈ L.fields r, ∀ f' ∈ L.fields r, L.name f ≠ L.name f' →
    L.Apart f (L.offset f) f' (L.offset f')
  holds : ∀ f ∈ L.fields r, ∀ n, L.nested f = some n → L.size n ≤ L.extent f

/-- A field at any depth lies inside the record. -/
theorem At.inside {off pos : ℕ} {path : List K} {f : F} (h : L.At r off path f pos)
    (hsound : L.Throughout L.Sound r) : off ≤ pos ∧ pos + L.extent f ≤ off + L.size r := by
  induction h with
  | here hf =>
    have hin := hsound.here.inside _ hf
    omega
  | nested hg hn _ ih =>
    have hin := hsound.here.inside _ hg
    have hholds := hsound.here.holds _ hg _ hn
    have hdeep := ih (hsound.of_nested hg hn)
    omega

/-- What is nested in a field lies where the field does. -/
theorem At.inside_field {off pos : ℕ} {path : List K} {f g : F} {n : R}
    (h : L.At n (off + L.offset g) path f pos) (hsound : L.Throughout L.Sound r)
    (hg : g ∈ L.fields r) (hn : L.nested g = some n) :
    off + L.offset g ≤ pos ∧ pos + L.extent f ≤ off + L.offset g + L.extent g := by
  have hholds := hsound.here.holds g hg n hn
  have hin := h.inside (hsound.of_nested hg hn)
  omega

/-- **Fields lie apart.** Two fields at any depth, none of which contains the other, have no byte
in common. -/
theorem At.apart {off pos pos' : ℕ} {path path' : List K} {f f' : F}
    (h : L.At r off path f pos) (h' : L.At r off path' f' pos')
    (hsound : L.Throughout L.Sound r) (hpath : ¬ path <+: path') (hpath' : ¬ path' <+: path) :
    L.Apart f pos f' pos' := by
  induction h generalizing path' f' pos' with
  | @here r off f hf =>
    cases h' with
    | here hf' =>
      have hne : L.name f ≠ L.name f' := fun h => hpath ⟨[], by rw [h, List.append_nil]⟩
      have hapart := hsound.here.apart f hf f' hf' hne
      unfold Apart at hapart ⊢
      omega
    | @nested _ n _ _ g _ path' hg hn hdeep =>
      have hne : L.name f ≠ L.name g := fun h => hpath ⟨path', by rw [h, List.singleton_append]⟩
      have hapart := hsound.here.apart f hf g hg hne
      have hin := hdeep.inside_field hsound hg hn
      unfold Apart at hapart ⊢
      omega
  | @nested r n off pos g f path hg hn hdeep ih =>
    cases h' with
    | here hf' =>
      have hne : L.name g ≠ L.name f' := fun h => hpath' ⟨path, by rw [h, List.singleton_append]⟩
      have hapart := hsound.here.apart g hg f' hf' hne
      have hin := hdeep.inside_field hsound hg hn
      unfold Apart at hapart ⊢
      omega
    | @nested _ n' _ _ g' _ path' hg' hn' hdeep' =>
      by_cases hname : L.name g = L.name g'
      · -- the paths go on in the same field
        obtain rfl : g = g' := List.inj_on_of_nodup_map hsound.here.names hg hg' hname
        obtain rfl : n = n' := Option.some.inj (hn.symm.trans hn')
        refine ih hdeep' (hsound.of_nested hg hn) (fun h => hpath ?_) (fun h => hpath' ?_)
        · exact (List.cons_prefix_cons).mpr ⟨rfl, h⟩
        · exact (List.cons_prefix_cons).mpr ⟨rfl, h⟩
      · have hapart := hsound.here.apart g hg g' hg' hname
        have hin := hdeep.inside_field hsound hg hn
        have hin' := hdeep'.inside_field hsound hg' hn'
        unfold Apart at hapart ⊢
        omega

end Layout

end UtilityFramework
