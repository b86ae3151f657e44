import Mathlib.Data.Set.Lattice
import Mathlib.Order.CompletePartialOrder
import Mathlib.Order.Interval.Set.Defs
import UtilityFramework.Lib.Bytes

/-!
# Steps that stay in a part of a buffer

A step on a buffer that can fail is local to a set of positions if it changes nothing outside of
it, and if what it needs and what it establishes are determined by the entries there.
`LocalStep len W f C P` also says that it is exact: on a buffer of at least `len` entries, it ends
in a buffer with `P` precisely from those with `C`.

Steps local to disjoint sets can be run one after the other: together they are local, and exact
for all they need and all they establish (`LocalStep.runAll`). The steps it starts from write a
window, leave it as it is, or fail.
-/

namespace UtilityFramework

namespace LocalSteps

open Bytes

universe u

variable {α : Type u} {ι : Type*}

/-! ### Positions -/

/-- Two buffers of one length with the same entries at some positions. -/
def SameOn (W : Set ℕ) (b b' : List α) : Prop :=
  b'.length = b.length ∧ ∀ i ∈ W, b'[i]? = b[i]?

/-- The window of `n` positions that starts at `pos`. -/
def window (pos n : ℕ) : Set ℕ := Set.Ico pos (pos + n)

variable {b b' b'' : List α} {W W' : Set ℕ} {pos n len : ℕ}

theorem window_subset {pos' n' : ℕ} (hlo : pos' ≤ pos) (hhi : pos + n ≤ pos' + n') :
    window pos n ⊆ window pos' n' :=
  fun _ hi => ⟨hlo.trans hi.1, hi.2.trans_le hhi⟩

theorem disjoint_window {pos' n' : ℕ} (h : pos + n ≤ pos' ∨ pos' + n' ≤ pos) :
    Disjoint (window pos n) (window pos' n') := by
  refine Set.disjoint_left.mpr fun i ⟨hlo, hhi⟩ ⟨hlo', hhi'⟩ => ?_
  omega

/-- A window of a row of windows lies in the row. -/
theorem row_le {j count : ℕ} (hj : j < count) : j * n + n ≤ count * n := by
  rw [← Nat.succ_mul]
  exact Nat.mul_le_mul_right n hj

theorem SameOn.refl (W : Set ℕ) (b : List α) : SameOn W b b := ⟨rfl, fun _ _ => rfl⟩

theorem SameOn.symm (h : SameOn W b b') : SameOn W b' b :=
  ⟨h.1.symm, fun i hi => (h.2 i hi).symm⟩

theorem SameOn.trans (h : SameOn W b b') (h' : SameOn W b' b'') : SameOn W b b'' :=
  ⟨h'.1.trans h.1, fun i hi => (h'.2 i hi).trans (h.2 i hi)⟩

theorem SameOn.mono (h : SameOn W b b') (hsub : W' ⊆ W) : SameOn W' b b' :=
  ⟨h.1, fun i hi => h.2 i (hsub hi)⟩

theorem SameOn.slice_eq (h : SameOn (window pos n) b b') : slice b' pos n = slice b pos n := by
  refine List.ext_getElem? fun i => ?_
  rw [getElem?_slice, getElem?_slice]
  split_ifs with hi
  · exact h.2 (pos + i) ⟨by omega, by omega⟩
  · rfl

/-- Writing changes the window that is written. -/
theorem sameOn_compl_blit {src : List α} (hfit : pos + src.length ≤ b.length) :
    SameOn (window pos src.length)ᶜ b (blit b pos src) :=
  ⟨length_blit hfit, fun i hi => (getElem?_blit hfit i).trans (if_neg hi)⟩

/-! ### Steps -/

/-- The steps one after the other. -/
def runAll (f : ι → List α → Option (List α)) : List ι → List α → Option (List α)
  | [], b => some b
  | i :: is, b => (f i b).bind (runAll f is)

/-- Steps that cannot fail. -/
theorem runAll_some (g : ι → List α → List α) (is : List ι) (b : List α) :
    runAll (fun i b => some (g i b)) is b = some (is.foldl (fun b i => g i b) b) := by
  induction is generalizing b with
  | nil => rfl
  | cons i is ih => exact ih (g i b)

/-- Positions that every step leaves as they are stay as they are. -/
theorem sameOn_runAll {f : ι → List α → Option (List α)} {is : List ι}
    (h : ∀ i ∈ is, ∀ b b', len ≤ b.length → f i b = some b' → SameOn W b b')
    (hb : len ≤ b.length) (hrun : runAll f is b = some b') : SameOn W b b' := by
  induction is generalizing b with
  | nil =>
    obtain rfl := Option.some.inj hrun
    exact .refl W b
  | cons i is ih =>
    obtain ⟨b₁, hf, hrest⟩ := Option.bind_eq_some_iff.mp hrun
    have hfirst := h i List.mem_cons_self b b₁ hb hf
    exact hfirst.trans (ih (fun j hj => h j (List.mem_cons_of_mem i hj))
      (hb.trans_eq hfirst.1.symm) hrest)

/-- A step that stays in a set of positions, what it needs and what it establishes. -/
structure LocalStep (len : ℕ) (W : Set ℕ) (f : List α → Option (List α)) (C P : List α → Prop) :
    Prop where
  frame : ∀ b b', len ≤ b.length → f b = some b' → SameOn Wᶜ b b'
  exact : ∀ b, len ≤ b.length → ((∃ b', f b = some b' ∧ P b') ↔ C b)
  pre : ∀ b b', len ≤ b.length → SameOn W b b' → C b → C b'
  post : ∀ b b', len ≤ b.length → SameOn W b b' → P b → P b'

variable {f g : List α → Option (List α)} {C C' P P' : List α → Prop}

namespace LocalStep

/-- What is needed and established can be said in other words. -/
theorem congr (h : LocalStep len W f C P) (hC : ∀ b, len ≤ b.length → (C b ↔ C' b))
    (hP : ∀ b, len ≤ b.length → (P b ↔ P' b)) : LocalStep len W f C' P' where
  frame := h.frame
  exact b hb := by
    rw [← hC b hb, ← h.exact b hb]
    refine exists_congr fun b' => and_congr_right fun hf => ?_
    exact (hP b' (hb.trans_eq (h.frame b b' hb hf).1.symm)).symm
  pre b b' hb hsame hc :=
    (hC b' (hb.trans_eq hsame.1.symm)).mp (h.pre b b' hb hsame ((hC b hb).mpr hc))
  post b b' hb hsame hp :=
    (hP b' (hb.trans_eq hsame.1.symm)).mp (h.post b b' hb hsame ((hP b hb).mpr hp))

/-- The step can be computed in another way. -/
theorem of_eq (h : LocalStep len W f C P) (heq : ∀ b, len ≤ b.length → g b = f b) :
    LocalStep len W g C P where
  frame b b' hb hg := h.frame b b' hb (heq b hb ▸ hg)
  exact b hb := by
    rw [heq b hb]
    exact h.exact b hb
  pre := h.pre
  post := h.post

/-- In a larger set. -/
theorem widen (h : LocalStep len W f C P) (hsub : W ⊆ W') : LocalStep len W' f C P where
  frame b b' hb hf := (h.frame b b' hb hf).mono (Set.compl_subset_compl.mpr hsub)
  exact := h.exact
  pre b b' hb hsame := h.pre b b' hb (hsame.mono hsub)
  post b b' hb hsame := h.post b b' hb (hsame.mono hsub)

/-! ### Steps on a window -/

/-- A step that leaves a window as it is. -/
theorem skip (len pos n : ℕ) (P : List α → Prop) :
    LocalStep len (window pos n) some (fun b => P (slice b pos n)) fun b => P (slice b pos n) where
  frame b b' _ h := by
    obtain rfl := Option.some.inj h
    exact .refl _ b
  exact b _ := ⟨fun ⟨b', hb', hp⟩ => Option.some.inj hb' ▸ hp, fun hp => ⟨b, rfl, hp⟩⟩
  pre b b' _ hsame hp := by rwa [hsame.slice_eq]
  post b b' _ hsame hp := by rwa [hsame.slice_eq]

/-- A step that fails. -/
theorem fail (len pos n : ℕ) (P : List α → Prop) :
    LocalStep len (window pos n) (fun _ => none) (fun _ => False) fun b => P (slice b pos n) where
  frame b b' _ h := by cases h
  exact b _ := ⟨fun ⟨_, hb', _⟩ => (by cases hb'), False.elim⟩
  pre _ _ _ _ := id
  post b b' _ hsame hp := by rwa [hsame.slice_eq]

theorem slice_blit_append {src : List α} (hsize : src.length ≤ n) (hfit : pos + n ≤ b.length) :
    slice (blit b pos src) pos n = src ++ (slice b pos n).drop src.length := by
  refine List.ext_getElem? fun i => ?_
  rw [getElem?_slice, getElem?_blit (by omega)]
  rcases Nat.lt_or_ge i src.length with hi | hi
  · rw [if_pos (by omega), if_pos (by omega), List.getElem?_append_left hi, Nat.add_sub_cancel_left]
  · rw [List.getElem?_append_right hi, List.getElem?_drop, getElem?_slice,
      Nat.add_sub_cancel' hi]
    split_ifs with h₁ h₂
    · omega
    · rfl
    · rfl

/-- A step that writes the front of a window. -/
theorem write {src : List α} (hsize : src.length ≤ n) (hin : pos + n ≤ len)
    (P : List α → Prop) :
    LocalStep len (window pos n) (fun b => some (blit b pos src))
      (fun b => P (src ++ (slice b pos n).drop src.length)) fun b => P (slice b pos n) where
  frame b b' hb h := by
    obtain rfl := Option.some.inj h
    refine (sameOn_compl_blit (by omega)).mono (Set.compl_subset_compl.mpr ?_)
    exact window_subset le_rfl (by omega)
  exact b hb := by
    rw [← slice_blit_append hsize (by omega)]
    exact ⟨fun ⟨b', hb', hp⟩ => Option.some.inj hb' ▸ hp, fun hp => ⟨_, rfl, hp⟩⟩
  pre b b' _ hsame hp := by rwa [hsame.slice_eq]
  post b b' _ hsame hp := by rwa [hsame.slice_eq]

/-! ### Sequences -/

/-- **Two steps** in disjoint sets. -/
theorem bind (h : LocalStep len W f C P) (h' : LocalStep len W' g C' P')
    (hapart : Disjoint W W') :
    LocalStep len (W ∪ W') (fun b => (f b).bind g) (fun b => C b ∧ C' b)
      fun b => P b ∧ P' b where
  frame b b' hb hfg := by
    obtain ⟨b₁, hf, hg⟩ := Option.bind_eq_some_iff.mp hfg
    have hout := h.frame b b₁ hb hf
    have hout' := h'.frame b₁ b' (hb.trans_eq hout.1.symm) hg
    exact (hout.mono (Set.compl_subset_compl.mpr Set.subset_union_left)).trans
      (hout'.mono (Set.compl_subset_compl.mpr Set.subset_union_right))
  exact b hb := by
    constructor
    · rintro ⟨b', hfg, hp, hp'⟩
      obtain ⟨b₁, hf, hg⟩ := Option.bind_eq_some_iff.mp hfg
      have hout := h.frame b b₁ hb hf
      have hb₁ := hb.trans_eq hout.1.symm
      have hout' := h'.frame b₁ b' hb₁ hg
      refine ⟨(h.exact b hb).mp ⟨b₁, hf, ?_⟩, ?_⟩
      · -- the second step leaves the first set as it is
        exact h.post b' b₁ (hb₁.trans_eq hout'.1.symm)
          (hout'.mono hapart.subset_compl_right).symm hp
      · exact h'.pre b₁ b hb₁ (hout.mono hapart.subset_compl_left).symm
          ((h'.exact b₁ hb₁).mp ⟨b', hg, hp'⟩)
    · rintro ⟨hc, hc'⟩
      obtain ⟨b₁, hf, hp⟩ := (h.exact b hb).mpr hc
      have hout := h.frame b b₁ hb hf
      have hb₁ := hb.trans_eq hout.1.symm
      have hc₁ := h'.pre b b₁ hb (hout.mono hapart.subset_compl_left) hc'
      obtain ⟨b', hg, hp'⟩ := (h'.exact b₁ hb₁).mpr hc₁
      have hout' := h'.frame b₁ b' hb₁ hg
      refine ⟨b', Option.bind_eq_some_iff.mpr ⟨b₁, hf, hg⟩, ?_, hp'⟩
      exact h.post b₁ b' hb₁ (hout'.mono hapart.subset_compl_right) hp
  pre b b' hb hsame := fun ⟨hc, hc'⟩ =>
    ⟨h.pre b b' hb (hsame.mono Set.subset_union_left) hc,
      h'.pre b b' hb (hsame.mono Set.subset_union_right) hc'⟩
  post b b' hb hsame := fun ⟨hp, hp'⟩ =>
    ⟨h.post b b' hb (hsame.mono Set.subset_union_left) hp,
      h'.post b b' hb (hsame.mono Set.subset_union_right) hp'⟩

/-- **Many steps** in disjoint sets. -/
theorem runAll {W : ι → Set ℕ} {f : ι → List α → Option (List α)} {C P : ι → List α → Prop}
    {is : List ι} (h : ∀ i ∈ is, LocalStep len (W i) (f i) (C i) (P i))
    (hapart : is.Pairwise fun i j => Disjoint (W i) (W j)) :
    LocalStep len {x | ∃ i ∈ is, x ∈ W i} (LocalSteps.runAll f is) (fun b => ∀ i ∈ is, C i b)
      fun b => ∀ i ∈ is, P i b := by
  induction is with
  | nil =>
    refine ((skip len 0 0 fun _ => True).widen ?_).congr (fun _ _ => by simp) fun _ _ => by simp
    exact fun x hx => absurd hx.2 (by simp)
  | cons i is ih =>
    obtain ⟨hhead, htail⟩ := List.pairwise_cons.mp hapart
    have hrest := ih (fun j hj => h j (List.mem_cons_of_mem i hj)) htail
    have hdisjoint : Disjoint (W i) {x | ∃ j ∈ is, x ∈ W j} := by
      refine Set.disjoint_left.mpr fun x hx ⟨j, hj, hxj⟩ => ?_
      exact Set.disjoint_left.mp (hhead j hj) hx hxj
    refine (((h i List.mem_cons_self).bind hrest hdisjoint).widen ?_).congr ?_ ?_
    · rintro x (hx | ⟨j, hj, hxj⟩)
      · exact ⟨i, List.mem_cons_self, hx⟩
      · exact ⟨j, List.mem_cons_of_mem i hj, hxj⟩
    · exact fun b _ => (List.forall_mem_cons (p := fun j => C j b)).symm
    · exact fun b _ => (List.forall_mem_cons (p := fun j => P j b)).symm

/-- Writing all windows of a row. -/
theorem fill {src : List α} {count : ℕ} (hsize : src.length = n) (hin : pos + count * n ≤ len)
    (P : List α → Prop) :
    LocalStep len (window pos (count * n))
      (fun b => some ((List.range count).foldl (fun b j => blit b (pos + j * n) src) b))
      (fun _ => ∀ j < count, P src) fun b => ∀ j < count, P (slice b (pos + j * n) n) := by
  have hsteps : LocalStep len {x | ∃ j ∈ List.range count, x ∈ window (pos + j * n) n}
      (LocalSteps.runAll (fun j b => some (blit b (pos + j * n) src)) (List.range count))
      (fun b => ∀ j ∈ List.range count, P (src ++ (slice b (pos + j * n) n).drop src.length))
      fun b => ∀ j ∈ List.range count, P (slice b (pos + j * n) n) := by
    refine runAll (fun j hj => write hsize.le ?_ P) ?_
    · have := row_le (n := n) (List.mem_range.mp hj)
      omega
    · refine (List.pairwise_lt_range).imp fun {i j} hij => disjoint_window (Or.inl ?_)
      have := row_le (n := n) hij
      omega
  refine ((hsteps.of_eq fun b _ => (runAll_some _ _ b).symm).widen ?_).congr ?_ ?_
  · rintro x ⟨j, hj, hx⟩
    have := row_le (n := n) (List.mem_range.mp hj)
    exact window_subset (by omega) (by omega) hx
  · intro b hb
    have hall (j : ℕ) (hj : j < count) :
        src ++ (slice b (pos + j * n) n).drop src.length = src := by
      have := row_le (n := n) hj
      rw [List.drop_eq_nil_of_le, List.append_nil]
      rw [length_slice (by omega), hsize]
    constructor
    · intro h j hj
      rw [← hall j hj]
      exact h j (List.mem_range.mpr hj)
    · intro h j hj
      rw [hall j (List.mem_range.mp hj)]
      exact h j (List.mem_range.mp hj)
  · exact fun b _ => ⟨fun h j hj => h j (List.mem_range.mpr hj),
      fun h j hj => h j (List.mem_range.mp hj)⟩

/-! ### Copies of a window -/

/-- Copies of the window of `n` entries at `pos` into the `count` windows behind it. -/
def copies (pos n : ℕ) (count : ℕ) (b : List α) : List α :=
  (List.range count).foldl (fun b' j => blit b' (pos + (j + 1) * n) (slice b pos n)) b

theorem copies_succ (pos n count : ℕ) (b : List α) :
    copies pos n (count + 1) b =
      blit (copies pos n count b) (pos + (count + 1) * n) (slice b pos n) := by
  rw [copies, List.range_succ, List.foldl_append]
  rfl

theorem sameOn_copies {count : ℕ} (hfit : pos + (count + 1) * n ≤ b.length) :
    SameOn (window (pos + n) (count * n))ᶜ b (copies pos n count b) := by
  induction count with
  | zero => exact .refl _ b
  | succ count ih =>
    have hmul : (count + 1 + 1) * n = (count + 1) * n + n := Nat.succ_mul _ _
    have hmul' : (count + 1) * n = count * n + n := Nat.succ_mul _ _
    have hprev := ih (by omega)
    have hlen : (slice b pos n).length = n := length_slice (by omega)
    rw [copies_succ]
    refine (hprev.mono (Set.compl_subset_compl.mpr (window_subset le_rfl (by omega)))).trans ?_
    refine (sameOn_compl_blit (by rw [hlen, hprev.1]; omega)).mono
      (Set.compl_subset_compl.mpr ?_)
    exact window_subset (by omega) (by omega)

/-- The window and its copies have the same entries. -/
theorem slice_copies {count j : ℕ} (hj : j ≤ count) (hfit : pos + (count + 1) * n ≤ b.length) :
    slice (copies pos n count b) (pos + j * n) n = slice b pos n := by
  induction count with
  | zero =>
    obtain rfl : j = 0 := Nat.le_zero.mp hj
    rw [Nat.zero_mul, Nat.add_zero]
    rfl
  | succ count ih =>
    have hmul : (count + 1 + 1) * n = (count + 1) * n + n := Nat.succ_mul _ _
    have hmul' : (count + 1) * n = count * n + n := Nat.succ_mul _ _
    have hlen : (slice b pos n).length = n := length_slice (by omega)
    have hprev : (copies pos n count b).length = b.length := (sameOn_copies (by omega)).1
    rw [copies_succ]
    rcases Nat.lt_or_ge j (count + 1) with hlt | hge
    · have hle : j * n + n ≤ (count + 1) * n := row_le hlt
      rw [slice_blit_of_apart (by rw [hlen, hprev]; omega) (Or.inr (by omega))]
      exact ih (by omega) (by omega)
    · obtain rfl : j = count + 1 := by omega
      have hself : slice (blit (copies pos n count b) (pos + (count + 1) * n) (slice b pos n))
          (pos + (count + 1) * n) (slice b pos n).length = slice b pos n :=
        slice_blit_self (by rw [hlen, hprev]; omega)
      rwa [hlen] at hself

/-- **A step and copies of its window**, which then have what it establishes. -/
theorem withCopies {P : List α → Prop} {count : ℕ}
    (h : LocalStep len (window pos n) f C fun b => P (slice b pos n))
    (hin : pos + (count + 1) * n ≤ len) :
    LocalStep len (window pos ((count + 1) * n)) (fun b => (f b).map (copies pos n count)) C
      fun b => ∀ j < count + 1, P (slice b (pos + j * n) n) where
  frame b b' hb hrun := by
    have hmul : (count + 1) * n = count * n + n := Nat.succ_mul _ _
    obtain ⟨b₁, hf, rfl⟩ := Option.map_eq_some_iff.mp hrun
    have hout := h.frame b b₁ hb hf
    have hlen := hout.1
    refine (hout.mono (Set.compl_subset_compl.mpr (window_subset le_rfl (by omega)))).trans ?_
    refine (sameOn_copies (by omega)).mono (Set.compl_subset_compl.mpr ?_)
    exact window_subset (by omega) (by omega)
  exact b hb := by
    rw [← h.exact b hb]
    constructor
    · rintro ⟨b', hrun, hp⟩
      obtain ⟨b₁, hf, rfl⟩ := Option.map_eq_some_iff.mp hrun
      have hlen := (h.frame b b₁ hb hf).1
      have hfirst := hp 0 (Nat.succ_pos count)
      rw [slice_copies (Nat.zero_le count) (by omega)] at hfirst
      exact ⟨b₁, hf, hfirst⟩
    · rintro ⟨b₁, hf, hp⟩
      have hlen := (h.frame b b₁ hb hf).1
      refine ⟨_, Option.map_eq_some_iff.mpr ⟨b₁, hf, rfl⟩, fun j hj => ?_⟩
      rwa [slice_copies (Nat.le_of_lt_succ hj) (by omega)]
  pre b b' hb hsame := by
    have hmul : (count + 1) * n = count * n + n := Nat.succ_mul _ _
    exact h.pre b b' hb (hsame.mono (window_subset le_rfl (by omega)))
  post b b' _ hsame hp j hj := by
    have hle : j * n + n ≤ (count + 1) * n := row_le hj
    rw [(hsame.mono (window_subset (by omega) (by omega))).slice_eq]
    exact hp j hj

end LocalStep

end LocalSteps

end UtilityFramework
