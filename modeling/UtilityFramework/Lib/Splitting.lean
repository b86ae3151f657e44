import Mathlib.Data.List.Basic
import Mathlib.Data.List.Infix

/-!
# Splitting at a word

`find word s pos` is the first place from `pos` on at which a word stands in a list. Cutting a
list at the leftmost occurrence of a word, and the rest in the same way, gives its `Pieces`: the
occurrences that are cut out do not overlap. A word that is not empty decomposes every list in
one way (`exists_pieces`, `Pieces.unique`).
-/

namespace UtilityFramework

namespace Splitting

universe u

variable {α : Type u}

section Find

variable [DecidableEq α]

/-- The first place from `pos` on at which `word` stands in `s`. -/
def find (word s : List α) (pos : ℕ) : Option ℕ :=
  (List.range (s.length + 1)).find? fun i => decide (pos ≤ i ∧ word <+: s.drop i)

variable {word s : List α} {pos i : ℕ}

theorem find_eq_some_iff :
    find word s pos = some i ↔ (pos ≤ i ∧ i ≤ s.length ∧ word <+: s.drop i) ∧
      ∀ j, pos ≤ j → j < i → ¬word <+: s.drop j := by
  rw [find, List.find?_range_eq_some]
  simp only [decide_eq_true_eq, List.mem_range, Nat.lt_succ_iff, Bool.not_eq_true',
    decide_eq_false_iff_not, not_and]
  constructor
  · rintro ⟨⟨hpos, hword⟩, hlen, hfirst⟩
    exact ⟨⟨hpos, hlen, hword⟩, fun j hj hji => hfirst j hji hj⟩
  · rintro ⟨⟨hpos, hlen, hword⟩, hfirst⟩
    exact ⟨⟨hpos, hword⟩, hlen, fun j hji hj => hfirst j hj hji⟩

theorem find_eq_none_iff :
    find word s pos = none ↔ ∀ i, pos ≤ i → i ≤ s.length → ¬word <+: s.drop i := by
  rw [find, List.find?_eq_none]
  simp only [List.mem_range, Nat.lt_succ_iff, decide_eq_true_eq, not_and]
  exact ⟨fun h i hpos hlen => h i hlen hpos, fun h i hlen hpos => h i hpos hlen⟩

/-- Looking behind a list that has been read. -/
theorem find_append (pre : List α) (word s : List α) (pos : ℕ) :
    find word (pre ++ s) (pre.length + pos) = (find word s pos).map (pre.length + ·) := by
  have hdrop : ∀ i, (pre ++ s).drop (pre.length + i) = s.drop i := fun i => by
    rw [← List.drop_drop, List.drop_left]
  cases hfind : find word s pos with
  | none =>
    rw [find_eq_none_iff] at hfind
    rw [Option.map_none, find_eq_none_iff]
    intro i hpos hlen
    obtain ⟨k, rfl⟩ := Nat.exists_eq_add_of_le (Nat.le_of_add_right_le hpos)
    rw [hdrop]
    rw [List.length_append] at hlen
    exact hfind k (by omega) (by omega)
  | some i =>
    obtain ⟨⟨hpos, hlen, hword⟩, hfirst⟩ := find_eq_some_iff.mp hfind
    rw [Option.map_some, find_eq_some_iff, hdrop, List.length_append]
    refine ⟨⟨by omega, by omega, hword⟩, fun j hj hji => ?_⟩
    obtain ⟨k, rfl⟩ := Nat.exists_eq_add_of_le (Nat.le_of_add_right_le hj)
    rw [hdrop]
    exact hfirst k (by omega) (by omega)

/-- Looking for a letter. -/
theorem find_singleton_of_not_mem {d : α} {t : List α} (hd : d ∉ t) (rest : List α) :
    find [d] (t ++ d :: rest) 0 = some t.length := by
  rw [find_eq_some_iff]
  refine ⟨⟨Nat.zero_le _, ?_, ?_⟩, fun j _ hj hword => ?_⟩
  · rw [List.length_append]
    exact Nat.le_add_right _ _
  · rw [List.drop_left]
    exact ⟨rest, rfl⟩
  · -- the letter would be one of `t`
    rw [List.drop_append_of_le_length hj.le, List.drop_eq_getElem_cons hj] at hword
    have hhead : d = t[j] := (List.cons_prefix_cons.mp hword).1
    exact hd (hhead ▸ List.getElem_mem hj)

theorem find_singleton_eq_none {d : α} {t : List α} (hd : d ∉ t) : find [d] t 0 = none := by
  rw [find_eq_none_iff]
  intro i _ _ hword
  exact hd (List.mem_of_mem_drop (hword.subset (List.mem_singleton_self d)))

end Find

/-! ### Pieces -/

/-- The leftmost decomposition of a list by a word into the pieces between its occurrences. -/
inductive Pieces (word : List α) : List α → List (List α) → Prop
  | last {s : List α} (hword : ¬word <:+: s) : Pieces word s [s]
  | cons {p rest : List α} {ps : List (List α)}
      (hfirst : ∀ i < p.length, ¬word <+: (p ++ word ++ rest).drop i)
      (hrest : Pieces word rest ps) : Pieces word (p ++ word ++ rest) (p :: ps)

variable {word s : List α} {ps : List (List α)}

theorem not_infix_of_find_eq_none [DecidableEq α] (h : find word s 0 = none) :
    ¬word <:+: s := by
  rintro ⟨p, rest, rfl⟩
  rw [find_eq_none_iff] at h
  refine h p.length (Nat.zero_le _) ?_ ?_
  · rw [List.append_assoc, List.length_append]
    exact Nat.le_add_right _ _
  · rw [List.append_assoc, List.drop_left]
    exact List.prefix_append _ _

theorem find_eq_none_of_not_infix [DecidableEq α] (h : ¬word <:+: s) : find word s 0 = none := by
  rw [find_eq_none_iff]
  intro i _ _ hword
  exact h (hword.isInfix.trans (List.drop_suffix i s).isInfix)

theorem find_pieces [DecidableEq α] {p rest : List α}
    (hfirst : ∀ i < p.length, ¬word <+: (p ++ word ++ rest).drop i) :
    find word (p ++ word ++ rest) 0 = some p.length := by
  rw [find_eq_some_iff]
  refine ⟨⟨Nat.zero_le _, ?_, ?_⟩, fun j _ hj => hfirst j hj⟩
  · rw [List.append_assoc, List.length_append]
    exact Nat.le_add_right _ _
  · rw [List.append_assoc, List.drop_left]
    exact List.prefix_append _ _

/-- Every list has a decomposition, by induction on its length: the rest behind an occurrence
is shorter. -/
theorem exists_pieces (hword : word ≠ []) (s : List α) : ∃ ps, Pieces word s ps := by
  classical
  induction hn : s.length using Nat.strong_induction_on generalizing s with
  | _ n ih =>
    subst hn
    cases hfind : find word s 0 with
    | none => exact ⟨[s], .last (not_infix_of_find_eq_none hfind)⟩
    | some i =>
      obtain ⟨⟨-, hlen, rest, hrest⟩, hfirst⟩ := find_eq_some_iff.mp hfind
      have hs : s.take i ++ word ++ rest = s := by
        rw [List.append_assoc, hrest, List.take_append_drop]
      have hpos : 0 < word.length := List.length_pos_iff.mpr hword
      have hshort : rest.length < s.length := by
        have hlength := congrArg List.length hs
        rw [List.length_append, List.length_append] at hlength
        omega
      obtain ⟨ps, hps⟩ := ih rest.length hshort rest rfl
      have hpieces : Pieces word (s.take i ++ word ++ rest) (s.take i :: ps) := by
        refine .cons (fun j hj => ?_) hps
        rw [hs]
        exact hfirst j (Nat.zero_le j) (Nat.lt_of_lt_of_le hj (List.length_take_le i s))
      rw [hs] at hpieces
      exact ⟨_, hpieces⟩

/-- What a decomposition begins with. -/
theorem Pieces.inv (h : Pieces word s ps) :
    (¬word <:+: s ∧ ps = [s]) ∨ ∃ p rest ps', s = p ++ word ++ rest ∧
      (∀ i < p.length, ¬word <+: s.drop i) ∧ Pieces word rest ps' ∧ ps = p :: ps' := by
  cases h with
  | last hword => exact .inl ⟨hword, rfl⟩
  | cons hfirst hrest => exact .inr ⟨_, _, _, rfl, hfirst, hrest, rfl⟩

theorem Pieces.unique {ps' : List (List α)} (h : Pieces word s ps) (h' : Pieces word s ps') :
    ps = ps' := by
  classical
  induction h generalizing ps' with
  | last hword =>
    obtain ⟨-, rfl⟩ | ⟨p, rest, qs, rfl, -⟩ := h'.inv
    · rfl
    · exact absurd ⟨p, rest, rfl⟩ hword
  | @cons p rest ps hfirst hrest ih =>
    obtain ⟨hword, -⟩ | ⟨p', rest', qs, hs, hfirst', hrest', rfl⟩ := h'.inv
    · exact absurd ⟨p, rest, rfl⟩ hword
    · -- both begin with what stands before the first occurrence
      have hfind := find_pieces hfirst
      rw [hs] at hfirst' hfind
      have hlen : p'.length = p.length :=
        Option.some.inj ((find_pieces hfirst').symm.trans hfind)
      rw [List.append_assoc, List.append_assoc] at hs
      obtain ⟨rfl, -⟩ := List.append_inj hs hlen.symm
      obtain rfl := List.append_cancel_left (List.append_cancel_left hs)
      rw [ih hrest']

/-- The only decomposition of the empty list. -/
theorem Pieces.of_nil (hword : word ≠ []) (h : Pieces word [] ps) : ps = [[]] := by
  refine h.unique (.last fun hinfix => hword ?_)
  exact List.infix_nil.mp hinfix

/-- Lists without a letter are the pieces of their join. -/
theorem pieces_intercalate {d : α} {tokens : List (List α)} (hne : tokens ≠ [])
    (hd : ∀ t ∈ tokens, d ∉ t) : Pieces [d] (List.intercalate [d] tokens) tokens := by
  classical
  induction tokens with
  | nil => exact absurd rfl hne
  | cons t tokens ih =>
    have ht := hd t List.mem_cons_self
    have hrest : ∀ u ∈ tokens, d ∉ u := fun u hu => hd u (List.mem_cons_of_mem t hu)
    cases tokens with
    | nil =>
      rw [List.intercalate_singleton]
      refine .last fun hinfix => ht ?_
      exact hinfix.subset (List.mem_singleton_self d)
    | cons u tokens =>
      rw [List.intercalate_cons_cons]
      refine .cons (fun i hi => ?_) (ih (List.cons_ne_nil u tokens) hrest)
      have hfind := find_singleton_of_not_mem ht (List.intercalate [d] (u :: tokens))
      rw [List.append_assoc]
      exact (find_eq_some_iff.mp hfind).2 i (Nat.zero_le i) hi

/-- Cutting at a letter is `List.splitOn`. -/
theorem Pieces.splitOn_eq [DecidableEq α] {d : α} (h : Pieces [d] s ps) : s.splitOn d = ps := by
  generalize hword : [d] = word at h
  induction h with
  | @last s hnot =>
    subst hword
    refine List.splitOn_eq_singleton fun hmem => hnot ?_
    obtain ⟨p, rest, rfl⟩ := List.append_of_mem hmem
    exact ⟨p, rest, by simp⟩
  | @cons p rest ps hfirst _ ih =>
    subst hword
    have hp : d ∉ p := by
      intro hmem
      obtain ⟨a, b, rfl⟩ := List.append_of_mem hmem
      refine hfirst a.length (by simp) ⟨b ++ [d] ++ rest, ?_⟩
      simp
    rw [List.append_assoc, List.singleton_append, List.splitOn_append_cons_self_of_not_mem hp,
      ih]

end Splitting

end UtilityFramework
