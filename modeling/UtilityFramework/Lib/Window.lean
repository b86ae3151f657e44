import Mathlib.Data.List.Infix

/-!
# Sliding windows

A window of length `k` over a list that is read element by element holds the last `k`
elements read; as long as fewer have been read, the places in front hold a filler.

* `window filler k l` is the window after `l` has been read.
* `setLast` and `shiftLeft` are the two operations by which a window is kept in place: the
  next element is put at the end, and once it has been looked at, the window is moved on by
  one place, the filler taking the place of the next element.
* `window_eq_iff` says when a window shows a word: the word is a suffix of what has been
  read, where the filler may stand for elements not read yet. `window_eq_iff_of_length_le`
  and `window_eq_iff_of_head?_ne` are the two cases in which the filler plays no part.
-/

namespace UtilityFramework

namespace Window

variable {α : Type*} {filler : α} {k : ℕ} {l d : List α}

/-- The last `k` elements of `l`, with the filler for those that are missing. -/
def window (filler : α) (k : ℕ) (l : List α) : List α :=
  (List.replicate k filler ++ l).drop l.length

/-- Put an element at the last place. -/
def setLast (w : List α) (a : α) : List α := w.dropLast ++ [a]

/-- Move every element one place to the left, and the filler to the last place. -/
def shiftLeft (filler : α) (w : List α) : List α := w.tail ++ [filler]

@[simp] theorem window_nil : window filler k [] = List.replicate k filler := by
  simp [window]

/-- The next element moves the window on by one place. -/
theorem window_append_singleton (hk : 0 < k) (a : α) :
    window filler k (l ++ [a]) = (window filler k l).tail ++ [a] := by
  have hlen : l.length + 1 ≤ (List.replicate k filler ++ l).length := by
    simp only [List.length_append, List.length_replicate]
    omega
  rw [window, window, List.tail_drop, List.length_append, List.length_singleton,
    ← List.append_assoc, List.drop_append_of_le_length hlen]

theorem setLast_shiftLeft_window (hk : 0 < k) (a : α) :
    setLast (shiftLeft filler (window filler k l)) a = window filler k (l ++ [a]) := by
  rw [setLast, shiftLeft, List.dropLast_concat, window_append_singleton hk]

/-- Before the first element, the window is as if it had just been moved on. -/
theorem shiftLeft_window_nil (hk : 0 < k) :
    shiftLeft filler (window filler k []) = List.replicate k filler := by
  rw [window_nil, shiftLeft, List.tail_replicate, ← List.replicate_succ',
    Nat.sub_add_cancel hk]

/-- The window shows a word that ends what has been read, fillers first. -/
theorem window_eq_iff :
    window filler d.length l = d ↔ d <:+ List.replicate d.length filler ++ l := by
  rw [List.suffix_iff_eq_drop, List.length_append, List.length_replicate,
    Nat.add_sub_cancel_left, window, eq_comm]

/-- Once enough has been read, the filler is out of the window. -/
theorem window_eq_iff_of_length_le (h : d.length ≤ l.length) :
    window filler d.length l = d ↔ d <:+ l := by
  rw [window_eq_iff]
  constructor
  · intro hd
    exact List.suffix_of_suffix_length_le hd (List.suffix_append _ l) h
  · intro hd
    exact hd.trans (List.suffix_append _ l)

theorem window_eq_of_suffix (h : d <:+ l) : window filler d.length l = d :=
  (window_eq_iff_of_length_le h.length_le).mpr h

/-- A word that does not begin with the filler is never completed by it. -/
theorem window_eq_iff_of_head?_ne (h : d.head? ≠ some filler) :
    window filler d.length l = d ↔ d <:+ l := by
  constructor
  · intro hd
    rcases Nat.lt_or_ge l.length d.length with hlt | hle
    · -- the first place of the window still holds the filler
      refine absurd ?_ h
      obtain ⟨m, hm⟩ : ∃ m, d.length = l.length + (m + 1) :=
        ⟨d.length - l.length - 1, by omega⟩
      rw [← hd, window, hm, List.replicate_add, List.append_assoc,
        List.drop_left' List.length_replicate, List.replicate_succ]
      rfl
    · exact (window_eq_iff_of_length_le hle).mp hd
  · exact window_eq_of_suffix

end Window

end UtilityFramework
