import Mathlib.Data.List.Count

/-!
# Reader/writer locks and those who hold them

`SharableMutex` is a reader/writer lock that is not recursive: it is held exclusively or it is
held by a number of sharers. An attempt to take it may also fail for reasons of its own, and
its argument `contended` says that this one does.

Where each holder keeps a note of the way in which it holds the lock, the lock and the notes
say the same thing twice. `HeldBy m w r` states that they agree: `w` holders think that they
hold `m` exclusively and `r` that they share it. The four rules `HeldBy.tryLock`,
`HeldBy.unlock`, `HeldBy.tryLockSharable` and `HeldBy.unlockSharable` keep it, provided that
only a holder gives the lock back, and it gives exclusion (`HeldBy.le_one`,
`HeldBy.eq_zero_of_pos`).
-/

namespace UtilityFramework

structure SharableMutex where
  exclusive : Bool
  sharable : ℕ
  deriving DecidableEq

namespace SharableMutex

/-- Nobody holds the lock. -/
def free : SharableMutex := ⟨false, 0⟩

def tryLock (m : SharableMutex) (contended : Bool) : Option SharableMutex :=
  if contended || m.exclusive || m.sharable != 0 then none else some { m with exclusive := true }

def unlock (m : SharableMutex) : SharableMutex := { m with exclusive := false }

def tryLockSharable (m : SharableMutex) (contended : Bool) : Option SharableMutex :=
  if contended || m.exclusive then none else some { m with sharable := m.sharable + 1 }

def unlockSharable (m : SharableMutex) : SharableMutex := { m with sharable := m.sharable - 1 }

/-- `w` holders hold `m` exclusively and `r` share it. -/
structure HeldBy (m : SharableMutex) (w r : ℕ) : Prop where
  exclusive : w = m.exclusive.toNat
  sharable : r = m.sharable
  alone : m.exclusive = true → r = 0

variable {m m' : SharableMutex} {contended : Bool} {w r : ℕ}

theorem heldBy_free : free.HeldBy 0 0 := ⟨rfl, rfl, fun _ => rfl⟩

/-- The lock is taken exclusively from nobody. -/
theorem tryLock_eq_some_iff :
    m.tryLock contended = some m' ↔ (contended = false ∧ m = free) ∧ m' = ⟨true, 0⟩ := by
  obtain ⟨exclusive, sharable⟩ := m
  rw [tryLock, Option.ite_none_left_eq_some]
  simp only [Bool.or_eq_true, not_or, Bool.not_eq_true, bne_eq_false_iff_eq, free,
    SharableMutex.mk.injEq, Option.some.injEq]
  constructor
  · rintro ⟨⟨⟨hcontended, hexclusive⟩, rfl⟩, rfl⟩
    exact ⟨⟨hcontended, hexclusive, rfl⟩, rfl⟩
  · rintro ⟨⟨hcontended, hexclusive, rfl⟩, rfl⟩
    exact ⟨⟨⟨hcontended, hexclusive⟩, rfl⟩, rfl⟩

theorem sharable_of_tryLockSharable (hm : m.tryLockSharable contended = some m') :
    m'.sharable = m.sharable + 1 := by
  rw [tryLockSharable, Option.ite_none_left_eq_some] at hm
  exact congrArg sharable (Option.some.inj hm.2).symm

theorem HeldBy.tryLock (h : m.HeldBy w r) (hm : m.tryLock contended = some m') :
    m'.HeldBy (w + 1) r := by
  obtain ⟨rfl, rfl, _⟩ := h
  rw [SharableMutex.tryLock, Option.ite_none_left_eq_some] at hm
  obtain ⟨hfree, hm⟩ := hm
  obtain rfl := Option.some.inj hm
  simp only [Bool.or_eq_true, not_or, Bool.not_eq_true, bne_eq_false_iff_eq] at hfree
  obtain ⟨⟨_, hexclusive⟩, hsharable⟩ := hfree
  refine ⟨?_, rfl, fun _ => hsharable⟩
  rw [hexclusive]
  rfl

theorem HeldBy.unlock (h : m.HeldBy (w + 1) r) : m.unlock.HeldBy w r := by
  have hle : m.exclusive.toNat ≤ 1 := Bool.toNat_le m.exclusive
  have hw : w = 0 := by have := h.exclusive; omega
  exact ⟨hw, h.sharable, fun hex => absurd hex Bool.false_ne_true⟩

theorem HeldBy.tryLockSharable (h : m.HeldBy w r)
    (hm : m.tryLockSharable contended = some m') : m'.HeldBy w (r + 1) := by
  obtain ⟨rfl, rfl, _⟩ := h
  rw [SharableMutex.tryLockSharable, Option.ite_none_left_eq_some] at hm
  obtain ⟨hfree, hm⟩ := hm
  obtain rfl := Option.some.inj hm
  simp only [Bool.or_eq_true, not_or, Bool.not_eq_true] at hfree
  exact ⟨rfl, rfl, fun hex => absurd (hfree.2.symm.trans hex) Bool.false_ne_true⟩

theorem HeldBy.unlockSharable (h : m.HeldBy w (r + 1)) : m.unlockSharable.HeldBy w r := by
  refine ⟨h.exclusive, ?_, fun hex => absurd (h.alone hex) (Nat.succ_ne_zero r)⟩
  rw [SharableMutex.unlockSharable, ← h.sharable]
  rfl

theorem HeldBy.le_one (h : m.HeldBy w r) : w ≤ 1 := h.exclusive ▸ Bool.toNat_le m.exclusive

theorem HeldBy.exclusive_iff_pos (h : m.HeldBy w r) : m.exclusive = true ↔ 0 < w := by
  rw [h.exclusive]
  cases m.exclusive <;> decide

theorem HeldBy.eq_zero_of_pos (h : m.HeldBy w r) (hw : 0 < w) : r = 0 :=
  h.alone (h.exclusive_iff_pos.mpr hw)

end SharableMutex

/-! ### Counting holders in a list -/

section Count

variable {α : Type*} {p : α → Bool} {l : List α} {i j : ℕ} {a b : α}

/-- What replacing an entry does to a count. -/
theorem countP_set_add (hi : l[i]? = some a) :
    (l.set i b).countP p + (p a).toNat = l.countP p + (p b).toNat := by
  obtain ⟨hlt, rfl⟩ := List.getElem?_eq_some_iff.mp hi
  rw [List.countP_set hlt]
  have hpos : p l[i] = true → 0 < l.countP p := fun hp =>
    List.countP_pos_iff.mpr ⟨l[i], List.getElem_mem hlt, hp⟩
  cases hpa : p l[i] with
  | false => cases p b <;> simp
  | true =>
    have := hpos hpa
    cases p b <;> simp <;> omega

/-- Only one entry is counted. -/
theorem eq_of_countP_le_one (hle : l.countP p ≤ 1) (hi : l[i]? = some a) (ha : p a = true)
    (hj : l[j]? = some b) (hb : p b = true) : i = j := by
  induction l generalizing i j with
  | nil => simp at hi
  | cons c l ih =>
    have htail : ∀ {k : ℕ} {d : α}, l[k]? = some d → p d = true → 0 < l.countP p :=
      fun hk hd => List.countP_pos_iff.mpr ⟨_, List.mem_of_getElem? hk, hd⟩
    rw [List.countP_cons] at hle
    cases i with
    | zero =>
      cases j with
      | zero => rfl
      | succ j =>
        rw [List.getElem?_cons_zero, Option.some.injEq] at hi
        rw [List.getElem?_cons_succ] at hj
        have := htail hj hb
        rw [hi, if_pos ha] at hle
        omega
    | succ i =>
      rw [List.getElem?_cons_succ] at hi
      cases j with
      | zero =>
        rw [List.getElem?_cons_zero, Option.some.injEq] at hj
        have := htail hi ha
        rw [hj, if_pos hb] at hle
        omega
      | succ j =>
        rw [List.getElem?_cons_succ] at hj
        exact congrArg Nat.succ (ih (by omega) hi hj)

end Count

end UtilityFramework
