import Mathlib.Data.Option.Basic
import Mathlib.Logic.Function.Basic
import Mathlib.Tactic.SplitIfs

/-!
# Condition variables

Threads that share a value under a lock wait for it to become what they wait for. A waiter looks
at the value and, if this is not what it waits for, releases the lock and sleeps; `notifyAll`
wakes all that sleep, and each of them looks again when it has the lock. Whoever changes the value
notifies after it has released the lock, so that others can come between.

`Settled` says that no waiter is forgotten: if there has been a notification since the last
change, whoever sleeps and has not been notified does not wait for the value that is there. Every
operation keeps it.
-/

namespace UtilityFramework

universe u v w

/-- A shared value, what each waiter waits with and whether it has been notified, and whether the
value has been changed since the last notification. -/
structure Condition (σ : Type u) (ω : Type v) (ι : Type w) where
  shared : σ
  waiters : ι → Option (ω × Bool)
  changed : Bool

namespace Condition

variable {σ : Type u} {ω : Type v} {ι : Type w}

/-- The value is changed; a notification will follow. -/
def change (m : Condition σ ω ι) (s : σ) : Condition σ ω ι :=
  { m with shared := s, changed := true }

/-- The value is changed, and no notification follows. -/
def adjust (m : Condition σ ω ι) (s : σ) : Condition σ ω ι := { m with shared := s }

/-- Everyone is notified. -/
def notifyAll (m : Condition σ ω ι) : Condition σ ω ι :=
  { m with
    waiters := fun i => (m.waiters i).map fun x => (x.1, true)
    changed := false }

/-- No waiter is forgotten. -/
def Settled (ready : σ → ω → Bool) (m : Condition σ ω ι) : Prop :=
  m.changed = false → ∀ i x, m.waiters i = some (x, false) → ready m.shared x = false

section

variable {ready : σ → ω → Bool} {m : Condition σ ω ι} {j : ι} {x : ω}

theorem settled_change (s : σ) : (m.change s).Settled ready := nofun

theorem settled_notifyAll : m.notifyAll.Settled ready := by
  intro _ i x h
  obtain ⟨y, -, hy⟩ := Option.map_eq_some_iff.mp h
  cases hy

/-- A change after which no waiter finds what it waits for needs no notification. -/
theorem Settled.adjust (h : m.Settled ready) {s : σ}
    (hs : ∀ i x, m.waiters i = some (x, false) → ready m.shared x = false → ready s x = false) :
    (m.adjust s).Settled ready :=
  fun hc i x hx => hs i x hx (h hc i x hx)

theorem waiters_notifyAll_eq_some {b : Bool} (h : m.notifyAll.waiters j = some (x, b)) :
    ∃ b', m.waiters j = some (x, b') := by
  obtain ⟨⟨y, b'⟩, hy, hx⟩ := Option.map_eq_some_iff.mp h
  cases hx
  exact ⟨b', hy⟩

end

variable [DecidableEq ι] (ready : σ → ω → Bool)

/-- A waiter goes. -/
def leave (m : Condition σ ω ι) (i : ι) : Condition σ ω ι :=
  { m with waiters := Function.update m.waiters i none }

/-- A waiter sleeps, unless the value is what it waits for. -/
def sleep (m : Condition σ ω ι) (i : ι) (x : ω) : Condition σ ω ι :=
  if ready m.shared x = true then m.leave i
  else { m with waiters := Function.update m.waiters i (some (x, false)) }

/-- A waiter looks again. -/
def wake (m : Condition σ ω ι) (i : ι) : Condition σ ω ι :=
  match m.waiters i with
  | none => m
  | some x => m.sleep ready i x.1

variable {ready} {m : Condition σ ω ι} {i j : ι} {x : ω}

theorem waiters_leave (i j : ι) :
    (m.leave i).waiters j = if j = i then none else m.waiters j :=
  Function.update_apply _ _ _ _

theorem waiters_sleep (h : ¬ready m.shared x = true) (i j : ι) :
    (m.sleep ready i x).waiters j = if j = i then some (x, false) else m.waiters j := by
  rw [sleep, if_neg h]
  exact Function.update_apply _ _ _ _

@[simp] theorem shared_leave : (m.leave i).shared = m.shared := rfl

@[simp] theorem shared_sleep : (m.sleep ready i x).shared = m.shared := by
  rw [sleep]
  split_ifs
  · rfl
  · rfl

@[simp] theorem shared_wake : (m.wake ready i).shared = m.shared := by
  rw [wake]
  split
  · rfl
  · exact shared_sleep

@[simp] theorem changed_sleep : (m.sleep ready i x).changed = m.changed := by
  rw [sleep]
  split_ifs
  · rfl
  · rfl

theorem Settled.leave (h : m.Settled ready) (i : ι) : (m.leave i).Settled ready := by
  intro hc j x hx
  rw [waiters_leave] at hx
  split_ifs at hx
  exact h hc j x hx

theorem Settled.sleep (h : m.Settled ready) (i : ι) (x : ω) :
    (m.sleep ready i x).Settled ready := by
  by_cases hr : ready m.shared x = true
  · rw [Condition.sleep, if_pos hr]
    exact h.leave i
  · intro hc j y hy
    rw [changed_sleep] at hc
    rw [shared_sleep]
    rw [waiters_sleep hr] at hy
    split_ifs at hy with hj
    · cases hy
      exact Bool.eq_false_iff.mpr hr
    · exact h hc j y hy

theorem Settled.wake (h : m.Settled ready) (i : ι) : (m.wake ready i).Settled ready := by
  rw [Condition.wake]
  split
  · exact h
  · exact h.sleep i _

/-- The waiters that are left have been there before. -/
theorem waiters_leave_eq_some {b : Bool} (h : (m.leave i).waiters j = some (x, b)) :
    m.waiters j = some (x, b) := by
  rw [waiters_leave] at h
  split_ifs at h
  exact h

theorem waiters_sleep_eq_some {b : Bool} {y : ω} (h : (m.sleep ready i y).waiters j = some (x, b)) :
    x = y ∨ m.waiters j = some (x, b) := by
  by_cases hr : ready m.shared y = true
  · rw [sleep, if_pos hr] at h
    exact .inr (waiters_leave_eq_some h)
  · rw [waiters_sleep hr] at h
    split_ifs at h
    · cases h
      exact .inl rfl
    · exact .inr h

theorem waiters_wake_eq_some {b : Bool} (h : (m.wake ready i).waiters j = some (x, b)) :
    ∃ j' b', m.waiters j' = some (x, b') := by
  rw [wake] at h
  split at h
  · exact ⟨j, b, h⟩
  · next y hy =>
    rcases waiters_sleep_eq_some h with rfl | h
    · exact ⟨i, y.2, hy⟩
    · exact ⟨j, b, h⟩

end Condition

end UtilityFramework
