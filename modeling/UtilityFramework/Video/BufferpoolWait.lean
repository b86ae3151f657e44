import Mathlib.Data.Nat.ModEq
import UtilityFramework.Lib.Condition
import UtilityFramework.Lib.Transition
import UtilityFramework.Video.SharableBufferPool

/-!
# Waiting for a published buffer

`shm_bufferpool_wait_handler` lives in the shared memory of a pool. A writer that publishes a
buffer sets its index, and the readers that wait for a buffer get it. Readers recognise a new
index by a sequence id, which each `set` counts up modulo `2 ^ 32 - 1`; the notification follows
when the lock has been released, if it succeeds.

A reader gets the index that was set last before it returns, and it returns only if indices have
been set since it came (`waiting_of_run`); it misses those that were set before, or while it
did not get the lock. It goes on waiting in spite of them only if their number is a multiple of
`2 ^ 32 - 1`.
-/

namespace UtilityFramework

open Transition

variable {ι : Type*}

/-! ### Readers and writers -/

/-- The sequence id that a reader has found, and how many indices had been set by then. -/
structure WaitingReader where
  sequenceId : UInt32
  since : ℕ
  deriving DecidableEq

/-- A reader that has got an index: how many indices had been set when it came and when it got
this one. -/
structure ReaderReturn where
  index : UInt32
  since : ℕ
  upto : ℕ
  deriving DecidableEq

/-- The handler with those that wait, all indices that have been set and what readers got. -/
structure BufferpoolWait (ι : Type*) where
  condition : Condition WaitHandler WaitingReader ι
  history : List UInt32
  returned : List ReaderReturn

/-- What writers and readers do. -/
inductive WaitStep (ι : Type*)
  | set (index : UInt32) (lock : TimedLock)
  | notify
  | wait (reader : ι)
  | wake (reader : ι)
  | timeout (reader : ι)
  | fail (reader : ι)

namespace BufferpoolWait

/-- The condition of `wait`: `m_sequence_id != sequence_id`. -/
def ready (handler : WaitHandler) (reader : WaitingReader) : Bool :=
  decide (handler.sequenceId ≠ reader.sequenceId)

/-- The constructor. -/
def start (index : UInt32) : BufferpoolWait ι := ⟨⟨⟨0, index⟩, fun _ => none, false⟩, [], []⟩

/-- `set`, up to the release of the lock. -/
def set (s : BufferpoolWait ι) (index : UInt32) (lock : TimedLock) : BufferpoolWait ι :=
  let handler := (s.condition.shared.set index lock fun _ => true).2
  if lock = .locked then
    { s with condition := s.condition.change handler, history := s.history ++ [index] }
  else { s with condition := s.condition.adjust handler }

/-- A reader that has the lock again returns the index, or goes on. -/
def finish (s : BufferpoolWait ι) (reader : WaitingReader)
    (condition : Condition WaitHandler WaitingReader ι) : BufferpoolWait ι :=
  { s with
    condition
    returned :=
      if ready s.condition.shared reader = true then
        s.returned ++ [⟨s.condition.shared.index, reader.since, s.history.length⟩]
      else s.returned }

/-- One step. A reader that sleeps may look again at any time, and one that an exception reaches
in the lock or the wait handle returns without an index. -/
def step [DecidableEq ι] (s : BufferpoolWait ι) : WaitStep ι → Option (BufferpoolWait ι)
  | .set index lock => some (s.set index lock)
  | .notify => some { s with condition := s.condition.notifyAll }
  | .wait reader =>
    if s.condition.waiters reader = none then
      some { s with
        condition := s.condition.sleep ready reader
          ⟨s.condition.shared.sequenceId, s.history.length⟩ }
    else none
  | .wake reader =>
    (s.condition.waiters reader).map fun waiting =>
      s.finish waiting.1 (s.condition.wake ready reader)
  | .timeout reader =>
    (s.condition.waiters reader).map fun waiting =>
      s.finish waiting.1 (s.condition.leave reader)
  | .fail reader =>
    (s.condition.waiters reader).map fun _ => { s with condition := s.condition.leave reader }

/-! ### The invariant -/

/-- What a reader gets. -/
structure Right (history : List UInt32) (r : ReaderReturn) : Prop where
  index : (history.take r.upto).getLast? = some r.index
  since : r.since < r.upto
  upto : r.upto ≤ history.length
  changed : ¬(2 ^ 32 - 1) ∣ r.upto - r.since

/-- The invariant: the sequence id counts the indices that have been set. -/
structure Inv (s : BufferpoolWait ι) : Prop where
  sequenceId : s.condition.shared.sequenceId.toNat = s.history.length % (2 ^ 32 - 1)
  index : ∀ i ∈ s.history.getLast?, s.condition.shared.index = i
  waiting : ∀ i x b, s.condition.waiters i = some (x, b) →
    x.sequenceId.toNat = x.since % (2 ^ 32 - 1) ∧ x.since ≤ s.history.length
  returned : ∀ r ∈ s.returned, Right s.history r
  settled : s.condition.Settled ready

variable {s t : BufferpoolWait ι} {reader : ι} {x : WaitingReader} {b : Bool}

theorem inv_start (index : UInt32) : (start index : BufferpoolWait ι).Inv :=
  ⟨rfl, nofun, nofun, nofun, nofun⟩

theorem Right.append {history : List UInt32} {r : ReaderReturn} (h : Right history r)
    (index : UInt32) :
    Right (history ++ [index]) r := by
  refine ⟨?_, h.since, ?_, h.changed⟩
  · rw [List.take_append_of_le_length h.upto]
    exact h.index
  · rw [List.length_append]
    exact Nat.le_trans h.upto (Nat.le_add_right _ _)

theorem ready_iff (hs : s.Inv) (hx : s.condition.waiters reader = some (x, b)) :
    ready s.condition.shared x = true ↔ ¬(2 ^ 32 - 1) ∣ s.history.length - x.since := by
  obtain ⟨hid, hle⟩ := hs.waiting reader x b hx
  rw [ready, decide_eq_true_iff, Ne, ← UInt32.toNat_inj, hs.sequenceId, hid,
    ← Nat.modEq_iff_dvd' hle, Nat.ModEq, eq_comm]

/-- What a reader finds that is ready. -/
theorem right_of_ready (hs : s.Inv) (hx : s.condition.waiters reader = some (x, b))
    (hready : ready s.condition.shared x = true) :
    Right s.history ⟨s.condition.shared.index, x.since, s.history.length⟩ := by
  have hndvd := (ready_iff hs hx).mp hready
  have hlt : x.since < s.history.length := by
    by_contra hle
    rw [Nat.sub_eq_zero_of_le (Nat.le_of_not_lt hle)] at hndvd
    exact hndvd (dvd_zero _)
  refine ⟨?_, hlt, Nat.le_refl _, hndvd⟩
  rw [List.take_length]
  cases hlast : s.history.getLast? with
  | none =>
    rw [List.getLast?_eq_none_iff] at hlast
    rw [hlast] at hlt
    exact absurd hlt (Nat.not_lt_zero _)
  | some i => exact congrArg some (hs.index i hlast).symm

theorem inv_set (hs : s.Inv) (index : UInt32) (lock : TimedLock) : (s.set index lock).Inv := by
  cases lock with
  | locked =>
    have hlt : s.condition.shared.sequenceId.toNat < 2 ^ 32 - 1 := by
      rw [hs.sequenceId]
      exact Nat.mod_lt _ (by decide)
    have hid : ((s.condition.shared.sequenceId + 1) % UInt32.ofNat (2 ^ 32 - 1)).toNat =
        (s.history.length + 1) % (2 ^ 32 - 1) := by
      rw [UInt32.toNat_mod, UInt32.toNat_add]
      change (s.condition.shared.sequenceId.toNat + 1) % 2 ^ 32 % (2 ^ 32 - 1) = _
      rw [Nat.mod_eq_of_lt (a := s.condition.shared.sequenceId.toNat + 1) (by omega),
        hs.sequenceId, Nat.mod_add_mod]
    refine ⟨?_, ?_, fun i x b h => ?_, fun r hr => (hs.returned r hr).append index,
      Condition.settled_change _⟩
    · rw [set, if_pos rfl, List.length_append]
      exact hid
    · intro i hi
      rw [set, if_pos rfl, List.getLast?_concat, Option.mem_def, Option.some.injEq] at hi
      exact hi
    · obtain ⟨hx, hle⟩ := hs.waiting i x b h
      refine ⟨hx, Nat.le_trans hle ?_⟩
      rw [set, if_pos rfl, List.length_append]
      exact Nat.le_add_right _ _
  | timedOut => exact hs
  | threw => exact hs

theorem inv_notify (hs : s.Inv) :
    BufferpoolWait.Inv { s with condition := s.condition.notifyAll } := by
  refine ⟨hs.sequenceId, hs.index, fun i x b h => ?_, hs.returned, Condition.settled_notifyAll⟩
  obtain ⟨b', h⟩ := Condition.waiters_notifyAll_eq_some h
  exact hs.waiting i x b' h

/-- A reader looks again, and goes on with `m`. -/
theorem inv_finish (hs : s.Inv) (hx : s.condition.waiters reader = some (x, b))
    {m : Condition WaitHandler WaitingReader ι} (hshared : m.shared = s.condition.shared)
    (hwaiters : ∀ i y b', m.waiters i = some (y, b') →
      ∃ j b'', s.condition.waiters j = some (y, b''))
    (hsettled : m.Settled ready) : (s.finish x m).Inv := by
  refine ⟨?_, fun i hi => ?_, fun i y b' h => ?_, fun r hr => ?_, hsettled⟩
  · rw [finish, hshared]
    exact hs.sequenceId
  · rw [finish, hshared]
    exact hs.index i hi
  · obtain ⟨j, b'', h⟩ := hwaiters i y b' h
    exact hs.waiting j y b'' h
  · rw [finish] at hr
    dsimp only at hr
    split_ifs at hr with hready
    · rw [List.mem_append, List.mem_singleton] at hr
      rcases hr with hr | rfl
      · exact hs.returned r hr
      · exact right_of_ready hs hx hready
    · exact hs.returned r hr

variable [DecidableEq ι]

theorem inv_wait (hs : s.Inv) (reader : ι) :
    BufferpoolWait.Inv { s with
      condition := s.condition.sleep ready reader
        ⟨s.condition.shared.sequenceId, s.history.length⟩ } := by
  refine ⟨?_, fun i hi => ?_, fun i x b h => ?_, hs.returned, hs.settled.sleep reader _⟩
  · rw [Condition.shared_sleep]
    exact hs.sequenceId
  · rw [Condition.shared_sleep]
    exact hs.index i hi
  · rcases Condition.waiters_sleep_eq_some h with rfl | h
    · exact ⟨hs.sequenceId, Nat.le_refl _⟩
    · exact hs.waiting i x b h

theorem inv_fail (hs : s.Inv) (reader : ι) :
    BufferpoolWait.Inv { s with condition := s.condition.leave reader } :=
  ⟨hs.sequenceId, hs.index,
    fun i x b h => hs.waiting i x b (Condition.waiters_leave_eq_some h), hs.returned,
    hs.settled.leave reader⟩

theorem inv_step {a : WaitStep ι} (hs : s.Inv) (h : s.step a = some t) : t.Inv := by
  cases a with
  | set index lock =>
    cases h
    exact inv_set hs index lock
  | notify =>
    cases h
    exact inv_notify hs
  | wait reader =>
    rw [step] at h
    split_ifs at h
    cases h
    exact inv_wait hs reader
  | wake reader =>
    obtain ⟨⟨x, b⟩, hx, rfl⟩ := Option.map_eq_some_iff.mp h
    exact inv_finish hs hx Condition.shared_wake
      (fun i y b' h => Condition.waiters_wake_eq_some h) (hs.settled.wake reader)
  | timeout reader =>
    obtain ⟨⟨x, b⟩, hx, rfl⟩ := Option.map_eq_some_iff.mp h
    exact inv_finish hs hx rfl (fun i y b' h => ⟨i, b', Condition.waiters_leave_eq_some h⟩)
      (hs.settled.leave reader)
  | fail reader =>
    obtain ⟨_, -, rfl⟩ := Option.map_eq_some_iff.mp h
    exact inv_fail hs reader

/-- **What readers get.** In any interleaving, an index that a reader has got is the last of those
that had been set by then, and the number of those that had been set since the reader came is not
a multiple of `2 ^ 32 - 1`. For a reader that sleeps and has not been notified it is one, as when
none has been set, if there has been a notification since the last `set`. -/
theorem waiting_of_run {l : List (WaitStep ι)} {index : UInt32}
    (h : run step (start index) l = some s) :
    (∀ r ∈ s.returned, (s.history.take r.upto).getLast? = some r.index ∧ r.since < r.upto ∧
      ¬(2 ^ 32 - 1) ∣ r.upto - r.since) ∧
    (s.condition.changed = false → ∀ i x, s.condition.waiters i = some (x, false) →
      (2 ^ 32 - 1) ∣ s.history.length - x.since) := by
  have hs : s.Inv := run_invariant h (fun s a t hs ht => inv_step hs ht) (inv_start index)
  refine ⟨fun r hr => ⟨(hs.returned r hr).index, (hs.returned r hr).since,
    (hs.returned r hr).changed⟩, fun hc i x hx => ?_⟩
  by_contra hndvd
  have hready := (ready_iff hs hx).mpr hndvd
  rw [hs.settled hc i x hx] at hready
  cases hready

/-- A reader that comes before the second index is set. -/
theorem waiting_of_run_second : ∃ s, run step (start 0 : BufferpoolWait ℕ)
      [.set 5 .locked, .wait 1, .set 7 .locked, .set 8 .timedOut, .notify, .wake 1] = some s ∧
    ∀ r ∈ s.returned, (s.history.take r.upto).getLast? = some r.index ∧ r.since < r.upto ∧
      ¬(2 ^ 32 - 1) ∣ r.upto - r.since :=
  ⟨_, rfl, (waiting_of_run (l := [.set 5 .locked, .wait 1, .set 7 .locked, .set 8 .timedOut,
    .notify, .wake 1]) rfl).1⟩

end BufferpoolWait

end UtilityFramework
