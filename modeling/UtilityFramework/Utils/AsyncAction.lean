import Mathlib.Data.Int.Notation
import UtilityFramework.Lib.Condition
import UtilityFramework.Lib.Transition

/-!
# Asynchronous actions

`utils::base_async_action` is an action for a context, with a state that other threads wait for.
The context's thread invokes it: the action runs and is completed, or ends with an exception.
Whoever has it may cancel it. `wait` blocks until one of the three has happened or its timeout,
if it has one, has passed, except on the context's own thread, where it throws. With a negative
timeout it returns false at once.

`wait_of_run` says what `wait` gives in any interleaving, that the context's thread never blocks
on an action that it has still to invoke, and that no thread is left waiting.
-/

namespace UtilityFramework

open Transition

variable {ι : Type*}

/-! ### The action -/

/-- `core::async_state`. -/
inductive AsyncState
  | pending
  | running
  | completed
  | exception
  | cancelled
  deriving DecidableEq

/-- What `wait` gives. -/
inductive WaitOutcome
  | returned (result : Bool)
  | threw
  deriving DecidableEq

/-- A call of `wait` that has come to its end: its timeout, whether that had passed, and what
state the action was in. -/
structure WaitEnd where
  outcome : WaitOutcome
  timeout : ℤ
  timedOut : Bool
  state : AsyncState
  ended : ℕ
  deriving DecidableEq

/-- `base_async_action` with the threads that wait for it, each with its timeout. `performing`
says that it is being invoked, `ended` how often it has been, and `waits` which calls of `wait`
have ended. -/
structure AsyncAction (ι : Type*) where
  condition : Condition AsyncState ℤ ι
  performing : Bool
  ended : ℕ
  waits : List WaitEnd

/-- What the context and other threads do. -/
inductive AsyncStep (ι : Type*)
  | invoke
  | perform (successful : Bool)
  | cancel
  | notify
  | wait (thread : ι) (timeout : ℤ)
  | wake (thread : ι)
  | timeout (thread : ι)

namespace AsyncAction

/-- The condition of `wait`. -/
def ready (state : AsyncState) (_ : ℤ) : Bool :=
  state == .completed || state == .exception || state == .cancelled

/-- The constructor. -/
def start : AsyncAction ι := ⟨⟨.pending, fun _ => none, false⟩, false, 0, []⟩

/-- A call of `wait` ends, or goes on. `timedOut` says that the timeout has passed. -/
def finish (s : AsyncAction ι) (timeout : ℤ) (timedOut : Bool)
    (condition : Condition AsyncState ℤ ι) : AsyncAction ι :=
  let state := s.condition.shared
  { s with
    condition
    waits :=
      if ready state timeout = true ∨ timedOut = true then
        s.waits ++ [⟨.returned (ready state timeout && state != .cancelled), timeout, timedOut,
          state, s.ended⟩]
      else s.waits }

/-- One step. The context's thread is the one for which `invokeRequired` is false. -/
def step [DecidableEq ι] (invokeRequired : ι → Bool) (s : AsyncAction ι) :
    AsyncStep ι → Option (AsyncAction ι)
  | .invoke =>
    if s.performing = true then none
    else some { s with condition := s.condition.adjust .running, performing := true }
  | .perform successful =>
    if s.performing = true then
      some { s with
        condition := s.condition.change (if successful then .completed else .exception)
        performing := false
        ended := s.ended + 1 }
    else none
  | .cancel => some { s with condition := s.condition.change .cancelled }
  | .notify => some { s with condition := s.condition.notifyAll }
  | .wait thread timeout =>
    if s.condition.waiters thread = none then
      let state := s.condition.shared
      if timeout < 0 then
        some { s with waits := s.waits ++ [⟨.returned false, timeout, false, state, s.ended⟩] }
      else if (state = .pending ∨ state = .running) ∧ invokeRequired thread = false then
        some { s with waits := s.waits ++ [⟨.threw, timeout, false, state, s.ended⟩] }
      else some (s.finish timeout false (s.condition.sleep ready thread timeout))
    else none
  | .wake thread =>
    (s.condition.waiters thread).map fun waiting =>
      s.finish waiting.1 false (s.condition.wake ready thread)
  | .timeout thread =>
    -- a timeout of 0 never passes
    ((s.condition.waiters thread).filter fun waiting => 0 < waiting.1).map fun waiting =>
      s.finish waiting.1 true (s.condition.leave thread)

/-! ### The invariant -/

/-- What a call of `wait` should give: true for an action that has been invoked to its end, and
false for one that has been cancelled, if the timeout has passed before, or if it is negative. -/
def Right (w : WaitEnd) : Prop :=
  match w.outcome with
  | .threw => 0 ≤ w.timeout ∧ (w.state = .pending ∨ w.state = .running)
  | .returned true => 0 ≤ w.timeout ∧ (w.state = .completed ∨ w.state = .exception) ∧ 0 < w.ended
  | .returned false =>
    w.timeout < 0 ∨ w.state = .cancelled ∨
      0 < w.timeout ∧ w.timedOut = true ∧ (w.state = .pending ∨ w.state = .running)

/-- The invariant. -/
structure Inv (invokeRequired : ι → Bool) (s : AsyncAction ι) : Prop where
  ended : s.condition.shared = .completed ∨ s.condition.shared = .exception → 0 < s.ended
  waits : ∀ w ∈ s.waits, Right w
  waiting : ∀ i timeout b, s.condition.waiters i = some (timeout, b) →
    0 ≤ timeout ∧ invokeRequired i = true
  settled : s.condition.Settled ready

variable {invokeRequired : ι → Bool} {s t : AsyncAction ι} {thread : ι} {timeout : ℤ} {b : Bool}

theorem ready_eq_true_iff {state : AsyncState} (timeout : ℤ) :
    ready state timeout = true ↔ state ≠ .pending ∧ state ≠ .running := by
  cases state <;> simp [ready]

theorem inv_start : (start : AsyncAction ι).Inv invokeRequired :=
  ⟨nofun, nofun, nofun, nofun⟩

/-- What a call that ends gives is right, if its timeout passes only if there is one. -/
theorem inv_finish (hs : s.Inv invokeRequired) {timedOut : Bool} (htimeout : 0 ≤ timeout)
    (hpassed : timedOut = true → 0 < timeout) {c : Condition AsyncState ℤ ι}
    (hshared : c.shared = s.condition.shared)
    (hwaiting : ∀ i timeout b, c.waiters i = some (timeout, b) →
      0 ≤ timeout ∧ invokeRequired i = true)
    (hsettled : c.Settled ready) : (s.finish timeout timedOut c).Inv invokeRequired := by
  refine ⟨fun h => hs.ended (hshared ▸ h), fun w hw => ?_, hwaiting, hsettled⟩
  rw [finish] at hw
  dsimp only at hw
  split_ifs at hw with hready
  · rw [List.mem_append, List.mem_singleton] at hw
    rcases hw with hw | rfl
    · exact hs.waits w hw
    · cases hstate : s.condition.shared with
      | pending =>
        have htimedOut := hready.resolve_left (hstate ▸ Bool.false_ne_true)
        exact .inr (.inr ⟨hpassed htimedOut, htimedOut, .inl rfl⟩)
      | running =>
        have htimedOut := hready.resolve_left (hstate ▸ Bool.false_ne_true)
        exact .inr (.inr ⟨hpassed htimedOut, htimedOut, .inr rfl⟩)
      | completed => exact ⟨htimeout, .inl rfl, hs.ended (.inl hstate)⟩
      | exception => exact ⟨htimeout, .inr rfl, hs.ended (.inr hstate)⟩
      | cancelled => exact .inr (.inl rfl)
  · exact hs.waits w hw

theorem inv_invoke (hs : s.Inv invokeRequired) :
    AsyncAction.Inv invokeRequired
      { s with condition := s.condition.adjust .running, performing := true } :=
  ⟨nofun, hs.waits, hs.waiting, hs.settled.adjust fun _ _ _ _ => rfl⟩

theorem inv_perform (hs : s.Inv invokeRequired) (successful : Bool) :
    AsyncAction.Inv invokeRequired
      { s with
        condition := s.condition.change (if successful then .completed else .exception)
        performing := false
        ended := s.ended + 1 } :=
  ⟨fun _ => Nat.succ_pos _, hs.waits, hs.waiting, Condition.settled_change _⟩

theorem inv_cancel (hs : s.Inv invokeRequired) :
    AsyncAction.Inv invokeRequired { s with condition := s.condition.change .cancelled } :=
  ⟨nofun, hs.waits, hs.waiting, Condition.settled_change _⟩

theorem inv_notify (hs : s.Inv invokeRequired) :
    AsyncAction.Inv invokeRequired { s with condition := s.condition.notifyAll } := by
  refine ⟨hs.ended, hs.waits, fun i timeout b h => ?_, Condition.settled_notifyAll⟩
  obtain ⟨b', h⟩ := Condition.waiters_notifyAll_eq_some h
  exact hs.waiting i timeout b' h

/-- A call of `wait` that ends as soon as it has begun. -/
theorem inv_return (hs : s.Inv invokeRequired) {w : WaitEnd} (hw : Right w) :
    AsyncAction.Inv invokeRequired { s with waits := s.waits ++ [w] } := by
  refine ⟨hs.ended, fun w' hw' => ?_, hs.waiting, hs.settled⟩
  rw [List.mem_append, List.mem_singleton] at hw'
  rcases hw' with hw' | rfl
  · exact hs.waits w' hw'
  · exact hw

variable [DecidableEq ι]

/-- The threads that sleep after one has gone to sleep. -/
theorem waiting_sleep (hs : s.Inv invokeRequired) (htimeout : 0 ≤ timeout)
    (hthread : ready s.condition.shared timeout = true ∨ invokeRequired thread = true) (i : ι)
    (timeout' : ℤ) (b : Bool)
    (h : (s.condition.sleep ready thread timeout).waiters i = some (timeout', b)) :
    0 ≤ timeout' ∧ invokeRequired i = true := by
  by_cases hready : ready s.condition.shared timeout = true
  · rw [Condition.sleep, if_pos hready] at h
    exact hs.waiting i timeout' b (Condition.waiters_leave_eq_some h)
  · rw [Condition.waiters_sleep hready] at h
    split_ifs at h with hi
    · cases h
      rw [hi]
      exact ⟨htimeout, hthread.resolve_left hready⟩
    · exact hs.waiting i timeout' b h

theorem inv_wait (hs : s.Inv invokeRequired)
    (h : s.step invokeRequired (.wait thread timeout) = some t) : t.Inv invokeRequired := by
  rw [step] at h
  dsimp only at h
  split_ifs at h with hnone hneg hthrow
  · cases h
    exact inv_return hs (.inl hneg)
  · cases h
    exact inv_return hs ⟨Int.not_lt.mp hneg, hthrow.1⟩
  · cases h
    refine inv_finish hs (Int.not_lt.mp hneg) (fun h => absurd h Bool.false_ne_true)
      Condition.shared_sleep (waiting_sleep hs (Int.not_lt.mp hneg) ?_)
      (hs.settled.sleep thread timeout)
    rw [ready_eq_true_iff, or_iff_not_imp_left]
    intro hnot
    by_contra hthread
    rw [Bool.not_eq_true] at hthread
    refine hnot ⟨fun h => hthrow ⟨.inl h, hthread⟩, fun h => hthrow ⟨.inr h, hthread⟩⟩

theorem inv_step {a : AsyncStep ι} (hs : s.Inv invokeRequired)
    (h : s.step invokeRequired a = some t) : t.Inv invokeRequired := by
  cases a with
  | invoke =>
    rw [step] at h
    split_ifs at h
    cases h
    exact inv_invoke hs
  | perform successful =>
    by_cases hperforming : s.performing = true
    · rw [step, if_pos hperforming] at h
      cases h
      exact inv_perform hs successful
    · rw [step, if_neg hperforming] at h
      cases h
  | cancel =>
    cases h
    exact inv_cancel hs
  | notify =>
    cases h
    exact inv_notify hs
  | wait thread timeout => exact inv_wait hs h
  | wake thread =>
    obtain ⟨⟨timeout, b⟩, hx, rfl⟩ := Option.map_eq_some_iff.mp h
    obtain ⟨htimeout, hthread⟩ := hs.waiting thread timeout b hx
    refine inv_finish hs htimeout (fun h => absurd h Bool.false_ne_true) Condition.shared_wake
      (fun i timeout' b' h => ?_) (hs.settled.wake thread)
    rw [Condition.wake, hx] at h
    exact waiting_sleep hs htimeout (.inr hthread) i timeout' b' h
  | timeout thread =>
    obtain ⟨⟨timeout, b⟩, hx, rfl⟩ := Option.map_eq_some_iff.mp h
    obtain ⟨-, hpos⟩ := Option.filter_eq_some_iff.mp hx
    have htimeout : 0 < timeout := of_decide_eq_true hpos
    refine inv_finish hs (Int.le_of_lt htimeout) (fun _ => htimeout) rfl (fun i timeout' b' h => ?_)
      (hs.settled.leave thread)
    exact hs.waiting i timeout' b' (Condition.waiters_leave_eq_some h)

/-- **What `wait` gives.** In any interleaving, `wait` returns true only for an action that has
been invoked to its end, and false only for one that has been cancelled, if its timeout has passed
or if that is negative; the context's thread never sleeps in it; and if there has been a
notification since the last change, a thread that sleeps and has not been notified waits for an
action that is pending or running. -/
theorem wait_of_run {l : List (AsyncStep ι)}
    (h : run (step invokeRequired) start l = some s) :
    (∀ w ∈ s.waits, Right w) ∧
    (∀ i timeout b, s.condition.waiters i = some (timeout, b) → invokeRequired i = true) ∧
    (s.condition.changed = false → ∀ i timeout,
      s.condition.waiters i = some (timeout, false) →
        s.condition.shared = .pending ∨ s.condition.shared = .running) := by
  have hs : s.Inv invokeRequired := run_invariant h (fun s a t hs ht => inv_step hs ht) inv_start
  refine ⟨hs.waits, fun i timeout b hi => (hs.waiting i timeout b hi).2, fun hc i timeout hi => ?_⟩
  by_contra hnot
  rw [not_or] at hnot
  have hready := (ready_eq_true_iff timeout).mpr hnot
  rw [hs.settled hc i timeout hi] at hready
  cases hready

/-- A thread waits, and the action is cancelled while it runs; another one does not wait, and
one for too short a time. -/
theorem wait_of_run_cancelled : ∃ s, run (step fun _ : ℕ => true) start
      [.wait 1 0, .wait 2 (-1), .wait 3 10, .invoke, .timeout 3, .cancel, .notify, .wake 1,
        .perform true, .notify, .wait 1 0] = some s ∧
    s.waits.map WaitEnd.outcome =
      [.returned false, .returned false, .returned false, .returned true] ∧
    ∀ w ∈ s.waits, Right w :=
  ⟨_, rfl, rfl, (@wait_of_run ℕ (fun _ => true) _ _ [.wait 1 0, .wait 2 (-1), .wait 3 10,
    .invoke, .timeout 3, .cancel, .notify, .wake 1, .perform true, .notify, .wait 1 0] rfl).1⟩

end AsyncAction

end UtilityFramework
