import Mathlib.Data.List.Count
import Mathlib.Data.List.Nodup
import Mathlib.Data.List.Perm.Basic
import UtilityFramework.Lib.Transition

/-!
# The actions of a context

`utils::simple_context` runs actions on a thread of its own. `add_action` appends an action to
`m_actions` under the mutex of the context; an iteration of the worker swaps `m_actions` with
its local `pending_actions` under the mutex, unless the context is suspended, and then invokes
the pending actions without it. The flags `m_running` and `m_suspended` are atomic and are
written without the mutex, so they may change in the middle of a critical section: the steps
of `add_action` and of the worker under the mutex are modelled one by one.

`dispose` clears `m_running`. Called from another thread, it then joins the worker and cancels
what is left in `m_actions`. Called from an action or a timer on the thread of the worker, it
sets the flag `stack_stopper` and cancels `m_actions`, and the worker, when the action
returns, cancels what is left of the pending actions.

Actions are numbered in the order in which they are accepted, and `log` records which are
invoked and which are cancelled. The wait of the worker may end at any time, a deadline of a
timer being reached. `Inv` says where the accepted actions are: the log begins with the
invocation of the first `k` of them, in order, and goes on with cancellations only.
-/

namespace UtilityFramework

open Transition

/-! ### The context -/

/-- Who holds the mutex: nobody, the worker, or a thread in `add_action` that has found the
context running. -/
inductive ContextMutex (τ : Type*)
  | free
  | worker
  | adding (thread : τ)

/-- Where the worker is in its iteration; `stop` is its local variable `stop_thread`. -/
inductive WorkerState
  /-- At the beginning of an iteration, waiting. -/
  | waiting
  /-- The wait is over, and the mutex is held. -/
  | locked
  /-- The pending actions have been swapped in or not, and the mutex is still held. -/
  | swapped
  /-- Invoking timers. -/
  | timers (stop : Bool)
  /-- Between two pending actions. -/
  | actions (stop : Bool)
  /-- In the invocation of an action. -/
  | invoking (stop : Bool)
  | exited

/-- No actions are pending where the worker is about to swap, or has ended. -/
def WorkerState.idle : WorkerState → Bool
  | .waiting | .locked | .exited => true
  | _ => false

/-- How far `dispose` is: joining the worker (called from another thread), about to set
`stack_stopper` (called on the thread of the worker), about to cancel `m_actions`. -/
inductive Disposal
  | none
  | joining
  | stopping
  | cancelling
  | done
  deriving DecidableEq

/-- What happens to an action. -/
inductive ContextEvent
  | invoked (action : ℕ)
  | cancelled (action : ℕ)
  deriving DecidableEq

/-- The number of the action that an event invokes. -/
def ContextEvent.invokedAction : ContextEvent → Option ℕ
  | .invoked action => some action
  | .cancelled _ => none

/-- `simple_context`, with the local variables of the worker. -/
structure SimpleContext (τ : Type*) where
  suspendable : Bool
  suspended : Bool
  running : Bool
  mutex : ContextMutex τ
  actions : List ℕ
  worker : WorkerState
  pendingActions : List ℕ
  stackStopper : Bool
  disposal : Disposal
  accepted : ℕ
  log : List ContextEvent

/-- The atomic steps. -/
inductive ContextStep (τ : Type*)
  | addAction (thread : τ)
  | pushAction (thread : τ)
  | suspend
  | resume
  | wake
  | swapActions
  | unlock
  | timersInvoked
  | nextAction
  | actionReturned
  | endIteration
  | dispose
  | disposeOnWorker
  | joinWorker
  | stopStack
  | cancelActions

namespace SimpleContext

variable {τ : Type*}

/-- A new context; one that is not suspendable starts running. -/
def init (suspendable suspended : Bool) : SimpleContext τ where
  suspendable := suspendable
  suspended := suspended
  running := true
  mutex := .free
  actions := []
  worker := .waiting
  pendingActions := []
  stackStopper := false
  disposal := .none
  accepted := 0
  log := []

/-- One atomic step. `none` says that it cannot be taken. -/
def step [DecidableEq τ] (s : SimpleContext τ) : ContextStep τ → Option (SimpleContext τ)
  -- `add_action` up to the test of `m_running`; it throws if the context is disposed
  | .addAction thread =>
    match s.mutex with
    | .free => if s.running then some { s with mutex := .adding thread } else some s
    | _ => none
  | .pushAction thread =>
    match s.mutex with
    | .adding holder =>
      if holder = thread then
        some { s with
          actions := s.actions ++ [s.accepted]
          accepted := s.accepted + 1
          mutex := .free }
      else none
    | _ => none
  | .suspend => if s.suspendable then some { s with suspended := true } else none
  | .resume => if s.suspendable then some { s with suspended := false } else none
  | .wake =>
    match s.mutex, s.worker with
    | .free, .waiting => some { s with mutex := .worker, worker := .locked }
    | _, _ => none
  | .swapActions =>
    match s.worker with
    | .locked =>
      if s.suspendable ∧ s.suspended then some { s with worker := .swapped }
      else some { s with
        worker := .swapped
        actions := s.pendingActions
        pendingActions := s.actions }
    | _ => none
  | .unlock =>
    match s.worker with
    | .swapped => some { s with mutex := .free, worker := .timers !s.running }
    | _ => none
  -- a timer returns only after the `dispose` it may have called
  | .timersInvoked =>
    match s.worker, s.disposal with
    | .timers _, .stopping | .timers _, .cancelling => none
    | .timers stop, _ => some { s with worker := .actions stop }
    | _, _ => none
  | .nextAction =>
    match s.worker, s.pendingActions with
    | .actions stop, action :: pending =>
      if s.stackStopper then
        some { s with pendingActions := pending, log := s.log ++ [.cancelled action] }
      else
        some { s with
          worker := .invoking stop
          pendingActions := pending
          log := s.log ++ [.invoked action] }
    | _, _ => none
  -- an action returns only after the `dispose` it may have called
  | .actionReturned =>
    match s.worker, s.disposal with
    | .invoking _, .stopping | .invoking _, .cancelling => none
    | .invoking stop, _ => some { s with worker := .actions stop }
    | _, _ => none
  | .endIteration =>
    match s.worker, s.pendingActions with
    | .actions stop, [] =>
      some { s with worker := if stop ∨ s.stackStopper then .exited else .waiting }
    | _, _ => none
  | .dispose =>
    match s.disposal with
    | .none => some { s with running := false, disposal := .joining }
    | _ => none
  | .disposeOnWorker =>
    match s.worker, s.disposal with
    | .timers _, .none | .invoking _, .none =>
      some { s with running := false, disposal := .stopping }
    | _, _ => none
  | .joinWorker =>
    match s.worker, s.disposal with
    | .exited, .joining => some { s with disposal := .cancelling }
    | _, _ => none
  | .stopStack =>
    match s.disposal with
    | .stopping => some { s with stackStopper := true, disposal := .cancelling }
    | _ => none
  | .cancelActions =>
    match s.mutex, s.disposal with
    | .free, .cancelling =>
      some { s with
        actions := []
        log := s.log ++ s.actions.map .cancelled
        disposal := .done }
    | _, _ => none

/-! ### Where the accepted actions are -/

/-- The first `k` accepted actions have been invoked, in order; then those in `cancelled`
have been cancelled; the others are pending or still in `m_actions`. As long as none has been
cancelled, these two together hold them in order, and once one has been, the worker invokes
no more. -/
structure Placed (s : SimpleContext τ) (k : ℕ) (cancelled : List ℕ) : Prop where
  log : s.log = (List.range k).map .invoked ++ cancelled.map .cancelled
  le : k ≤ s.accepted
  perm : (cancelled ++ (s.pendingActions ++ s.actions)).Perm (List.range' k (s.accepted - k))
  order : cancelled = [] → s.pendingActions ++ s.actions = List.range' k (s.accepted - k)
  stopped : cancelled ≠ [] → s.stackStopper = true ∨ s.worker = .exited

structure Inv (s : SimpleContext τ) : Prop where
  placed : ∃ k cancelled, s.Placed k cancelled
  pending : s.worker.idle = true → s.pendingActions = []
  running : s.disposal ≠ .none → s.running = false
  cancelling : s.disposal = .cancelling → s.stackStopper = true ∨ s.worker = .exited
  done : s.disposal = .done → s.actions = [] ∧ ∀ thread, s.mutex ≠ .adding thread

theorem inv_init (suspendable suspended : Bool) :
    (init suspendable suspended : SimpleContext τ).Inv where
  placed := ⟨0, [], rfl, Nat.le_refl 0, .nil, fun _ => rfl, fun h => absurd rfl h⟩
  pending _ := rfl
  running h := absurd rfl h
  cancelling h := by cases h
  done h := by cases h

variable {s t : SimpleContext τ} {k : ℕ} {cancelled : List ℕ}

/-- Steps that move no action keep the actions where they are. -/
theorem Placed.frame (h : s.Placed k cancelled) (hlog : t.log = s.log)
    (haccepted : t.accepted = s.accepted) (hpending : t.pendingActions = s.pendingActions)
    (hactions : t.actions = s.actions)
    (hstopped : s.stackStopper = true ∨ s.worker = .exited →
      t.stackStopper = true ∨ t.worker = .exited) : t.Placed k cancelled where
  log := hlog.trans h.log
  le := haccepted ▸ h.le
  perm := by rw [hpending, hactions, haccepted]; exact h.perm
  order := by rw [hpending, hactions, haccepted]; exact h.order
  stopped hne := hstopped (h.stopped hne)

/-- An accepted action comes last. -/
theorem Placed.push (h : s.Placed k cancelled) (hlog : t.log = s.log)
    (haccepted : t.accepted = s.accepted + 1) (hpending : t.pendingActions = s.pendingActions)
    (hactions : t.actions = s.actions ++ [s.accepted])
    (hstopper : t.stackStopper = s.stackStopper) (hworker : t.worker = s.worker) :
    t.Placed k cancelled := by
  have hle := h.le
  have hrange : List.range' k (s.accepted + 1 - k) =
      List.range' k (s.accepted - k) ++ [s.accepted] := by
    rw [Nat.succ_sub hle, List.range'_1_concat, Nat.add_sub_cancel' hle]
  constructor
  · exact hlog.trans h.log
  · omega
  · rw [hpending, hactions, haccepted, hrange, ← List.append_assoc, ← List.append_assoc,
      List.append_assoc cancelled]
    exact h.perm.append_right _
  · intro hnil
    rw [hpending, hactions, haccepted, hrange, ← List.append_assoc, h.order hnil]
  · rw [hstopper, hworker]
    exact h.stopped

/-- The worker takes over all actions. -/
theorem Placed.swap (h : s.Placed k cancelled) (hnil : s.pendingActions = [])
    (hlog : t.log = s.log) (haccepted : t.accepted = s.accepted)
    (hpending : t.pendingActions = s.actions) (hactions : t.actions = s.pendingActions)
    (hstopped : s.stackStopper = true ∨ s.worker = .exited →
      t.stackStopper = true ∨ t.worker = .exited) : t.Placed k cancelled := by
  have hsame : t.pendingActions ++ t.actions = s.pendingActions ++ s.actions := by
    rw [hpending, hactions, hnil, List.append_nil, List.nil_append]
  constructor
  · exact hlog.trans h.log
  · exact haccepted ▸ h.le
  · rw [hsame, haccepted]; exact h.perm
  · rw [hsame, haccepted]; exact h.order
  · exact fun hne => hstopped (h.stopped hne)

/-- A pending action is invoked: nothing has been cancelled, so it is the next in order. -/
theorem Placed.invoke (h : s.Placed k cancelled) {action : ℕ} {pending : List ℕ}
    (hs : s.pendingActions = action :: pending) (hstopper : s.stackStopper = false)
    (hworker : s.worker ≠ .exited) (hlog : t.log = s.log ++ [.invoked action])
    (haccepted : t.accepted = s.accepted) (hpending : t.pendingActions = pending)
    (hactions : t.actions = s.actions) : t.Placed (k + 1) cancelled := by
  have hnil : cancelled = [] := by
    by_contra hne
    rcases h.stopped hne with hst | hex
    · exact absurd hst (by simp [hstopper])
    · exact hworker hex
  subst hnil
  have horder := h.order rfl
  rw [hs, List.cons_append] at horder
  have hlt : k < s.accepted := by
    have hlength := congrArg List.length horder
    rw [List.length_cons, List.length_range'] at hlength
    omega
  have hrange : List.range' k (s.accepted - k) =
      k :: List.range' (k + 1) (s.accepted - (k + 1)) := by
    rw [show s.accepted - k = s.accepted - (k + 1) + 1 by omega, List.range'_succ]
  rw [hrange] at horder
  obtain ⟨rfl, htail⟩ := List.cons.inj horder
  have hsame : t.pendingActions ++ t.actions =
      List.range' (action + 1) (t.accepted - (action + 1)) := by
    rw [hpending, hactions, haccepted, htail]
  constructor
  · rw [hlog, h.log, List.range_succ]
    simp
  · omega
  · rw [List.nil_append, hsame]
  · exact fun _ => hsame
  · exact fun hne => absurd rfl hne

/-- A pending action is cancelled. -/
theorem Placed.cancelPending (h : s.Placed k cancelled) {action : ℕ} {pending : List ℕ}
    (hs : s.pendingActions = action :: pending) (hlog : t.log = s.log ++ [.cancelled action])
    (haccepted : t.accepted = s.accepted) (hpending : t.pendingActions = pending)
    (hactions : t.actions = s.actions) (hstopper : t.stackStopper = true) :
    t.Placed k (cancelled ++ [action]) := by
  constructor
  · rw [hlog, h.log]
    simp
  · exact haccepted ▸ h.le
  · have hperm := h.perm
    rw [hs] at hperm
    rw [hpending, hactions, haccepted, List.append_assoc, List.singleton_append]
    exact hperm
  · intro hnil
    simp at hnil
  · exact fun _ => .inl hstopper

/-- What is left in `m_actions` is cancelled. -/
theorem Placed.cancelActions (h : s.Placed k cancelled)
    (hlog : t.log = s.log ++ s.actions.map .cancelled) (haccepted : t.accepted = s.accepted)
    (hpending : t.pendingActions = s.pendingActions) (hactions : t.actions = [])
    (hstopped : t.stackStopper = true ∨ t.worker = .exited) :
    t.Placed k (cancelled ++ s.actions) := by
  constructor
  · rw [hlog, h.log, List.map_append, List.append_assoc]
  · exact haccepted ▸ h.le
  · rw [hpending, hactions, haccepted, List.append_nil, List.append_assoc]
    exact (List.perm_append_comm.append_left cancelled).trans h.perm
  · intro hnil
    obtain ⟨hc, ha⟩ := List.append_eq_nil_iff.mp hnil
    have horder := h.order hc
    rw [ha] at horder
    rw [hpending, hactions, haccepted, horder]
  · exact fun _ => hstopped

/-- The worker moves on, with the actions left where they are. -/
theorem Inv.move (h : s.Inv) {w : WorkerState} {m : ContextMutex τ}
    (hworker : s.worker ≠ .exited) (hw : w.idle = true → s.pendingActions = [])
    (hm : (∀ thread, s.mutex ≠ .adding thread) → ∀ thread, m ≠ .adding thread) :
    ({ s with worker := w, mutex := m } : SimpleContext τ).Inv := by
  obtain ⟨k, cancelled, hplaced⟩ := h.placed
  constructor
  · exact ⟨k, cancelled, hplaced.frame rfl rfl rfl rfl
      fun hs => .inl (hs.resolve_right hworker)⟩
  · exact hw
  · exact h.running
  · exact fun hd => .inl ((h.cancelling hd).resolve_right hworker)
  · exact fun hd => ⟨(h.done hd).1, hm (h.done hd).2⟩

/-! ### What a step does -/

section Inversion

variable [DecidableEq τ] {thread : τ}

theorem addAction_of_step (ht : s.step (.addAction thread) = some t) :
    s.mutex = .free ∧
      (s.running = true ∧ t = { s with mutex := .adding thread } ∨
        s.running = false ∧ t = s) := by
  simp only [SimpleContext.step] at ht
  split at ht
  · rename_i hmutex
    split at ht
    · rename_i hrun
      exact ⟨hmutex, .inl ⟨hrun, (Option.some.inj ht).symm⟩⟩
    · rename_i hrun
      exact ⟨hmutex, .inr ⟨Bool.eq_false_iff.mpr hrun, (Option.some.inj ht).symm⟩⟩
  · cases ht

theorem pushAction_of_step (ht : s.step (.pushAction thread) = some t) :
    s.mutex = .adding thread ∧ t = { s with
      actions := s.actions ++ [s.accepted]
      accepted := s.accepted + 1
      mutex := .free } := by
  simp only [SimpleContext.step] at ht
  split at ht
  · rename_i holder hmutex
    split at ht
    · rename_i hholder
      exact ⟨hholder ▸ hmutex, (Option.some.inj ht).symm⟩
    · cases ht
  · cases ht

/-- The next pending action is invoked, or cancelled if the worker is to stop. -/
theorem nextAction_of_step (ht : s.step .nextAction = some t) :
    ∃ stop action pending, s.worker = .actions stop ∧ s.pendingActions = action :: pending ∧
      (s.stackStopper = true ∧
          t = { s with pendingActions := pending, log := s.log ++ [.cancelled action] } ∨
        s.stackStopper = false ∧ t = { s with
          worker := .invoking stop
          pendingActions := pending
          log := s.log ++ [.invoked action] }) := by
  simp only [SimpleContext.step] at ht
  split at ht
  · rename_i stop action pending hworker hpending
    refine ⟨stop, action, pending, hworker, hpending, ?_⟩
    split at ht
    · rename_i hstopper
      exact .inl ⟨hstopper, (Option.some.inj ht).symm⟩
    · rename_i hstopper
      exact .inr ⟨Bool.eq_false_iff.mpr hstopper, (Option.some.inj ht).symm⟩
  · cases ht

theorem actionReturned_of_step (ht : s.step .actionReturned = some t) :
    ∃ stop, s.worker = .invoking stop ∧ t = { s with worker := .actions stop } := by
  simp only [SimpleContext.step] at ht
  split at ht
  · cases ht
  · cases ht
  · rename_i stop hworker _ _
    exact ⟨stop, hworker, (Option.some.inj ht).symm⟩
  · cases ht

/-- When a timer or an action returns, the worker goes on with its actions. -/
theorem returned_of_step {a : ContextStep τ} (ha : a = .timersInvoked ∨ a = .actionReturned)
    (ht : s.step a = some t) :
    ∃ stop, (s.worker = .timers stop ∨ s.worker = .invoking stop) ∧
      t = { s with worker := .actions stop } := by
  rcases ha with rfl | rfl
  · simp only [SimpleContext.step] at ht
    split at ht
    · cases ht
    · cases ht
    · rename_i stop hworker _ _
      exact ⟨stop, .inl hworker, (Option.some.inj ht).symm⟩
    · cases ht
  · obtain ⟨stop, hworker, rfl⟩ := actionReturned_of_step ht
    exact ⟨stop, .inr hworker, rfl⟩

end Inversion

/-! ### Every step keeps the invariant -/

/-- `add_action` takes the mutex or appends to `m_actions`. -/
theorem Inv.add [DecidableEq τ] (h : s.Inv) {thread : τ}
    (ht : s.step (.addAction thread) = some t ∨ s.step (.pushAction thread) = some t) :
    t.Inv := by
  obtain ⟨k, cancelled, hplaced⟩ := h.placed
  rcases ht with ht | ht
  · obtain ⟨-, ⟨hrun, rfl⟩ | ⟨-, rfl⟩⟩ := addAction_of_step ht
    · -- a context found running is not being disposed
      have hnone : s.disposal = .none := by
        by_contra hne
        exact absurd hrun (by simp [h.running hne])
      exact ⟨⟨k, cancelled, hplaced.frame rfl rfl rfl rfl id⟩, h.pending, h.running,
        h.cancelling, fun hd => by rw [hnone] at hd; cases hd⟩
    · exact h
  · obtain ⟨hmutex, rfl⟩ := pushAction_of_step ht
    exact ⟨⟨k, cancelled, hplaced.push rfl rfl rfl rfl rfl rfl⟩, h.pending, h.running,
      h.cancelling, fun hd => absurd hmutex ((h.done hd).2 thread)⟩

/-- The worker takes over the actions, unless the context is suspended. -/
theorem Inv.swapActions [DecidableEq τ] (h : s.Inv) (ht : s.step .swapActions = some t) :
    t.Inv := by
  simp only [SimpleContext.step] at ht
  split at ht
  · rename_i hworker
    have hne : s.worker ≠ .exited := by rw [hworker]; exact WorkerState.noConfusion
    have hnil : s.pendingActions = [] := h.pending (by rw [hworker]; rfl)
    split at ht
    · obtain rfl := Option.some.inj ht
      exact h.move hne (fun _ => hnil) id
    · obtain rfl := Option.some.inj ht
      obtain ⟨k, cancelled, hplaced⟩ := h.placed
      exact ⟨⟨k, cancelled, hplaced.swap hnil rfl rfl rfl rfl
          fun hs => .inl (hs.resolve_right hne)⟩,
        fun hi => (by cases hi), h.running,
        fun hd => .inl ((h.cancelling hd).resolve_right hne),
        fun hd => ⟨hnil, (h.done hd).2⟩⟩
  · cases ht

/-- The worker invokes or cancels the next pending action. -/
theorem Inv.nextAction [DecidableEq τ] (h : s.Inv) (ht : s.step .nextAction = some t) :
    t.Inv := by
  obtain ⟨stop, action, pending, hworker, hs, ⟨hstopper, rfl⟩ | ⟨hstopper, rfl⟩⟩ :=
    nextAction_of_step ht
  · obtain ⟨k, cancelled, hplaced⟩ := h.placed
    refine ⟨⟨k, cancelled ++ [action], hplaced.cancelPending hs rfl rfl rfl rfl hstopper⟩,
      fun hi => ?_, h.running, h.cancelling, h.done⟩
    rw [hworker] at hi
    cases hi
  · obtain ⟨k, cancelled, hplaced⟩ := h.placed
    have hne : s.worker ≠ .exited := by rw [hworker]; exact WorkerState.noConfusion
    exact ⟨⟨k + 1, cancelled, hplaced.invoke hs hstopper hne rfl rfl rfl rfl⟩,
      fun hi => (by cases hi), h.running,
      fun hd => .inl ((h.cancelling hd).resolve_right hne), h.done⟩

/-- `dispose` moves on. -/
theorem Inv.disposed [DecidableEq τ] (h : s.Inv) {a : ContextStep τ}
    (ha : a = .dispose ∨ a = .disposeOnWorker ∨ a = .joinWorker ∨ a = .stopStack)
    (ht : s.step a = some t) : t.Inv := by
  obtain ⟨k, cancelled, hplaced⟩ := h.placed
  rcases ha with rfl | rfl | rfl | rfl <;> simp only [SimpleContext.step] at ht <;>
    split at ht
  all_goals try cases ht
  -- `m_running` is cleared first
  · exact ⟨⟨k, cancelled, hplaced.frame rfl rfl rfl rfl id⟩, h.pending, fun _ => rfl,
      fun hd => (by cases hd), fun hd => (by cases hd)⟩
  · exact ⟨⟨k, cancelled, hplaced.frame rfl rfl rfl rfl id⟩, h.pending, fun _ => rfl,
      fun hd => (by cases hd), fun hd => (by cases hd)⟩
  · exact ⟨⟨k, cancelled, hplaced.frame rfl rfl rfl rfl id⟩, h.pending, fun _ => rfl,
      fun hd => (by cases hd), fun hd => (by cases hd)⟩
  -- cancelling begins when the worker has exited or is told to stop
  · rename_i hworker hdisposal
    exact ⟨⟨k, cancelled, hplaced.frame rfl rfl rfl rfl id⟩, h.pending,
      fun _ => h.running (by rw [hdisposal]; exact Disposal.noConfusion),
      fun _ => .inr hworker, fun hd => (by cases hd)⟩
  · rename_i hdisposal
    exact ⟨⟨k, cancelled, hplaced.frame rfl rfl rfl rfl fun _ => .inl rfl⟩, h.pending,
      fun _ => h.running (by rw [hdisposal]; exact Disposal.noConfusion),
      fun _ => .inl rfl, fun hd => (by cases hd)⟩

/-- `dispose` cancels what is left in `m_actions`. -/
theorem Inv.cancelActions [DecidableEq τ] (h : s.Inv) (ht : s.step .cancelActions = some t) :
    t.Inv := by
  simp only [SimpleContext.step] at ht
  split at ht
  · rename_i hmutex hdisposal
    obtain ⟨k, cancelled, hplaced⟩ := h.placed
    obtain rfl := Option.some.inj ht
    refine ⟨⟨k, cancelled ++ s.actions,
      hplaced.cancelActions rfl rfl rfl rfl (h.cancelling hdisposal)⟩, h.pending,
      fun _ => h.running (by rw [hdisposal]; exact Disposal.noConfusion),
      fun hd => (by cases hd), fun _ => ⟨rfl, fun thread hm => ?_⟩⟩
    rw [hmutex] at hm
    cases hm
  · cases ht

/-- No action moves when the context is suspended or resumed. -/
theorem Inv.setSuspended (h : s.Inv) (suspended : Bool) :
    ({ s with suspended := suspended } : SimpleContext τ).Inv := by
  obtain ⟨k, cancelled, hplaced⟩ := h.placed
  exact ⟨⟨k, cancelled, hplaced.frame rfl rfl rfl rfl id⟩, h.pending, h.running, h.cancelling,
    h.done⟩

theorem Inv.returned [DecidableEq τ] (h : s.Inv) {a : ContextStep τ}
    (ha : a = .timersInvoked ∨ a = .actionReturned) (ht : s.step a = some t) : t.Inv := by
  obtain ⟨stop, hworker, rfl⟩ := returned_of_step ha ht
  refine h.move (fun hexited => ?_) (fun hi => by cases hi) id
  rcases hworker with hworker | hworker <;> exact nomatch hworker.symm.trans hexited

/-- Every step keeps the invariant. -/
theorem Inv.step [DecidableEq τ] (h : s.Inv) (a : ContextStep τ) (ht : s.step a = some t) :
    t.Inv := by
  cases a with
  | addAction thread => exact h.add (.inl ht)
  | pushAction thread => exact h.add (.inr ht)
  | swapActions => exact h.swapActions ht
  | nextAction => exact h.nextAction ht
  | dispose => exact h.disposed (.inl rfl) ht
  | disposeOnWorker => exact h.disposed (.inr (.inl rfl)) ht
  | joinWorker => exact h.disposed (.inr (.inr (.inl rfl))) ht
  | stopStack => exact h.disposed (.inr (.inr (.inr rfl))) ht
  | cancelActions => exact h.cancelActions ht
  | suspend =>
    simp only [SimpleContext.step] at ht
    split at ht
    · obtain rfl := Option.some.inj ht
      exact h.setSuspended true
    · cases ht
  | resume =>
    simp only [SimpleContext.step] at ht
    split at ht
    · obtain rfl := Option.some.inj ht
      exact h.setSuspended false
    · cases ht
  | wake =>
    simp only [SimpleContext.step] at ht
    split at ht
    · rename_i hmutex hworker
      obtain rfl := Option.some.inj ht
      exact h.move (by rw [hworker]; exact WorkerState.noConfusion)
        (fun _ => h.pending (by rw [hworker]; rfl)) fun _ _ => nofun
    · cases ht
  | unlock =>
    simp only [SimpleContext.step] at ht
    split at ht
    · rename_i hworker
      obtain rfl := Option.some.inj ht
      exact h.move (by rw [hworker]; exact WorkerState.noConfusion) (fun hi => by cases hi)
        fun _ _ => nofun
    · cases ht
  | timersInvoked => exact h.returned (.inl rfl) ht
  | actionReturned => exact h.returned (.inr rfl) ht
  | endIteration =>
    simp only [SimpleContext.step] at ht
    split at ht
    · rename_i hworker hnil
      obtain rfl := Option.some.inj ht
      exact h.move (by rw [hworker]; exact WorkerState.noConfusion) (fun _ => hnil) id
    · cases ht

/-! ### Whole runs -/

/-- **The invariant holds after every run.** -/
theorem inv_run [DecidableEq τ] {suspendable suspended : Bool} {l : List (ContextStep τ)}
    (hrun : run SimpleContext.step (init suspendable suspended) l = some s) : s.Inv :=
  run_invariant hrun (fun _ a _ h ht => h.step a ht) (inv_init suspendable suspended)

theorem Placed.count_invoked (h : s.Placed k cancelled) (a : ℕ) :
    s.log.count (.invoked a) = (List.range k).count a := by
  have hcancelled : (cancelled.map ContextEvent.cancelled).count (.invoked a) = 0 := by
    rw [List.count_eq_zero]
    simp
  rw [h.log, List.count_append, hcancelled, Nat.add_zero,
    List.count_map_of_injective _ _ fun _ _ => ContextEvent.invoked.inj]

theorem Placed.count_cancelled (h : s.Placed k cancelled) (a : ℕ) :
    s.log.count (.cancelled a) = cancelled.count a := by
  have hinvoked : ((List.range k).map ContextEvent.invoked).count (.cancelled a) = 0 := by
    rw [List.count_eq_zero]
    simp
  rw [h.log, List.count_append, hinvoked, Nat.zero_add,
    List.count_map_of_injective _ _ fun _ _ => ContextEvent.cancelled.inj]

/-- When nothing is pending or waiting, the first `k` actions have been invoked once and the
others cancelled once. -/
theorem Placed.settled (h : s.Placed k cancelled) (hpending : s.pendingActions = [])
    (hactions : s.actions = []) {a : ℕ} (ha : a < s.accepted) :
    (s.log.count (.invoked a) = 1 ∧ s.log.count (.cancelled a) = 0) ∨
      (s.log.count (.invoked a) = 0 ∧ s.log.count (.cancelled a) = 1) := by
  have hperm : cancelled.Perm (List.range' k (s.accepted - k)) := by
    have hperm := h.perm
    rwa [hpending, hactions, List.append_nil, List.append_nil] at hperm
  have hle := h.le
  rw [h.count_invoked, h.count_cancelled, hperm.count_eq]
  rcases Nat.lt_or_ge a k with hlt | hge
  · left
    refine ⟨List.count_eq_one_of_mem List.nodup_range (List.mem_range.mpr hlt), ?_⟩
    rw [List.count_eq_zero, List.mem_range'_1]
    omega
  · right
    refine ⟨?_, List.count_eq_one_of_mem List.nodup_range' (List.mem_range'_1.mpr (by omega))⟩
    rw [List.count_eq_zero, List.mem_range]
    omega

/-- The actions invoked are the first accepted ones, in order. -/
theorem Placed.invoked (h : s.Placed k cancelled) :
    s.log.filterMap ContextEvent.invokedAction = List.range k := by
  rw [h.log, List.filterMap_append, List.filterMap_map, List.filterMap_map]
  have hi : ContextEvent.invokedAction ∘ ContextEvent.invoked = some := rfl
  have hc : ContextEvent.invokedAction ∘ ContextEvent.cancelled = fun _ => none := rfl
  rw [hi, hc]
  simp

/-- Nothing is invoked after a cancellation. -/
theorem Placed.after_cancelled (h : s.Placed k cancelled) {l₁ l₂ : List ContextEvent} {a : ℕ}
    (hlog : s.log = l₁ ++ .cancelled a :: l₂) (b : ℕ) : ContextEvent.invoked b ∉ l₂ := by
  rw [h.log] at hlog
  rcases List.append_eq_append_iff.mp hlog with ⟨l, -, hl⟩ | ⟨l, hl, hl'⟩
  · -- the cancellation and all that follows are among the cancellations
    intro hb
    have hmem : ContextEvent.invoked b ∈ cancelled.map ContextEvent.cancelled := by
      rw [hl]
      simp [hb]
    simp at hmem
  · cases l with
    | nil =>
      intro hb
      have hmem : ContextEvent.invoked b ∈ cancelled.map ContextEvent.cancelled := by
        rw [List.nil_append] at hl'
        rw [← hl']
        simp [hb]
      simp at hmem
    | cons e l =>
      -- a cancellation among the invocations
      rw [List.cons_append] at hl'
      obtain ⟨rfl, -⟩ := List.cons.inj hl'
      have hmem : ContextEvent.cancelled a ∈ (List.range k).map ContextEvent.invoked := by
        rw [hl]
        simp
      simp at hmem

/-- The actions invoked were accepted before those cancelled. -/
theorem Placed.invoked_lt_cancelled (h : s.Placed k cancelled) {a b : ℕ}
    (ha : ContextEvent.cancelled a ∈ s.log) (hb : ContextEvent.invoked b ∈ s.log) : b < a := by
  rw [h.log] at ha hb
  have hbk : b < k := by simpa using hb
  have hac : a ∈ cancelled := by simpa using ha
  have hmem : a ∈ List.range' k (s.accepted - k) :=
    h.perm.subset (List.mem_append_left _ hac)
  exact Nat.lt_of_lt_of_le hbk (List.mem_range'_1.mp hmem).1

/-- **Every accepted action is invoked once or cancelled once.** In every state of every run,
the actions invoked so far are the first accepted ones, in the order in which they were
accepted, none is invoked after a cancellation, and none that was accepted after a cancelled
one is invoked; when `dispose` is done and the worker has exited, each accepted action has been
either invoked once or cancelled once. -/
theorem actions_settled [DecidableEq τ] (suspendable suspended : Bool)
    (l : List (ContextStep τ))
    (hrun : run SimpleContext.step (init suspendable suspended) l = some s) :
    (∃ k ≤ s.accepted, s.log.filterMap ContextEvent.invokedAction = List.range k) ∧
      (∀ l₁ a l₂, s.log = l₁ ++ .cancelled a :: l₂ → ∀ b, ContextEvent.invoked b ∉ l₂) ∧
      (∀ a b, ContextEvent.cancelled a ∈ s.log → ContextEvent.invoked b ∈ s.log → b < a) ∧
      (s.disposal = .done → s.worker = .exited → ∀ a < s.accepted,
        (s.log.count (.invoked a) = 1 ∧ s.log.count (.cancelled a) = 0) ∨
          (s.log.count (.invoked a) = 0 ∧ s.log.count (.cancelled a) = 1)) := by
  have hinv := inv_run hrun
  obtain ⟨k, cancelled, hplaced⟩ := hinv.placed
  refine ⟨⟨k, hplaced.le, hplaced.invoked⟩,
    fun l₁ a l₂ hlog b => hplaced.after_cancelled hlog b,
    fun a b => hplaced.invoked_lt_cancelled, fun hdone hworker a ha => ?_⟩
  have hpending : s.pendingActions = [] := hinv.pending (by rw [hworker]; rfl)
  exact hplaced.settled hpending (hinv.done hdone).1 ha

/-- Three actions are accepted, the first disposes of the context; the second is cancelled by
the worker and the third by `dispose`. -/
def disposeInAction : List (ContextStep ℕ) :=
  [.addAction 0, .pushAction 0, .addAction 1, .pushAction 1, .wake, .swapActions, .unlock,
    .addAction 0, .pushAction 0, .timersInvoked, .nextAction, .disposeOnWorker, .addAction 1,
    .stopStack, .cancelActions, .actionReturned, .nextAction, .endIteration]

theorem actions_settled_disposeInAction :
    ∃ s, run SimpleContext.step (init false false) disposeInAction = some s ∧
      s.disposal = .done ∧ s.worker = .exited ∧ s.accepted = 3 ∧
      s.log = [.invoked 0, .cancelled 2, .cancelled 1] ∧
      ∀ a < s.accepted, (s.log.count (.invoked a) = 1 ∧ s.log.count (.cancelled a) = 0) ∨
        (s.log.count (.invoked a) = 0 ∧ s.log.count (.cancelled a) = 1) :=
  ⟨_, rfl, rfl, rfl, rfl, rfl, (actions_settled false false disposeInAction rfl).2.2.2 rfl rfl⟩

end SimpleContext

end UtilityFramework
