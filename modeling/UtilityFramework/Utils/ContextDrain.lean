import UtilityFramework.Utils.SimpleContext

/-!
# Draining a context

A context that is not suspendable and is disposed of from another thread only is drained: its
worker reads `m_running` for the last time while it still holds the mutex under which it has
taken over all actions, and no action is accepted once `m_running` is cleared. When the worker
has exited, every accepted action has been invoked, in order, and none is cancelled.
-/

namespace UtilityFramework

/-- Not the `dispose` that an action or a timer calls. -/
def ContextStep.FromOutside {τ : Type*} : ContextStep τ → Prop
  | .disposeOnWorker => False
  | _ => True

/-- The worker has read that it is to stop. -/
def WorkerState.stops : WorkerState → Bool
  | .timers stop | .actions stop | .invoking stop => stop
  | .exited => true
  | _ => false

namespace SimpleContext

variable {τ : Type*} {s t : SimpleContext τ} {k : ℕ}

/-- What holds of a context that is drained. -/
structure Draining (s : SimpleContext τ) : Prop where
  suspendable : s.suspendable = false
  stackStopper : s.stackStopper = false
  outside : s.disposal ≠ .stopping
  locked : s.worker = .locked ∨ s.worker = .swapped → s.mutex = .worker
  swapped : s.worker = .swapped → s.actions = []
  stopped : s.worker.stops = true →
    s.running = false ∧ s.actions = [] ∧ ∀ thread, s.mutex ≠ .adding thread
  joined : s.disposal = .cancelling ∨ s.disposal = .done → s.worker = .exited
  log : ∀ a, ContextEvent.cancelled a ∉ s.log
  running : s.disposal = .none → s.running = true

theorem draining_init : (init false false : SimpleContext τ).Draining where
  suspendable := rfl
  stackStopper := rfl
  outside := Disposal.noConfusion
  locked h := by rcases h with h | h <;> cases h
  swapped h := by cases h
  stopped h := by cases h
  joined h := by rcases h with h | h <;> cases h
  log _ h := by cases h
  running _ := rfl

/-- The worker moves on without touching the actions. -/
theorem Draining.move (h : s.Draining) {w : WorkerState} {m : ContextMutex τ}
    (hworker : s.worker ≠ .exited)
    (hlocked : w = .locked ∨ w = .swapped → m = .worker)
    (hswapped : w = .swapped → s.actions = [])
    (hstopped : w.stops = true →
      s.running = false ∧ s.actions = [] ∧ ∀ thread, m ≠ .adding thread) :
    ({ s with worker := w, mutex := m } : SimpleContext τ).Draining where
  suspendable := h.suspendable
  stackStopper := h.stackStopper
  outside := h.outside
  locked := hlocked
  swapped := hswapped
  stopped := hstopped
  joined hd := absurd (h.joined hd) hworker
  log := h.log
  running := h.running

variable [DecidableEq τ]

theorem Draining.add (h : s.Draining) {thread : τ}
    (ht : s.step (.addAction thread) = some t ∨ s.step (.pushAction thread) = some t) :
    t.Draining := by
  -- the worker is not in its critical section while the mutex is not its own
  have hapart : s.mutex ≠ .worker → ¬(s.worker = .locked ∨ s.worker = .swapped) :=
    fun hmutex hw => hmutex (h.locked hw)
  rcases ht with ht | ht
  · obtain ⟨hmutex, ⟨hrun, rfl⟩ | ⟨-, rfl⟩⟩ := addAction_of_step ht
    · have hne := hapart (by rw [hmutex]; nofun)
      exact ⟨h.suspendable, h.stackStopper, h.outside, fun hw => absurd hw hne, h.swapped,
        fun hw => absurd hrun (by simp [(h.stopped hw).1]), h.joined, h.log, h.running⟩
    · exact h
  · obtain ⟨hmutex, rfl⟩ := pushAction_of_step ht
    -- nor is it about to stop
    have hne := hapart (by rw [hmutex]; nofun)
    exact ⟨h.suspendable, h.stackStopper, h.outside, fun hw => absurd hw hne,
      fun hw => absurd (.inr hw) hne, fun hw => absurd hmutex ((h.stopped hw).2.2 thread),
      h.joined, h.log, h.running⟩

/-- In its critical section the worker takes over all actions, and then reads `m_running`. -/
theorem Draining.critical (h : s.Draining) (hinv : s.Inv) {a : ContextStep τ}
    (ha : a = .wake ∨ a = .swapActions ∨ a = .unlock) (ht : s.step a = some t) :
    t.Draining := by
  rcases ha with rfl | rfl | rfl <;> simp only [SimpleContext.step] at ht
  · split at ht
    · rename_i hmutex hworker
      obtain rfl := Option.some.inj ht
      exact h.move (by simp [hworker]) (fun _ => rfl) (by simp) (by simp [WorkerState.stops])
    · cases ht
  · split at ht
    · rename_i hworker
      have hnil : s.pendingActions = [] := hinv.pending (by rw [hworker]; rfl)
      split at ht
      · rename_i hsuspended
        exact absurd hsuspended.1 (by simp [h.suspendable])
      · obtain rfl := Option.some.inj ht
        refine ⟨h.suspendable, h.stackStopper, h.outside, fun _ => h.locked (.inl hworker),
          fun _ => hnil, by simp [WorkerState.stops], fun hd => ?_, h.log, h.running⟩
        have := h.joined hd
        rw [hworker] at this
        cases this
    · cases ht
  · split at ht
    · rename_i hworker
      obtain rfl := Option.some.inj ht
      refine h.move (by simp [hworker]) (by simp) (by simp) fun hw => ?_
      exact ⟨by simpa [WorkerState.stops] using hw, h.swapped hworker, by simp⟩
    · cases ht

theorem Draining.returned (h : s.Draining) {a : ContextStep τ}
    (ha : a = .timersInvoked ∨ a = .actionReturned) (ht : s.step a = some t) : t.Draining := by
  obtain ⟨stop, hworker, rfl⟩ := returned_of_step ha ht
  rcases hworker with hworker | hworker
  · exact h.move (by simp [hworker]) (by simp) (by simp)
      fun hw => h.stopped (by rw [hworker]; exact hw)
  · exact h.move (by simp [hworker]) (by simp) (by simp)
      fun hw => h.stopped (by rw [hworker]; exact hw)

/-- Outside it the flag `stop_thread` is only passed on. -/
theorem Draining.passOn (h : s.Draining) {a : ContextStep τ}
    (ha : a = .timersInvoked ∨ a = .actionReturned ∨ a = .endIteration)
    (ht : s.step a = some t) : t.Draining := by
  rcases ha with rfl | rfl | rfl
  · exact h.returned (.inl rfl) ht
  · exact h.returned (.inr rfl) ht
  · simp only [SimpleContext.step] at ht
    split at ht
    · rename_i stop hworker hnil
      obtain rfl := Option.some.inj ht
      cases stop with
      | true =>
        simp only [true_or, if_true]
        exact h.move (by simp [hworker]) (by simp) (by simp)
          fun _ => h.stopped (by rw [hworker]; rfl)
      | false =>
        simp only [h.stackStopper, Bool.false_eq_true, or_self, if_false]
        have := h.move (w := .waiting) (m := s.mutex) (by simp [hworker]) (by simp) (by simp)
          (by simp [WorkerState.stops])
        rwa [h.stackStopper] at this
    · cases ht

/-- The worker invokes the next action; none is cancelled. -/
theorem Draining.nextAction_of_step (h : s.Draining) (ht : s.step .nextAction = some t) :
    ∃ stop action pending, s.worker = .actions stop ∧ s.pendingActions = action :: pending ∧
      t = { s with
        worker := .invoking stop
        pendingActions := pending
        log := s.log ++ [.invoked action] } := by
  obtain ⟨stop, action, pending, hworker, hpending, ⟨hstopper, -⟩ | ⟨-, rfl⟩⟩ :=
    SimpleContext.nextAction_of_step ht
  · exact absurd hstopper (by simp [h.stackStopper])
  · exact ⟨stop, action, pending, hworker, hpending, rfl⟩

theorem Draining.nextAction (h : s.Draining) (ht : s.step .nextAction = some t) :
    t.Draining := by
  obtain ⟨stop, action, pending, hworker, hpending, rfl⟩ := h.nextAction_of_step ht
  refine ⟨h.suspendable, h.stackStopper, h.outside, by simp, by simp,
    fun hw => h.stopped (by rw [hworker]; exact hw), fun hd => ?_, fun a ha => ?_, h.running⟩
  · have := h.joined hd
    rw [hworker] at this
    cases this
  · rcases List.mem_append.mp ha with ha | ha
    · exact h.log a ha
    · simp at ha

/-- `dispose`, called by another thread. -/
theorem Draining.disposed (h : s.Draining) {a : ContextStep τ}
    (ha : a = .dispose ∨ a = .joinWorker ∨ a = .cancelActions) (ht : s.step a = some t) :
    t.Draining := by
  rcases ha with rfl | rfl | rfl <;> simp only [SimpleContext.step] at ht
  · split at ht
    · obtain rfl := Option.some.inj ht
      exact ⟨h.suspendable, h.stackStopper, by simp, h.locked, h.swapped,
        fun hw => ⟨rfl, (h.stopped hw).2⟩, by simp, h.log, by simp⟩
    · cases ht
  · split at ht
    · rename_i hworker hdisposal
      obtain rfl := Option.some.inj ht
      exact ⟨h.suspendable, h.stackStopper, by simp, h.locked, h.swapped, h.stopped,
        fun _ => hworker, h.log, by simp⟩
    · cases ht
  · split at ht
    · rename_i hmutex hdisposal
      obtain rfl := Option.some.inj ht
      have hworker : s.worker = .exited := h.joined (.inl hdisposal)
      have hstopped := h.stopped (by rw [hworker]; rfl)
      refine ⟨h.suspendable, h.stackStopper, by simp, h.locked, fun _ => rfl,
        fun hw => ⟨hstopped.1, rfl, hstopped.2.2⟩, fun _ => hworker, fun a ha => ?_, by simp⟩
      rw [hstopped.2.1, List.map_nil, List.append_nil] at ha
      exact h.log a ha
    · cases ht

/-- Every step keeps what holds of a context that is drained. -/
theorem Draining.step (h : s.Draining) (hinv : s.Inv) {a : ContextStep τ} (ha : a.FromOutside)
    (ht : s.step a = some t) : t.Draining := by
  cases a with
  | addAction thread => exact h.add (.inl ht)
  | pushAction thread => exact h.add (.inr ht)
  | suspend =>
    simp [SimpleContext.step, h.suspendable] at ht
  | resume =>
    simp [SimpleContext.step, h.suspendable] at ht
  | wake => exact h.critical hinv (.inl rfl) ht
  | swapActions => exact h.critical hinv (.inr (.inl rfl)) ht
  | unlock => exact h.critical hinv (.inr (.inr rfl)) ht
  | timersInvoked => exact h.passOn (.inl rfl) ht
  | nextAction => exact h.nextAction ht
  | actionReturned => exact h.passOn (.inr (.inl rfl)) ht
  | endIteration => exact h.passOn (.inr (.inr rfl)) ht
  | dispose => exact h.disposed (.inl rfl) ht
  | disposeOnWorker => exact ha.elim
  | joinWorker => exact h.disposed (.inr (.inl rfl)) ht
  | stopStack =>
    simp only [SimpleContext.step] at ht
    split at ht
    · rename_i hdisposal
      exact absurd hdisposal h.outside
    · cases ht
  | cancelActions => exact h.disposed (.inr (.inr rfl)) ht

/-- The steps of the worker between the invocations of actions. -/
theorem worker_step_frame {a : ContextStep τ}
    (ha : a = .wake ∨ a = .swapActions ∨ a = .unlock ∨ a = .timersInvoked ∨
      a = .actionReturned ∨ a = .endIteration) (ht : s.step a = some t) :
    t.accepted = s.accepted ∧ t.log = s.log ∧ t.disposal = s.disposal ∧
      ∀ thread, t.mutex = .adding thread → s.mutex = .adding thread := by
  rcases ha with rfl | rfl | rfl | rfl | rfl | rfl <;> simp only [SimpleContext.step] at ht
  -- the mutex is taken or released by the worker itself
  · split at ht
    · obtain rfl := Option.some.inj ht
      exact ⟨rfl, rfl, rfl, by simp⟩
    · cases ht
  · split at ht
    · split at ht <;> obtain rfl := Option.some.inj ht <;> exact ⟨rfl, rfl, rfl, fun _ h => h⟩
    · cases ht
  · split at ht
    · obtain rfl := Option.some.inj ht
      exact ⟨rfl, rfl, rfl, by simp⟩
    · cases ht
  all_goals
    split at ht <;> cases ht
    exact ⟨rfl, rfl, rfl, fun _ h => h⟩

/-- The steps of `dispose`. When it is called by another thread, it finds nothing to cancel. -/
theorem Draining.dispose_step_frame (h : s.Draining) {a : ContextStep τ}
    (ha : a = .dispose ∨ a = .joinWorker ∨ a = .cancelActions) (ht : s.step a = some t) :
    t.accepted = s.accepted ∧ t.log = s.log ∧ s.disposal ≠ .done ∧
      ∀ thread, t.mutex = .adding thread → s.mutex = .adding thread := by
  rcases ha with rfl | rfl | rfl <;> simp only [SimpleContext.step] at ht
  · split at ht
    · rename_i hdisposal
      obtain rfl := Option.some.inj ht
      exact ⟨rfl, rfl, by simp [hdisposal], fun _ h => h⟩
    · cases ht
  · split at ht
    · rename_i hworker hdisposal
      obtain rfl := Option.some.inj ht
      exact ⟨rfl, rfl, by simp [hdisposal], fun _ h => h⟩
    · cases ht
  · split at ht
    · rename_i hmutex hdisposal
      obtain rfl := Option.some.inj ht
      have hexited : s.worker = .exited := h.joined (.inl hdisposal)
      have hactions : s.actions = [] := (h.stopped (by rw [hexited]; rfl)).2.1
      refine ⟨rfl, ?_, by simp [hdisposal], fun _ h => h⟩
      rw [hactions, List.map_nil, List.append_nil]
    · cases ht

omit [DecidableEq τ] in
/-- The accepted actions are invoked in order, and the others wait in order. -/
theorem Draining.placed (h : s.Draining) (hinv : s.Inv) :
    s.log = (List.range s.log.length).map .invoked ∧ s.log.length ≤ s.accepted ∧
      s.pendingActions ++ s.actions =
        List.range' s.log.length (s.accepted - s.log.length) := by
  obtain ⟨k, cancelled, hplaced⟩ := hinv.placed
  have hnil : cancelled = [] := by
    refine List.eq_nil_iff_forall_not_mem.mpr fun a ha => h.log a ?_
    rw [hplaced.log]
    exact List.mem_append_right _ (List.mem_map_of_mem ha)
  subst hnil
  have hlog := hplaced.log
  rw [List.map_nil, List.append_nil] at hlog
  have hlength : s.log.length = k := by rw [hlog, List.length_map, List.length_range]
  rw [hlength]
  exact ⟨hlog, hplaced.le, hplaced.order rfl⟩

omit [DecidableEq τ] in
/-- The next action to be invoked is the one with the number of those invoked so far. -/
theorem Draining.next (h : s.Draining) (hinv : s.Inv) {action : ℕ} {pending : List ℕ}
    (hpending : s.pendingActions = action :: pending) :
    action = s.log.length ∧ s.log.length < s.accepted := by
  obtain ⟨-, -, hwaiting⟩ := h.placed hinv
  rw [hpending, List.cons_append] at hwaiting
  have hlength := congrArg List.length hwaiting
  rw [List.length_cons, List.length_range'] at hlength
  rw [show s.accepted - s.log.length = s.accepted - s.log.length - 1 + 1 by omega,
    List.range'_succ] at hwaiting
  exact ⟨(List.cons.inj hwaiting).1, by omega⟩

omit [DecidableEq τ] in
/-- **A context is drained when its worker exits.** -/
theorem Draining.drained (h : s.Draining) (hinv : s.Inv) (hexited : s.worker = .exited) :
    s.log = (List.range s.accepted).map .invoked := by
  obtain ⟨hlog, hle, hwaiting⟩ := h.placed hinv
  have hactions : s.actions = [] := (h.stopped (by rw [hexited]; rfl)).2.1
  rw [hinv.pending (by rw [hexited]; rfl), hactions] at hwaiting
  have hlength := congrArg List.length hwaiting
  rw [List.append_nil, List.length_nil, List.length_range'] at hlength
  rw [show s.accepted = s.log.length by omega]
  exact hlog

end SimpleContext

end UtilityFramework
