import UtilityFramework.StateMachine.Terminal

/-!
# The process timeout

`HandleProcessTimeOut` ends a process whose time is up: it stops the timers and makes the
status `PROCESS_FINISHED_TIMEOUT_ERROR`. It would be called by the process timer, but the
constructor subscribes to the state timer only. A process whose timer elapses goes on as
before, and nothing ever has that status. A start that throws (for a negative timeout) ends the
watch as any other start does: it leaves the process timer stopped.
-/

namespace UtilityFramework

open Transition

namespace StateMachine

/-- A machine, with the state it was in when the process timer elapsed before an end state was
reached, if it has since the last start. -/
structure TimeoutRun where
  machine : StateMachine
  timedOut : Option ℤ

namespace TimeoutRun

/-- A machine that has just been constructed. -/
def init (hasRow : Bool) : TimeoutRun := ⟨StateMachine.new hasRow, none⟩

/-- The time of the process is up, and the machine is where it was then. -/
def Ended (s : TimeoutRun) : Prop :=
  ∀ cur, s.timedOut = some cur →
    s.machine.processStatus = .finishedTimeoutError ∧ s.machine.currentState = cur

end TimeoutRun

/-- The current state is an end state. -/
def atEnd (m : StateMachine) (graph : StateGraph) : Bool :=
  (graph.node? m.currentState).any fun node => node.stateType.IsEnd

/-- One step, with what it means for the process timeout. -/
def TimeoutRun.step (graph : StateGraph) (s : TimeoutRun) (a : Action) : Option TimeoutRun :=
  (s.machine.step graph a).map fun m =>
    { machine := m
      timedOut := match a with
        | .initializeResetRun _ _ _ => none
        | .processTimer =>
          if s.timedOut = none ∧ m.atEnd graph = false then some m.currentState else s.timedOut
        | _ => s.timedOut }

/-- The process timer runs only in the middle of a process. -/
structure ProcessTimerInv (m : StateMachine) : Prop where
  status_ne : m.processStatus ≠ .finishedTimeoutError
  last_ne : m.lastProcessStatus ≠ .finishedTimeoutError ∧ m.lastProcessStatus ≠ .paused
  running : m.processTimer.running = true → m.runStatus = .inTheMiddle
  stateTimer_paused : m.processStatus = .paused → m.stateTimer.running = false

/-- What holds in the loop of `SwitchToNextState`. -/
structure LoopInv (m : StateMachine) : Prop where
  status_ne : m.processStatus ≠ .finishedTimeoutError ∧ m.processStatus ≠ .paused
  last_ne : m.lastProcessStatus ≠ .finishedTimeoutError ∧ m.lastProcessStatus ≠ .paused
  running : m.processTimer.running = true → m.processStatus = .inTheMiddle

/-- The process timer runs only as long as no end state is reached. -/
def StopsAtEnd (graph : StateGraph) (m : StateMachine) : Prop :=
  m.processTimer.running = true → m.atEnd graph = false

section Steps

variable {graph : StateGraph} {m m' : StateMachine}

theorem LoopInv.inv (h : LoopInv m) : ProcessTimerInv m where
  status_ne := h.status_ne.1
  last_ne := h.last_ne
  running hrun := (runStatus_of_ne h.status_ne.2).trans (h.running hrun)
  stateTimer_paused hp := absurd hp h.status_ne.2

theorem ProcessTimerInv.loopInv (h : ProcessTimerInv m) (hne : m.processStatus ≠ .paused) :
    LoopInv m where
  status_ne := ⟨h.status_ne, hne⟩
  last_ne := h.last_ne
  running hrun := (runStatus_of_ne hne).symm.trans (h.running hrun)

/-- Entering an end state stops the process timer. -/
theorem markEnd_cases (m : StateMachine) (type : StateType) :
    (¬type.IsEnd ∧ m.markEnd type = m) ∨
      (type.IsEnd ∧ (m.markEnd type).processTimer.running = false ∧
        (m.markEnd type).lastProcessStatus = m.lastProcessStatus ∧
        (m.markEnd type).processStatus.IsEnd) := by
  have hstop := UtilsTimer.running_stop m.processTimer
  cases type with
  | uninitialized | default => exact .inl ⟨id, rfl⟩
  | endSuccess => exact .inr ⟨trivial, hstop, rfl, .inl rfl⟩
  | endFail => exact .inr ⟨trivial, hstop, rfl, .inr (.inl rfl)⟩
  | endAbort => exact .inr ⟨trivial, hstop, rfl, .inr (.inr rfl)⟩

theorem LoopInv.markEnd (h : LoopInv m) (type : StateType) : LoopInv (m.markEnd type) := by
  obtain ⟨-, heq⟩ | ⟨-, hrun, hlast, hend⟩ := markEnd_cases m type
  · rwa [heq]
  · refine ⟨⟨fun hs => ?_, fun hs => ?_⟩, hlast ▸ h.last_ne, fun hr => ?_⟩
    · exact absurd (hs ▸ hend) (by decide)
    · exact absurd (hs ▸ hend) (by decide)
    · rw [hrun] at hr
      cases hr

theorem switchToNextState_stopsAtEnd {entered : List (List Int16)} (hm : LoopInv m)
    (h : m.switchToNextState graph entered = some m') : LoopInv m' ∧ StopsAtEnd graph m' := by
  obtain ⟨m₁, h₁, h⟩ := Option.bind_eq_some_iff.mp h
  have hloop : LoopInv m₁ ∧ StopsAtEnd graph m₁ := by
    refine switchLoop_rule (P := LoopInv) (Q := fun m => LoopInv m ∧ StopsAtEnd graph m)
      (fun m m₁ m₂ ops moved hP h₁ h₂ => ?_) h₁ hm
    obtain ⟨node, hnode, rfl⟩ := enterState_eq_some h₁
    obtain ⟨opcode, cur, rfl, -, hstay, -⟩ := handler_eq_some h₂
    have hP' := hP.markEnd node.stateType
    have hP₂ : LoopInv ((m.markEnd node.stateType).writeStatus.withTransition opcode cur) :=
      ⟨hP'.status_ne, hP'.last_ne, hP'.running⟩
    refine ⟨fun _ _ => hP₂, fun hlast => ⟨hP₂, fun hrun => ?_⟩⟩
    obtain ⟨hend, heq⟩ | ⟨-, hstop, -⟩ := markEnd_cases m node.stateType
    · -- the timer still runs, so the process has not finished and the last handler stayed
      have hmoved : moved = false := hlast.resolve_right fun hf => by
        rw [finished, hP₂.running hrun] at hf
        exact absurd hf (by decide)
      obtain rfl := hstay hmoved
      rw [currentState_writeStatus, currentState_markEnd, atEnd, currentState_withTransition,
        hnode, Option.any_some]
      exact decide_eq_false hend
    · rw [processTimer_withTransition, processTimer_writeStatus, hstop] at hrun
      cases hrun
  obtain ⟨timer, rfl⟩ := startStateTimer_eq_some h
  exact ⟨⟨hloop.1.status_ne, hloop.1.last_ne, hloop.1.running⟩, hloop.2⟩

theorem LoopInv.switchToNextState {entered : List (List Int16)} (hm : LoopInv m)
    (h : m.switchToNextState graph entered = some m') :
    ProcessTimerInv m' ∧ StopsAtEnd graph m' := by
  obtain ⟨hloop, hend⟩ := switchToNextState_stopsAtEnd hm h
  exact ⟨hloop.inv, hend⟩

theorem lastProcessStatus_resetRun {timeout first : ℤ} (h : m.resetRun timeout first = some m') :
    m'.lastProcessStatus = m.lastProcessStatus := by
  obtain ⟨m₁, h₁, rfl⟩ := Option.map_eq_some_iff.mp h
  have hreset : m.resetTimers.lastProcessStatus = m.lastProcessStatus := by
    rw [resetTimers]
    split <;> rfl
  rw [startProcessTimer] at h₁
  split_ifs at h₁
  · exact Option.some.inj h₁ ▸ hreset
  · obtain ⟨timer, -, rfl⟩ := Option.map_eq_some_iff.mp h₁
    exact hreset

/-- A start that throws leaves the process timer stopped. -/
theorem ProcessTimerInv.resetThrown (h : ProcessTimerInv m) (first : ℤ) :
    ProcessTimerInv (m.resetThrown first) ∧ StopsAtEnd graph (m.resetThrown first) := by
  have hstopped : (m.resetThrown first).processTimer.running = false := by
    change m.resetTimers.processTimer.running = false
    rw [resetTimers]
    split_ifs with hnot
    · -- it does not run before the first start
      refine Bool.eq_false_iff.mpr fun hrun => ?_
      have hmiddle := h.running hrun
      rw [runStatus_of_ne (hnot ▸ by decide), hnot] at hmiddle
      cases hmiddle
    · exact UtilsTimer.running_stop m.processTimer
  have hfields : (m.resetThrown first).processStatus = m.processStatus ∧
      (m.resetThrown first).lastProcessStatus = m.lastProcessStatus := by
    rw [StateMachine.resetThrown, setFirstState, resetTimers]
    split <;> exact ⟨rfl, rfl⟩
  refine ⟨⟨hfields.1 ▸ h.status_ne, hfields.2 ▸ h.last_ne, fun hrun => ?_, fun hp => ?_⟩,
    fun hrun => ?_⟩
  · exact absurd (hstopped.symm.trans hrun) Bool.false_ne_true
  · have hne : m.processStatus ≠ .notStarted := by
      rw [← hfields.1, hp]
      decide
    change m.resetTimers.stateTimer.running = false
    rw [resetTimers, if_neg hne]
    exact UtilsTimer.running_stop m.stateTimer
  · exact absurd (hstopped.symm.trans hrun) Bool.false_ne_true

/-- A handler of the current state, after which the machine is passed on if the state has
changed; `f` is what is done before that, and `g` what is done otherwise. -/
theorem handler_step {f g : StateMachine → StateMachine} {ops : List Int16}
    {entered : List (List Int16)} (hf : ∀ m, LoopInv m → LoopInv (f m))
    (hg : ∀ m, ProcessTimerInv m ∧ StopsAtEnd graph m →
      ProcessTimerInv (g m) ∧ StopsAtEnd graph (g m))
    (hinv : ProcessTimerInv m) (hstop : StopsAtEnd graph m) (hloop : LoopInv m)
    (h : ((m.handler graph ops).bind fun r =>
      if r.2 then (f r.1).switchToNextState graph entered else some (g r.1)) = some m') :
    ProcessTimerInv m' ∧ StopsAtEnd graph m' := by
  obtain ⟨⟨m₁, moved⟩, h₁, h⟩ := Option.bind_eq_some_iff.mp h
  cases moved with
  | true =>
    obtain ⟨opcode, cur, rfl, -⟩ := handler_eq_some h₁
    have hmoved : LoopInv (m.withTransition opcode cur) :=
      ⟨hloop.status_ne, hloop.last_ne, hloop.running⟩
    exact (hf _ hmoved).switchToNextState h
  | false =>
    obtain ⟨opcode, rfl⟩ := handler_stays h₁
    obtain rfl := Option.some.inj h
    exact hg _ ⟨⟨hinv.status_ne, hinv.last_ne, hinv.running, hinv.stateTimer_paused⟩, hstop⟩

/-- Every step keeps what holds of the process timer. -/
theorem processTimer_step {a : Action} (hinv : ProcessTimerInv m) (hstop : StopsAtEnd graph m)
    (h : m.step graph a = some m') : ProcessTimerInv m' ∧ StopsAtEnd graph m' := by
  cases a with
  | initializeResetRun timeout first entered =>
    obtain ⟨-, m₁, h₁, h⟩ | ⟨-, rfl⟩ := initializeResetRun_eq_some h
    · have hlast := lastProcessStatus_resetRun h₁
      obtain ⟨m₂, -, rfl⟩ := Option.map_eq_some_iff.mp h₁
      exact LoopInv.switchToNextState ⟨⟨fun h => (by cases h), fun h => (by cases h)⟩,
        hlast ▸ hinv.last_ne, fun _ => rfl⟩ h
    · exact hinv.resetThrown first
  | pause =>
    obtain ⟨hrun, hcur⟩ := runStatus_pause h
    obtain ⟨-, rfl⟩ | ⟨hp, rfl⟩ := pause_eq_some h
    · exact ⟨hinv, hstop⟩
    · exact ⟨⟨fun h => (by cases h), ⟨hinv.status_ne, hp⟩, fun hr => hrun.trans (hinv.running hr),
        fun _ => running_stopStateTimer m⟩, hstop⟩
  | resume =>
    obtain ⟨-, rfl⟩ | ⟨hp, timer, rfl⟩ := resume_eq_some h
    · exact ⟨hinv, hstop⟩
    · refine ⟨⟨hinv.last_ne.1, hinv.last_ne, fun hr => ?_, fun hp' => absurd hp' hinv.last_ne.2⟩,
        hstop⟩
      exact (if_neg hinv.last_ne.2).trans ((if_pos hp).symm.trans (hinv.running hr))
  | data ops entered =>
    change m.callState graph ops entered = some m' at h
    rw [callState] at h
    split_ifs at h with hstatus
    · exact Option.some.inj h ▸ ⟨hinv, hstop⟩
    · obtain ⟨_, -, h⟩ := Option.bind_eq_some_iff.mp h
      have hloop := hinv.loopInv (Decidable.not_not.mp hstatus ▸ by decide)
      exact handler_step (f := stopStateTimer) (g := id)
        (fun m hm => ⟨hm.status_ne, hm.last_ne, hm.running⟩) (fun m hm => hm) hinv hstop hloop h
  | stateTimer ops entered =>
    rw [step_stateTimer] at h
    split_ifs at h with hrun
    obtain ⟨_, -, h⟩ := Option.bind_eq_some_iff.mp h
    -- The timer runs, so the machine is not paused.
    have hloop := hinv.loopInv fun hp => by
      rw [hinv.stateTimer_paused hp] at hrun
      cases hrun
    exact handler_step (f := fun m => m.setExpired.writeStatus.stopStateTimer)
      (g := fun m => m.setExpired.writeStatus)
      (fun m hm => ⟨hm.status_ne, hm.last_ne, hm.running⟩)
      (fun m hm => ⟨⟨hm.1.status_ne, hm.1.last_ne, hm.1.running, hm.1.stateTimer_paused⟩, hm.2⟩)
      hinv hstop hloop h
  | processTimer =>
    rw [step_processTimer] at h
    split_ifs at h
    exact Option.some.inj h ▸ ⟨hinv, hstop⟩

/-- The status that `HandleProcessTimeOut` sets is never reached, and the machine does not
notice that its process timer elapses. -/
theorem timeoutRun_step {s t : TimeoutRun} {a : Action}
    (hinv : ProcessTimerInv s.machine ∧ StopsAtEnd graph s.machine ∧ s.timedOut = none)
    (h : s.step graph a = some t) :
    (t.Ended ↔ a ≠ .processTimer) ∧
      (a ≠ .processTimer →
        ProcessTimerInv t.machine ∧ StopsAtEnd graph t.machine ∧ t.timedOut = none) := by
  obtain ⟨htimer, hstop, hnone⟩ := hinv
  obtain ⟨m, hm, rfl⟩ := Option.map_eq_some_iff.mp h
  obtain ⟨htimer', hstop'⟩ := processTimer_step htimer hstop hm
  have hother : a ≠ .processTimer → ∀ timedOut : Option ℤ, timedOut = none →
      (TimeoutRun.Ended ⟨m, timedOut⟩ ↔ a ≠ .processTimer) ∧
        (a ≠ .processTimer → ProcessTimerInv m ∧ StopsAtEnd graph m ∧ timedOut = none) := by
    rintro ha _ rfl
    exact ⟨iff_of_true (fun cur hcur => by cases hcur) ha, fun _ => ⟨htimer', hstop', rfl⟩⟩
  cases a with
  | initializeResetRun timeout first entered => exact hother (fun h => by cases h) none rfl
  | pause => exact hother (fun h => by cases h) s.timedOut hnone
  | resume => exact hother (fun h => by cases h) s.timedOut hnone
  | data ops entered => exact hother (fun h => by cases h) s.timedOut hnone
  | stateTimer ops entered => exact hother (fun h => by cases h) s.timedOut hnone
  | processTimer =>
    refine ⟨iff_of_false (fun hended => ?_) fun h => h rfl, fun h => absurd rfl h⟩
    rw [step_processTimer] at hm
    split_ifs at hm with hrun
    obtain rfl := Option.some.inj hm
    exact htimer'.status_ne (hended _ (if_pos ⟨hnone, hstop hrun⟩)).1

/-- **The process timeout.** The status says that the time of the process is up, and the
machine stays where it was, in precisely those runs in which the process timer never elapses:
no function is subscribed to it. -/
theorem ended_iff_never_elapses (hasRow : Bool) (l : List Action) :
    Always (TimeoutRun.step graph) TimeoutRun.Ended (.init hasRow) l ↔
      Guarded (TimeoutRun.step graph) (fun _ a => a ≠ .processTimer) (.init hasRow) l := by
  refine always_iff_guarded_of_ok
    (J := fun s => ProcessTimerInv s.machine ∧ StopsAtEnd graph s.machine ∧ s.timedOut = none)
    l (fun s a t hJ _ hok h => (timeoutRun_step hJ h).2 hok)
    (fun s a t hJ _ h => (timeoutRun_step hJ h).1) ?_ (fun cur hcur => by cases hcur)
  refine ⟨⟨?_, ?_, ?_, ?_⟩, ?_, rfl⟩
  · exact fun h => by cases h
  · exact ⟨fun h => (by cases h), fun h => (by cases h)⟩
  · exact fun h => by cases h
  · exact fun h => by cases h
  · exact fun h => by cases h

end Steps

/-- The time of a process is up, and later its state is moved on by data as if nothing had
happened. -/
theorem process_goes_on_after_timeout :
    ¬Always (TimeoutRun.step sampleGraph) TimeoutRun.Ended (.init false)
      [.initializeResetRun 1000 1 [[]], .processTimer, .data [7] [[]]] ∧
    (run (TimeoutRun.step sampleGraph) (.init false)
      [.initializeResetRun 1000 1 [[]], .processTimer, .data [7] [[]]]).map
        (fun s => (s.timedOut, s.machine.processStatus, s.machine.currentState)) =
      some (some 1, .finishedSuccessfuly, 2) := by
  have hr : (run (TimeoutRun.step sampleGraph) (.init false)
      [.initializeResetRun 1000 1 [[]], .processTimer, .data [7] [[]]]).map
        (fun s => (s.timedOut, s.machine.processStatus, s.machine.currentState)) =
      some (some 1, .finishedSuccessfuly, 2) := by decide
  refine ⟨fun hall => ?_, hr⟩
  obtain ⟨s, hs, heq⟩ := Option.map_eq_some_iff.mp hr
  obtain ⟨htimed, heq⟩ := Prod.mk.inj heq
  have hcur := (hall _ s List.prefix_rfl hs 1 htimed).2
  rw [(Prod.mk.inj heq).2] at hcur
  exact absurd hcur (by decide)

end StateMachine

end UtilityFramework
