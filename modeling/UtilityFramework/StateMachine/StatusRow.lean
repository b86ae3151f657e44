import UtilityFramework.StateMachine.Terminal

/-!
# The status row

The row is written whenever a state is entered and when the state timer elapses, with the
record `m_stStateMachineSts`. The current state is kept in that record itself, so a write
always shows the current state. The process status is kept beside it, and no function copies it
to `nProcessStatus`: every record shows `PROCESS_NOT_STARTED`. `Pause` and `Resume` change the
status without a write, and an `InitializeResetRun` that throws changes the current state
without one.
-/

namespace UtilityFramework

open Transition

/-- The record is the one that the machine's status and current state call for. -/
def StatusWrite.Faithful (w : StatusWrite) : Prop :=
  w.entry.nProcessStatus = w.processStatus.value ∧ w.entry.nCurrentState = w.currentState

namespace StateMachine

/-- The last record in the row shows the process status and the current state. -/
def LastShows (m : StateMachine) : Prop :=
  ∃ w, m.writes.head? = some w ∧ w.entry.nProcessStatus = m.processStatus.value ∧
    w.entry.nCurrentState = m.currentState

/-- A machine, and whether the last step has changed its status or its current state. -/
structure StatusRun where
  machine : StateMachine
  changed : Bool

namespace StatusRun

/-- A machine that has just been constructed with a status row. -/
def init : StatusRun := ⟨StateMachine.new true, false⟩

/-- One step. -/
def step (graph : StateGraph) (s : StatusRun) (a : Action) : Option StatusRun :=
  (s.machine.step graph a).map fun m =>
    { machine := m
      changed := m.processStatus ≠ s.machine.processStatus ∨
        m.currentState ≠ s.machine.currentState }

/-- Every record written shows the status and the current state when it was written, and
after a step that changes them the last record shows the new ones. -/
def Published (s : StatusRun) : Prop :=
  (∀ w ∈ s.machine.writes, w.Faithful) ∧ (s.changed = true → s.machine.LastShows)

end StatusRun

/-- The machine is neither started nor paused. An `InitializeResetRun` with a negative process
timeout throws before it starts the machine: it writes no record, and it must not move the
current state. -/
def NotStartedOrPaused (s : StatusRun) : Action → Prop
  | .initializeResetRun nProcessTimeOut nFirstStateToRun _ =>
    nProcessTimeOut < 0 ∧ nFirstStateToRun = s.machine.currentState
  | .pause => False
  | _ => True

section Steps

variable {graph : StateGraph} {m m' : StateMachine}

/-- A record has been written that does not show the process status. -/
def Misreported (m : StateMachine) : Prop := ∃ w ∈ m.writes, ¬w.Faithful

/-- The machine has a status row, and the status is not the one its record shows. -/
structure Stale (m : StateMachine) : Prop where
  row : m.rowStateMachineSts.isSome
  record : m.stStateMachineSts.nProcessStatus = ProcessStatus.notStarted.value
  status : m.processStatus ≠ .notStarted

theorem value_injective {status status' : ProcessStatus} (h : status.value = status'.value) :
    status = status' := by
  revert h
  cases status <;> cases status' <;> decide

theorem Stale.misreported (h : Stale m) : Misreported m.writeStatus := by
  obtain ⟨ws, hws⟩ := Option.isSome_iff_exists.mp h.row
  refine ⟨⟨m.stStateMachineSts, m.processStatus, m.currentState⟩, ?_, fun hf => ?_⟩
  · rw [writes, writeStatus, hws]
    exact List.mem_cons_self
  · exact h.status (value_injective (h.record.symm.trans hf.1)).symm

theorem Stale.markEnd (h : Stale m) (type : StateType) : Stale (m.markEnd type) := by
  cases type with
  | uninitialized | default => exact h
  | endSuccess | endFail | endAbort => exact ⟨h.row, h.record, fun hs => by cases hs⟩

/-- Entering a state with a stale record publishes it. -/
theorem Stale.switchToNextState (hm : Stale m) {entered : List (List Int16)}
    (h : m.switchToNextState graph entered = some m') : Misreported m' := by
  obtain ⟨m₁, h₁, h⟩ := Option.bind_eq_some_iff.mp h
  have hloop : Misreported m₁ := by
    refine switchLoop_rule (P := fun m => Stale m) (Q := Misreported)
      (fun m m₁ m₂ ops moved hP h₁ h₂ => ?_) h₁ hm
    obtain ⟨node, -, rfl⟩ := enterState_eq_some h₁
    obtain ⟨opcode, cur, rfl, -⟩ := handler_eq_some h₂
    have hP' := hP.markEnd node.stateType
    refine ⟨fun _ _ => ⟨?_, hP'.record, hP'.status⟩, fun _ => hP'.misreported⟩
    obtain ⟨ws, hws⟩ := Option.isSome_iff_exists.mp hP'.row
    rw [withTransition, writeStatus, hws]
    rfl
  obtain ⟨timer, rfl⟩ := startStateTimer_eq_some h
  exact hloop

/-- A machine with a status row that has been neither started nor paused, if every start has
thrown: only `nIsValid` may have been set. -/
def unstarted (nIsValid : StateMachineStatusEnum) : StateMachine :=
  { new true with
    stStateMachineSts := { (new true).stStateMachineSts with nIsValid := nIsValid } }

theorem stale_of_resetRun {nIsValid : StateMachineStatusEnum} {timeout first : ℤ}
    (h : (unstarted nIsValid).resetRun timeout first = some m) : Stale m := by
  obtain ⟨m₁, h₁, rfl⟩ := Option.map_eq_some_iff.mp h
  rw [startProcessTimer] at h₁
  split_ifs at h₁
  · obtain rfl := Option.some.inj h₁
    exact ⟨rfl, rfl, fun hs => by cases hs⟩
  · obtain ⟨timer, -, rfl⟩ := Option.map_eq_some_iff.mp h₁
    exact ⟨rfl, rfl, fun hs => by cases hs⟩

/-- Before its first start, a machine is changed by a start and a pause only. Both leave the
row wrong, unless the start throws where the machine is. -/
theorem statusRun_step {s t : StatusRun} {a : Action}
    (hs : ∃ nIsValid, s.machine = unstarted nIsValid) (h : s.step graph a = some t) :
    (t.Published ↔ NotStartedOrPaused s a) ∧
      (NotStartedOrPaused s a → ∃ nIsValid, t.machine = unstarted nIsValid) := by
  obtain ⟨m, hm, rfl⟩ := Option.map_eq_some_iff.mp h
  obtain ⟨nIsValid, hs⟩ := hs
  have hsame : NotStartedOrPaused s a → (∃ nIsValid, m = unstarted nIsValid) →
      (StatusRun.Published ⟨m, decide (m.processStatus ≠ s.machine.processStatus ∨
        m.currentState ≠ s.machine.currentState)⟩ ↔ NotStartedOrPaused s a) ∧
      (NotStartedOrPaused s a → ∃ nIsValid, m = unstarted nIsValid) := by
    rintro ha ⟨nIsValid', rfl⟩
    refine ⟨iff_of_true ⟨fun w hw => ?_, fun hc => ?_⟩ ha, fun _ => ⟨nIsValid', rfl⟩⟩
    · cases hw
    · dsimp only at hc
      rw [hs] at hc
      obtain hne | hne := of_decide_eq_true hc
      · exact absurd rfl hne
      · exact absurd rfl hne
  rw [hs] at hm
  cases a with
  | initializeResetRun timeout first entered =>
    obtain ⟨hle, m₁, h₁, h₂⟩ | ⟨hneg, rfl⟩ := initializeResetRun_eq_some hm
    · refine ⟨iff_of_false (fun hp => ?_) fun h => ?_, fun h => ?_⟩
      · obtain ⟨w, hw, hf⟩ := (stale_of_resetRun h₁).switchToNextState h₂
        exact hf (hp.1 w hw)
      · exact absurd h.1 (not_lt.mpr hle)
      · exact absurd h.1 (not_lt.mpr hle)
    · by_cases hfirst : first = s.machine.currentState
      · refine hsame ⟨hneg, hfirst⟩ ⟨.valid, ?_⟩
        rw [hfirst, hs]
        rfl
      · refine ⟨iff_of_false (fun hp => ?_) fun h => hfirst h.2, fun h => absurd h.2 hfirst⟩
        obtain ⟨w, hw, -⟩ := hp.2 (decide_eq_true (.inr hfirst))
        cases hw
  | pause =>
    refine ⟨iff_of_false (fun hp => ?_) id, False.elim⟩
    obtain ⟨hpaused, -⟩ | ⟨-, rfl⟩ := pause_eq_some hm
    · cases hpaused
    · obtain ⟨w, hw, -⟩ := hp.2 (by rw [hs]; rfl)
      cases hw
  | resume => exact hsame trivial ⟨nIsValid, (Option.some.inj hm).symm⟩
  | data ops entered => exact hsame trivial ⟨nIsValid, (Option.some.inj hm).symm⟩
  | stateTimer ops entered => cases hm
  | processTimer => cases hm

/-- **The status row.** The row shows the process status and the current state in precisely
those runs in which the machine is never started and never paused. -/
theorem published_iff_never_started (l : List Action) :
    Always (StatusRun.step graph) StatusRun.Published .init l ↔
      Guarded (StatusRun.step graph) NotStartedOrPaused .init l := by
  refine always_iff_guarded_of_ok (J := fun s => ∃ nIsValid, s.machine = unstarted nIsValid) l
    (fun s a t hs _ hok h => (statusRun_step hs h).2 hok)
    (fun s a t hs _ h => (statusRun_step hs h).1) ⟨.notValid, rfl⟩ ⟨fun w hw => ?_, fun hc => ?_⟩
  · cases hw
  · cases hc

end Steps

/-- After a start the row shows a process that has not been started. -/
theorem started_published_as_notStarted :
    ¬Always (StatusRun.step sampleGraph) StatusRun.Published .init
      [.initializeResetRun 1000 1 [[]]] ∧
    (run (StatusRun.step sampleGraph) .init [.initializeResetRun 1000 1 [[]]]).map
        (fun s => s.machine.writes) =
      some [⟨⟨.valid, ProcessStatus.notStarted.value, 0, 0, 1, .notExpired⟩, .inTheMiddle, 1⟩] := by
  have hr : (run (StatusRun.step sampleGraph) .init [.initializeResetRun 1000 1 [[]]]).map
        (fun s => s.machine.writes) =
      some [⟨⟨.valid, ProcessStatus.notStarted.value, 0, 0, 1, .notExpired⟩, .inTheMiddle, 1⟩] := by
    decide
  refine ⟨fun hall => ?_, hr⟩
  obtain ⟨s, hs, hwrites⟩ := Option.map_eq_some_iff.mp hr
  have hf := (hall _ s List.prefix_rfl hs).1 _ (hwrites ▸ List.mem_cons_self)
  exact absurd hf.1 (by decide)

end StateMachine

end UtilityFramework
