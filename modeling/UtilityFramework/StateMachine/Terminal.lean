import UtilityFramework.StateMachine.StateMachine

/-!
# End states and pauses

When end states have no transitions, the process status and the current state agree: the
status, or the one saved by `Pause`, says that the machine has finished precisely when the
current state is of the matching end type. A machine that has finished or is paused does not
move until it is started again or resumed.

The handlers for data and for the state timer differ in what they check. Data are handed to a
state only in the middle of a process. The state timer checks nothing, but it does not run
while the machine is paused, and in an end state there is no transition for it to make.

The current state of a machine that has never been started is not valid, as its record says.
An `InitializeResetRun` with a negative process timeout throws when the current state is set
and the status is not: a machine that has finished is then in any state it names, with the
old status (`finished_in_default_state`).
-/

namespace UtilityFramework

open Transition

/-- The statuses of a process that has reached an end state. -/
def ProcessStatus.IsEnd (status : ProcessStatus) : Prop :=
  status = .finishedSuccessfuly ∨ status = .finishedFail ∨ status = .finishedAborted

instance : DecidablePred ProcessStatus.IsEnd :=
  fun status => inferInstanceAs (Decidable (status = _ ∨ status = _ ∨ status = _))

namespace StateMachine

/-- The process status, or the one saved by `Pause`. -/
def runStatus (m : StateMachine) : ProcessStatus :=
  if m.processStatus = .paused then m.lastProcessStatus else m.processStatus

/-- The type of the current state, once there is one. -/
def currentType? (m : StateMachine) (graph : StateGraph) : Option StateType :=
  if m.stStateMachineSts.nIsValid = .valid then
    (graph.node? m.currentState).map StateNode.stateType
  else none

/-- `Resume` is called after a first start. -/
def ResumeAfterStart (m : StateMachine) (a : Action) : Prop :=
  a = .resume → m.stStateMachineSts.nIsValid = .valid

/-- No `InitializeResetRun` with a negative process timeout. -/
def Action.TimeoutNotNegative : Action → Prop
  | initializeResetRun nProcessTimeOut _ _ => 0 ≤ nProcessTimeOut
  | _ => True

/-- A call of `InitializeResetRun`. -/
def Action.IsReset : Action → Prop
  | initializeResetRun _ _ _ => True
  | _ => False

/-- The status of a process whose current state is of the given type. -/
def statusAt (type : StateType) : ProcessStatus := (endStatus type).getD .inTheMiddle

theorem statusAt_ne_paused (type : StateType) : statusAt type ≠ .paused := by
  cases type <;> decide

theorem statusAt_eq_iff {type type' : StateType} {status : ProcessStatus}
    (h : endStatus type' = some status) : statusAt type = status ↔ type = type' := by
  revert h
  cases type' <;> cases type <;> cases status <;> decide

theorem endStatus_eq_none_iff {type : StateType} : endStatus type = none ↔ ¬type.IsEnd := by
  cases type <;> decide

/-- The machine has a current state, and the process status is the one it gives. -/
def Active (graph : StateGraph) (m : StateMachine) : Prop :=
  m.stStateMachineSts.nIsValid = .valid ∧
    ∃ node, graph.node? m.currentState = some node ∧ m.processStatus = statusAt node.stateType

/-- What holds of the machine between two steps. -/
structure Inv (graph : StateGraph) (m : StateMachine) : Prop where
  notStarted : m.stStateMachineSts.nIsValid = .notValid →
    m.runStatus = .notStarted ∧ m.stateTimer.running = false
  started : m.stStateMachineSts.nIsValid = .valid →
    ∃ node, graph.node? m.currentState = some node ∧ m.runStatus = statusAt node.stateType
  stateTimer_paused : m.processStatus = .paused → m.stateTimer.running = false

section Steps

variable {graph : StateGraph} {m m' : StateMachine}

theorem runStatus_of_ne {m : StateMachine} (h : m.processStatus ≠ .paused) :
    m.runStatus = m.processStatus := if_neg h

theorem Active.inv (h : Active graph m) : Inv graph m := by
  obtain ⟨hvalid, node, hnode, hstatus⟩ := h
  have hne : m.processStatus ≠ .paused := hstatus ▸ statusAt_ne_paused node.stateType
  refine ⟨fun hn => ?_, fun _ => ⟨node, hnode, (runStatus_of_ne hne).trans hstatus⟩,
    fun hp => absurd hp hne⟩
  rw [hvalid] at hn
  cases hn

theorem inv_new (hasRow : Bool) : Inv graph (new hasRow) where
  notStarted _ := ⟨rfl, rfl⟩
  started h := by cases h
  stateTimer_paused h := by cases h

/-- The loop of `SwitchToNextState` ends with the status that the current state gives. -/
theorem switchLoop_active (hterm : graph.Terminal) {entered : List (List Int16)}
    (hvalid : m.stStateMachineSts.nIsValid = .valid) (hstatus : m.processStatus = .inTheMiddle)
    (h : m.switchLoop graph entered = some m') : Active graph m' := by
  refine switchLoop_rule
    (P := fun m => m.stStateMachineSts.nIsValid = .valid ∧ m.processStatus = .inTheMiddle)
    (fun m m₁ m₂ ops moved hP h₁ h₂ => ?_) h ⟨hvalid, hstatus⟩
  obtain ⟨hvalid, hstatus⟩ := hP
  obtain ⟨node, hnode, rfl⟩ := enterState_eq_some h₁
  obtain ⟨opcode, cur, rfl, hreg, hstay, hnil⟩ := handler_eq_some h₂
  rw [currentState_writeStatus, currentState_markEnd] at hreg hstay hnil
  have hstatus₁ : ((m.markEnd node.stateType).writeStatus.withTransition opcode cur).processStatus
      = statusAt node.stateType := by
    simp [hstatus, statusAt]
  have hvalid₁ : ((m.markEnd node.stateType).writeStatus.withTransition
      opcode cur).stStateMachineSts.nIsValid = .valid := by
    simp [hvalid]
  have hlast : moved = false →
      Active graph ((m.markEnd node.stateType).writeStatus.withTransition opcode cur) := by
    intro hmoved
    refine ⟨hvalid₁, node, ?_, hstatus₁⟩
    rw [currentState_withTransition, hstay hmoved, hnode]
  by_cases hend : node.stateType.IsEnd
  · -- an end state makes no transition, so this is the last round
    have hmoved := hnil node hnode (hterm.of_node? hnode hend)
    exact ⟨fun h => absurd (hmoved.symm.trans h) Bool.false_ne_true, fun _ => hlast hmoved⟩
  · rw [statusAt, endStatus_eq_none_iff.mpr hend, Option.getD_none] at hstatus₁
    refine ⟨fun _ _ => ⟨hvalid₁, hstatus₁⟩, fun hor => hlast (hor.resolve_right fun hf => ?_)⟩
    rw [finished, hstatus₁] at hf
    exact absurd hf (by decide)

theorem switchToNextState_active (hterm : graph.Terminal) {entered : List (List Int16)}
    (hvalid : m.stStateMachineSts.nIsValid = .valid) (hstatus : m.processStatus = .inTheMiddle)
    (h : m.switchToNextState graph entered = some m') : Active graph m' := by
  obtain ⟨m₁, h₁, h⟩ := Option.bind_eq_some_iff.mp h
  have hactive : Active graph m₁ := switchLoop_active hterm hvalid hstatus h₁
  obtain ⟨timer, rfl⟩ := startStateTimer_eq_some h
  exact hactive

theorem initializeResetRun_active (hterm : graph.Terminal) {timeout first : ℤ}
    {entered : List (List Int16)} (htimeout : 0 ≤ timeout)
    (h : m.initializeResetRun graph timeout first entered = some m') : Active graph m' := by
  obtain ⟨-, m₁, h₁, h⟩ | ⟨hneg, -⟩ := initializeResetRun_eq_some h
  swap
  · exact absurd htimeout (not_le.mpr hneg)
  obtain ⟨m₂, h₂, rfl⟩ := Option.map_eq_some_iff.mp h₁
  refine switchToNextState_active hterm ?_ rfl h
  rw [startProcessTimer] at h₂
  split_ifs at h₂
  · obtain rfl := Option.some.inj h₂
    rfl
  · obtain ⟨timer, -, rfl⟩ := Option.map_eq_some_iff.mp h₂
    rfl

/-- A machine that is neither paused nor before its first start is active. -/
theorem Inv.active (hinv : Inv graph m) (hvalid : m.stStateMachineSts.nIsValid = .valid)
    (hne : m.processStatus ≠ .paused) : Active graph m := by
  obtain ⟨node, hnode, hstatus⟩ := hinv.started hvalid
  exact ⟨hvalid, node, hnode, (runStatus_of_ne hne).symm.trans hstatus⟩

/-- A machine whose state timer runs is active. -/
theorem Inv.active_of_running (hinv : Inv graph m) (hrun : m.stateTimer.running = true) :
    Active graph m := by
  have hne : m.processStatus ≠ .paused := fun hp => by
    rw [hinv.stateTimer_paused hp] at hrun
    cases hrun
  refine hinv.active ?_ hne
  cases hvalid : m.stStateMachineSts.nIsValid with
  | valid => rfl
  | notValid =>
    rw [(hinv.notStarted hvalid).2] at hrun
    cases hrun

/-- A handler that moves the machine on starts in the middle of the process. -/
theorem Active.inTheMiddle (hterm : graph.Terminal) (hactive : Active graph m)
    {ops : List Int16} (h : m.handler graph ops = some (m', true)) :
    m.processStatus = .inTheMiddle := by
  obtain ⟨-, node, hnode, hstatus⟩ := hactive
  obtain ⟨opcode, cur, -, -, -, hnil⟩ := handler_eq_some h
  have hend : ¬node.stateType.IsEnd := fun hend =>
    Bool.noConfusion (hnil node hnode (hterm.of_node? hnode hend))
  rw [hstatus, statusAt, endStatus_eq_none_iff.mpr hend, Option.getD_none]

/-- A handler that does not move the machine on leaves it as it is, up to the last opcode. -/
theorem handler_stays {ops : List Int16} (h : m.handler graph ops = some (m', false)) :
    ∃ opcode, m' = m.withTransition opcode m.currentState := by
  obtain ⟨opcode, cur, rfl, -, hstay, -⟩ := handler_eq_some h
  rw [hstay rfl]
  exact ⟨opcode, rfl⟩

theorem callState_active (hterm : graph.Terminal) (hactive : Active graph m)
    {ops : List Int16} {entered : List (List Int16)}
    (h : m.callState graph ops entered = some m') : Active graph m' := by
  rw [callState] at h
  split_ifs at h with hstatus
  · exact Option.some.inj h ▸ hactive
  · obtain ⟨_, -, h⟩ := Option.bind_eq_some_iff.mp h
    obtain ⟨⟨m₁, moved⟩, h₁, h⟩ := Option.bind_eq_some_iff.mp h
    cases moved with
    | true =>
      have hmiddle := hactive.inTheMiddle hterm h₁
      obtain ⟨opcode, cur, rfl, -⟩ := handler_eq_some h₁
      exact switchToNextState_active (m := (m.withTransition opcode cur).stopStateTimer) hterm
        hactive.1 hmiddle h
    | false =>
      obtain ⟨opcode, rfl⟩ := handler_stays h₁
      obtain rfl := Option.some.inj h
      exact hactive

theorem handleStateTimeOut_active (hterm : graph.Terminal) (hactive : Active graph m)
    {ops : List Int16} {entered : List (List Int16)}
    (h : m.handleStateTimeOut graph ops entered = some m') : Active graph m' := by
  obtain ⟨_, -, h⟩ := Option.bind_eq_some_iff.mp h
  obtain ⟨⟨m₁, moved⟩, h₁, h⟩ := Option.bind_eq_some_iff.mp h
  cases moved with
  | true =>
    have hmiddle := hactive.inTheMiddle hterm h₁
    obtain ⟨opcode, cur, rfl, -⟩ := handler_eq_some h₁
    exact switchToNextState_active
      (m := (m.withTransition opcode cur).setExpired.writeStatus.stopStateTimer) hterm
      hactive.1 hmiddle h
  | false =>
    obtain ⟨opcode, rfl⟩ := handler_stays h₁
    obtain rfl := Option.some.inj h
    exact hactive

theorem pause_eq_some (h : m.pause graph = some m') :
    (m.processStatus = .paused ∧ m' = m) ∨
      (m.processStatus ≠ .paused ∧ m' = { m.stopStateTimer with
        lastProcessStatus := m.processStatus
        processStatus := .paused }) := by
  rw [pause] at h
  split_ifs at h with hp
  · exact .inl ⟨hp, (Option.some.inj h).symm⟩
  · obtain ⟨_, -, h⟩ := Option.bind_eq_some_iff.mp h
    exact .inr ⟨hp, (Option.some.inj h).symm⟩

theorem resume_eq_some (h : m.resume graph = some m') :
    (m.processStatus ≠ .paused ∧ m' = m) ∨
      (m.processStatus = .paused ∧ ∃ timer, m' = { m with
        stateTimer := timer
        processStatus := m.lastProcessStatus }) := by
  rw [resume] at h
  split_ifs at h with hp
  · obtain ⟨m₁, h₁, h⟩ := Option.bind_eq_some_iff.mp h
    obtain ⟨timer, rfl⟩ := startStateTimer_eq_some h₁
    exact .inr ⟨hp, timer, (Option.some.inj h).symm⟩
  · exact .inl ⟨hp, (Option.some.inj h).symm⟩

/-- `Pause` saves the status. -/
theorem runStatus_pause (h : m.pause graph = some m') :
    m'.runStatus = m.runStatus ∧ m'.currentState = m.currentState := by
  obtain ⟨-, rfl⟩ | ⟨hp, rfl⟩ := pause_eq_some h
  · exact ⟨rfl, rfl⟩
  · exact ⟨(runStatus_of_ne hp).symm, rfl⟩

/-- `Resume` restores the status saved by `Pause`. -/
theorem runStatus_resume (hinv : Inv graph m) (hvalid : m.stStateMachineSts.nIsValid = .valid)
    (h : m.resume graph = some m') :
    m'.runStatus = m.runStatus ∧ m'.currentState = m.currentState ∧
      m'.processStatus = m'.runStatus := by
  obtain ⟨hp, rfl⟩ | ⟨hp, timer, rfl⟩ := resume_eq_some h
  · exact ⟨rfl, rfl, (runStatus_of_ne hp).symm⟩
  · obtain ⟨node, -, hstatus⟩ := hinv.started hvalid
    have hrun : m.runStatus = m.lastProcessStatus := if_pos hp
    have hne : m.lastProcessStatus ≠ .paused := by
      rw [← hrun, hstatus]
      exact statusAt_ne_paused node.stateType
    have hrun' := runStatus_of_ne
      (m := { m with stateTimer := timer, processStatus := m.lastProcessStatus }) hne
    exact ⟨hrun'.trans hrun.symm, rfl, hrun'.symm⟩

/-- Every step keeps the invariant, if no machine is resumed before its first start or started
with a negative process timeout. -/
theorem inv_step (hterm : graph.Terminal) {a : Action} (hinv : Inv graph m)
    (hok : ResumeAfterStart m a) (htimeout : a.TimeoutNotNegative)
    (h : m.step graph a = some m') : Inv graph m' := by
  cases a with
  | initializeResetRun timeout first entered =>
    exact (initializeResetRun_active hterm htimeout h).inv
  | pause =>
    obtain ⟨hrun, hcur⟩ := runStatus_pause h
    obtain ⟨-, rfl⟩ | ⟨-, rfl⟩ := pause_eq_some h
    · exact hinv
    · refine ⟨fun hn => ⟨hrun.trans (hinv.notStarted hn).1, running_stopStateTimer m⟩,
        fun hv => ?_, fun _ => running_stopStateTimer m⟩
      rw [hrun]
      exact hinv.started hv
  | resume =>
    have hvalid := hok rfl
    obtain ⟨hrun, hcur, hstatus⟩ := runStatus_resume hinv hvalid h
    refine Active.inv ?_
    obtain ⟨node, hnode, hn⟩ := hinv.started hvalid
    obtain ⟨-, rfl⟩ | ⟨-, timer, rfl⟩ := resume_eq_some h
    · exact ⟨hvalid, node, hnode, hstatus.trans hn⟩
    · exact ⟨hvalid, node, hnode, hstatus.trans (hrun.trans hn)⟩
  | data ops entered =>
    by_cases hstatus : m.processStatus = .inTheMiddle
    · have hne : m.processStatus ≠ .paused := hstatus ▸ by decide
      have hvalid : m.stStateMachineSts.nIsValid = .valid := by
        cases hv : m.stStateMachineSts.nIsValid with
        | valid => rfl
        | notValid =>
          have := (hinv.notStarted hv).1
          rw [runStatus_of_ne hne, hstatus] at this
          cases this
      exact (callState_active hterm (hinv.active hvalid hne) h).inv
    · obtain rfl := Option.some.inj ((if_pos hstatus).symm.trans h)
      exact hinv
  | stateTimer ops entered =>
    rw [step_stateTimer] at h
    split_ifs at h with hrun
    exact (handleStateTimeOut_active hterm (hinv.active_of_running hrun) h).inv
  | processTimer =>
    rw [step_processTimer] at h
    split_ifs at h
    exact Option.some.inj h ▸ hinv

/-- A machine that has finished, or is paused, stays where it is until it is started again or
resumed. -/
theorem stopped_step (hterm : graph.Terminal) {a : Action} (hinv : Inv graph m)
    (hok : ResumeAfterStart m a) (hreset : ¬a.IsReset)
    (hstop : m.runStatus.IsEnd ∨ (m.processStatus = .paused ∧ a ≠ .resume))
    (h : m.step graph a = some m') :
    m'.currentState = m.currentState ∧ m'.runStatus = m.runStatus ∧
      (m.processStatus = .paused → a ≠ .resume → m'.processStatus = .paused) := by
  have hmiddle : m.processStatus ≠ .inTheMiddle := by
    intro hmiddle
    have hne : m.processStatus ≠ .paused := hmiddle ▸ by decide
    rcases hstop with hend | ⟨hp, -⟩
    · rw [runStatus_of_ne hne, hmiddle] at hend
      exact absurd hend (by decide)
    · exact hne hp
  cases a with
  | initializeResetRun timeout first entered => exact absurd trivial hreset
  | pause =>
    obtain ⟨hrun, hcur⟩ := runStatus_pause h
    refine ⟨hcur, hrun, fun _ _ => ?_⟩
    obtain ⟨hp, rfl⟩ | ⟨-, rfl⟩ := pause_eq_some h
    · exact hp
    · rfl
  | resume =>
    obtain ⟨hrun, hcur, -⟩ := runStatus_resume hinv (hok rfl) h
    exact ⟨hcur, hrun, fun _ hne => absurd rfl hne⟩
  | data ops entered =>
    obtain rfl := Option.some.inj ((if_pos hmiddle).symm.trans h)
    exact ⟨rfl, rfl, fun hp _ => hp⟩
  | stateTimer ops entered =>
    rw [step_stateTimer] at h
    split_ifs at h with hrun
    have hactive := hinv.active_of_running hrun
    obtain ⟨_, -, h⟩ := Option.bind_eq_some_iff.mp h
    obtain ⟨⟨m₁, moved⟩, h₁, h⟩ := Option.bind_eq_some_iff.mp h
    cases moved with
    | true => exact absurd (hactive.inTheMiddle hterm h₁) hmiddle
    | false =>
      obtain ⟨opcode, rfl⟩ := handler_stays h₁
      obtain rfl := Option.some.inj h
      exact ⟨rfl, rfl, fun hp _ => hp⟩
  | processTimer =>
    rw [step_processTimer] at h
    split_ifs at h
    obtain rfl := Option.some.inj h
    exact ⟨rfl, rfl, fun hp _ => hp⟩

/-- Between two steps, the process status or the one saved by `Pause` is the end status of a
type precisely when the current state is of that type. -/
theorem Inv.runStatus_eq_iff (hinv : Inv graph m) {type : StateType} {status : ProcessStatus}
    (h : endStatus type = some status) :
    m.runStatus = status ↔ m.currentType? graph = some type := by
  cases hv : m.stStateMachineSts.nIsValid with
  | valid =>
    obtain ⟨node, hnode, hstatus⟩ := hinv.started hv
    rw [currentType?, if_pos hv, hnode, hstatus, statusAt_eq_iff h]
    exact Option.some_inj.symm
  | notValid =>
    rw [currentType?, if_neg (hv ▸ by decide), (hinv.notStarted hv).1]
    refine iff_of_false ?_ (by rintro ⟨⟩)
    rintro rfl
    revert h
    cases type <;> decide

end Steps

/-! ### Runs -/

section Runs

variable {graph : StateGraph}

theorem inv_run (hterm : graph.Terminal) {m m' : StateMachine} {l : List Action}
    (hinv : Inv graph m) (hok : Guarded (step graph) ResumeAfterStart m l)
    (htimeout : ∀ a ∈ l, a.TimeoutNotNegative) (hr : run (step graph) m l = some m') :
    Inv graph m' := by
  have hguard : Guarded (step graph) (fun m a => ResumeAfterStart m a ∧ a.TimeoutNotNegative)
      m l := hok.and fun a ha _ => htimeout a ha
  exact hguard.always (fun _ _ _ hJ hok h => inv_step hterm hJ hok.1 hok.2 h) hinv l m'
    List.prefix_rfl hr

/-- The machine has been started. -/
theorem ResumeAfterStart.of_ne_notStarted {m : StateMachine} (hinv : Inv graph m)
    (h : m.runStatus ≠ .notStarted) (a : Action) : ResumeAfterStart m a := by
  intro _
  cases hv : m.stStateMachineSts.nIsValid with
  | valid => rfl
  | notValid => exact absurd (hinv.notStarted hv).1 h

theorem Action.TimeoutNotNegative.of_not_isReset {a : Action} (h : ¬a.IsReset) :
    a.TimeoutNotNegative := by
  cases a with
  | initializeResetRun timeout first entered => exact absurd trivial h
  | pause | resume | data | stateTimer | processTimer => exact trivial

/-- A machine that has finished stays where it is until it is started again. -/
theorem finished_run (hterm : graph.Terminal) {m m' : StateMachine} {l : List Action}
    (hinv : Inv graph m) (hend : m.runStatus.IsEnd) (hreset : ∀ a ∈ l, ¬a.IsReset)
    (hr : run (step graph) m l = some m') :
    m'.currentState = m.currentState ∧ m'.runStatus = m.runStatus := by
  induction l generalizing m with
  | nil => exact Option.some.inj hr ▸ ⟨rfl, rfl⟩
  | cons a l ih =>
    obtain ⟨m₁, h₁, hr⟩ := run_cons_eq_some.mp hr
    have hok : ResumeAfterStart m a := by
      refine .of_ne_notStarted hinv ?_ a
      rintro h
      rw [h] at hend
      exact absurd hend (by decide)
    obtain ⟨hcur, hrun, -⟩ := stopped_step hterm hinv hok (hreset a List.mem_cons_self)
      (.inl hend) h₁
    have hinv₁ := inv_step hterm hinv hok (.of_not_isReset (hreset a List.mem_cons_self)) h₁
    obtain ⟨hcur', hrun'⟩ := ih hinv₁ (hrun ▸ hend)
      (fun b hb => hreset b (List.mem_cons_of_mem a hb)) hr
    exact ⟨hcur'.trans hcur, hrun'.trans hrun⟩

/-- A machine that is paused stays where it is until it is started again or resumed. -/
theorem paused_run (hterm : graph.Terminal) {m m' : StateMachine} {l : List Action}
    (hinv : Inv graph m) (hp : m.processStatus = .paused)
    (hreset : ∀ a ∈ l, ¬a.IsReset ∧ a ≠ .resume) (hr : run (step graph) m l = some m') :
    m'.currentState = m.currentState ∧ m'.runStatus = m.runStatus ∧
      m'.processStatus = .paused := by
  induction l generalizing m with
  | nil => exact Option.some.inj hr ▸ ⟨rfl, rfl, hp⟩
  | cons a l ih =>
    obtain ⟨m₁, h₁, hr⟩ := run_cons_eq_some.mp hr
    obtain ⟨hreset₁, hne⟩ := hreset a List.mem_cons_self
    have hok : ResumeAfterStart m a := fun h => absurd h hne
    obtain ⟨hcur, hrun, hp₁⟩ := stopped_step hterm hinv hok hreset₁ (.inr ⟨hp, hne⟩) h₁
    obtain ⟨hcur', hrun', hp'⟩ := ih (inv_step hterm hinv hok (.of_not_isReset hreset₁) h₁)
      (hp₁ hp hne)
      (fun b hb => hreset b (List.mem_cons_of_mem a hb)) hr
    exact ⟨hcur'.trans hcur, hrun'.trans hrun, hp'⟩

/-- **End states and pauses.** If no process timeout is negative, then after every step the
process status, or the one saved by `Pause`, is an end status precisely when the current state
is of the matching type. A machine that has finished keeps its state and status until it is
started again, and one that is paused keeps them until it is started again or resumed. -/
theorem terminal_and_paused (hterm : graph.Terminal) {hasRow : Bool} {l : List Action}
    {m : StateMachine} (hok : Guarded (step graph) ResumeAfterStart (new hasRow) l)
    (htimeout : ∀ a ∈ l, a.TimeoutNotNegative)
    (hr : run (step graph) (new hasRow) l = some m) :
    (∀ type status, endStatus type = some status →
      (m.runStatus = status ↔ m.currentType? graph = some type)) ∧
    (m.runStatus.IsEnd → ∀ l' m', (∀ a ∈ l', ¬a.IsReset) →
      run (step graph) m l' = some m' →
      m'.currentState = m.currentState ∧ m'.runStatus = m.runStatus) ∧
    (m.processStatus = .paused → ∀ l' m', (∀ a ∈ l', ¬a.IsReset ∧ a ≠ .resume) →
      run (step graph) m l' = some m' →
      m'.currentState = m.currentState ∧ m'.runStatus = m.runStatus ∧
        m'.processStatus = .paused) := by
  have hinv := inv_run hterm (inv_new hasRow) hok htimeout hr
  exact ⟨fun type status h => hinv.runStatus_eq_iff h,
    fun hend l' m' hreset hr' => finished_run hterm hinv hend hreset hr',
    fun hp l' m' hreset hr' => paused_run hterm hinv hp hreset hr'⟩

/-- State `1` waits, state `2` succeeds. Opcode `7` leads from one to the other. -/
def sampleGraph : StateGraph where
  nodeTable :=
    [(1, ((StateNode.new .default 100).addTransition 7 2).1), (2, StateNode.new .endSuccess 50)]
  keys_nodup := by decide

/-- A run to an end state, after which the machine is paused and the state timer elapses once
it is resumed. -/
theorem terminal_and_paused_sample : ∃ m,
    run (step sampleGraph) (new true)
      [.initializeResetRun 1000 1 [[]], .data [7] [[]]] = some m ∧
    m.runStatus = .finishedSuccessfuly ∧ m.currentType? sampleGraph = some .endSuccess ∧
    ∀ m', run (step sampleGraph) m [.pause, .data [7] [], .resume, .stateTimer [7] []] = some m' →
      m'.currentState = 2 := by
  have hr : (run (step sampleGraph) (new true)
      [.initializeResetRun 1000 1 [[]], .data [7] [[]]]).map
        (fun m => (m.runStatus, m.currentState)) = some (.finishedSuccessfuly, 2) := by decide
  obtain ⟨m, hm, heq⟩ := Option.map_eq_some_iff.mp hr
  obtain ⟨hrun, hcur⟩ := Prod.mk.inj heq
  have hok : Guarded (step sampleGraph) ResumeAfterStart (new true)
      [.initializeResetRun 1000 1 [[]], .data [7] [[]]] := by
    refine .of_forall (fun a ha s => ?_) _
    simp only [List.mem_cons, List.not_mem_nil, or_false] at ha
    rcases ha with rfl | rfl <;> exact fun h => by cases h
  have hterm : sampleGraph.Terminal := by decide
  have htimeout : ∀ a ∈ [Action.initializeResetRun 1000 1 [[]], .data [7] [[]]],
      a.TimeoutNotNegative := by
    intro a ha
    simp only [List.mem_cons, List.not_mem_nil, or_false] at ha
    rcases ha with rfl | rfl
    · exact (by decide : (0 : ℤ) ≤ 1000)
    · exact trivial
  obtain ⟨hiff, hfin, -⟩ := terminal_and_paused hterm hok htimeout hm
  refine ⟨m, hm, hrun, (hiff .endSuccess _ rfl).mp hrun, fun m' hr' => ?_⟩
  refine (hfin (hrun ▸ by decide) _ m' ?_ hr').1.trans hcur
  intro a ha
  simp only [List.mem_cons, List.not_mem_nil, or_false] at ha
  rcases ha with rfl | rfl | rfl | rfl <;> exact id

/-- A machine that has succeeded is started again with a negative process timeout. The timer
throws, and the machine has succeeded in a default state. -/
theorem finished_in_default_state :
    sampleGraph.Terminal ∧ Guarded (step sampleGraph) ResumeAfterStart (new true)
      [.initializeResetRun 1000 1 [[]], .data [7] [[]], .initializeResetRun (-1) 1 []] ∧
    ∃ m, run (step sampleGraph) (new true)
        [.initializeResetRun 1000 1 [[]], .data [7] [[]], .initializeResetRun (-1) 1 []] =
          some m ∧
      ¬∀ type status, endStatus type = some status →
        (m.runStatus = status ↔ m.currentType? sampleGraph = some type) := by
  refine ⟨by decide, .of_forall (fun a ha s => ?_) _, ?_⟩
  · simp only [List.mem_cons, List.not_mem_nil, or_false] at ha
    rcases ha with rfl | rfl | rfl <;> exact fun h => by cases h
  · have hr : (run (step sampleGraph) (new true)
        [.initializeResetRun 1000 1 [[]], .data [7] [[]], .initializeResetRun (-1) 1 []]).map
          (fun m => (m.runStatus, m.currentType? sampleGraph)) =
        some (.finishedSuccessfuly, some .default) := by decide
    obtain ⟨m, hm, heq⟩ := Option.map_eq_some_iff.mp hr
    obtain ⟨hrun, htype⟩ := Prod.mk.inj heq
    refine ⟨m, hm, fun hall => ?_⟩
    cases htype.symm.trans ((hall .endSuccess _ rfl).mp hrun)

end Runs

end StateMachine

end UtilityFramework
