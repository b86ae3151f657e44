import UtilityFramework.Lib.Transition
import UtilityFramework.Utils.Signal

/-!
# The state machine

`StateMachine`: states under integer ids, a current state, and a process status. A run is
started by `InitializeResetRun`; data and the state timer let the current state perform
transitions, and `SwitchToNextState` enters the states that are reached, which may perform
transitions in turn.

The states' handlers are user code. A handler changes the machine by `PerformTransition`
only, and reports whether it made a transition, so that a call of a handler is given by the
opcodes it passes (`handler`). Handlers without a result make none. Each action carries the
opcodes of the handlers it calls.

A step is the whole of an action in the machine's context. There is no next state when a
state is not registered that the code dereferences, and when the states keep passing the
machine on for longer than the action has calls. The process timer throws on a negative
timeout, and the context goes on: what `InitializeResetRun` has done by then stays
(`resetThrown`).
-/

namespace UtilityFramework

/-! ### States -/

/-- `State::StateType`. -/
inductive StateType
  | uninitialized
  | default
  | endSuccess
  | endFail
  | endAbort
  deriving DecidableEq

/-- The end states. -/
def StateType.IsEnd : StateType → Prop
  | endSuccess | endFail | endAbort => True
  | uninitialized | default => False

instance : DecidablePred StateType.IsEnd
  | .endSuccess | .endFail | .endAbort => .isTrue trivial
  | .uninitialized | .default => .isFalse not_false

/-- `State::transition_pair`. -/
structure TransitionPair where
  opcode : Int16
  nextState : Int16
  deriving DecidableEq

/-- `MAX_NUM_OF_TRANSITIONS_PER_STATE`. -/
def maxNumOfTransitions : ℕ := 32

/-- `State`, without its handlers. -/
structure StateNode where
  stateType : StateType
  nodeTimeOut : ℤ
  transitionsArray : List TransitionPair
  numOfTransitions_le : transitionsArray.length ≤ maxNumOfTransitions

namespace StateNode

/-- The constructor. -/
def new (stateType : StateType) (nodeTimeOut : ℤ) : StateNode :=
  ⟨stateType, nodeTimeOut, [], Nat.zero_le _⟩

/-- `AddTransition`. -/
def addTransition (node : StateNode) (opcode nextState : Int16) : StateNode × Bool :=
  if h : maxNumOfTransitions ≤ node.transitionsArray.length then (node, false)
  else
    ({ node with
        transitionsArray := node.transitionsArray ++ [⟨opcode, nextState⟩]
        numOfTransitions_le := by
          rw [List.length_append]
          exact Nat.lt_of_not_le h }, true)

/-- `FindTransition`: the next state, or `-1`. -/
def findTransition (node : StateNode) (currentOpcode : Int16) : ℤ :=
  match node.transitionsArray.find? fun t => currentOpcode = t.opcode with
  | some t => t.nextState.toInt
  | none => -1

theorem findTransition_of_nil {node : StateNode} (h : node.transitionsArray = [])
    (currentOpcode : Int16) : node.findTransition currentOpcode = -1 := by
  rw [findTransition, h]
  rfl

end StateNode

/-- `StateMachine::Graph_struct`: the states under their ids, no id twice. -/
structure StateGraph where
  nodeTable : List (ℤ × StateNode)
  keys_nodup : (nodeTable.map Prod.fst).Nodup

namespace StateGraph

/-- The state under an id. -/
def node? (graph : StateGraph) (id : ℤ) : Option StateNode := graph.nodeTable.lookup id

/-- `AddState`: throws if there is a state under the id. -/
def addState (graph : StateGraph) (id : ℤ) (node : StateNode) : Option StateGraph :=
  if h : id ∈ graph.nodeTable.map Prod.fst then none
  else some ⟨(id, node) :: graph.nodeTable, List.nodup_cons.mpr ⟨h, graph.keys_nodup⟩⟩

/-- End states have no outgoing transitions. -/
def Terminal (graph : StateGraph) : Prop :=
  ∀ p ∈ graph.nodeTable, p.2.stateType.IsEnd → p.2.transitionsArray = []

instance (graph : StateGraph) : Decidable graph.Terminal :=
  inferInstanceAs (Decidable (∀ p ∈ graph.nodeTable, _ → _))

theorem Terminal.of_node? {graph : StateGraph} (hterm : graph.Terminal) {id : ℤ}
    {node : StateNode} (h : graph.node? id = some node) (hend : node.stateType.IsEnd) :
    node.transitionsArray = [] := by
  obtain ⟨l₁, l₂, hl, -⟩ := List.lookup_eq_some_iff.mp h
  exact hterm (id, node) (hl ▸ List.mem_append_right l₁ List.mem_cons_self) hend

end StateGraph

/-! ### Timers -/

/-- The functions that the machine may subscribe to a timer. -/
inductive TimerHandler
  | handleStateTimeOut
  | handleProcessTimeOut

/-- What `m_pStateTimer.elapsed` calls: the constructor of the machine subscribes to it. -/
def stateTimerElapsed : Signal TimerHandler := (Signal.empty.subscribe .handleStateTimeOut).1

/-- What `m_pProcessTimer.elapsed` calls: nothing subscribes to it. -/
def processTimerElapsed : Signal TimerHandler := .empty

/-- `utils::timer`: once started it elapses again and again until it is stopped. -/
structure UtilsTimer where
  interval : ℤ
  running : Bool

namespace UtilsTimer

/-- A timer as it is constructed. -/
def new : UtilsTimer := ⟨-1, false⟩

/-- `stop`. -/
def stop (timer : UtilsTimer) : UtilsTimer :=
  if timer.running then ⟨-1, false⟩ else timer

/-- `start`, which stops the timer if it runs: throws if the interval is not positive. -/
def start (interval : ℤ) : Option UtilsTimer :=
  if interval ≤ 0 then none else some ⟨interval, true⟩

@[simp] theorem running_stop (timer : UtilsTimer) : timer.stop.running = false := by
  rw [stop]
  split
  · rfl
  · exact Bool.eq_false_iff.mpr ‹_›

end UtilsTimer

/-! ### The machine -/

/-- `StateMachine::ProcessStatus`. -/
inductive ProcessStatus
  | notStarted
  | inTheMiddle
  | finishedFail
  | finishedTimeoutError
  | finishedSuccessfuly
  | finishedKilled
  | finishedAborted
  | paused
  deriving DecidableEq

/-- The enumerator's value. -/
def ProcessStatus.value (status : ProcessStatus) : ℤ := status.ctorIdx

/-- `StateMachine::StateMachineStatusEnum`. -/
inductive StateMachineStatusEnum
  | notValid
  | valid
  deriving DecidableEq

/-- `StateMachine::TimeoutStatusEnum`. -/
inductive TimeoutStatusEnum
  | notExpired
  | expired
  deriving DecidableEq

/-- `StateMachine::StateMachineEntryStruct`. -/
structure StateMachineEntryStruct where
  nIsValid : StateMachineStatusEnum
  nProcessStatus : ℤ
  nLastOpcode : ℤ
  nLastTransition : ℤ
  nCurrentState : ℤ
  nIsTimeout : TimeoutStatusEnum
  deriving DecidableEq

/-- A write of the status row, with the machine's process status and current state when it is
made. -/
structure StatusWrite where
  entry : StateMachineEntryStruct
  processStatus : ProcessStatus
  currentState : ℤ
  deriving DecidableEq

/-- `StateMachine`. The status row, where there is one, is given by what has been written
to it, latest first. -/
structure StateMachine where
  processStatus : ProcessStatus
  lastProcessStatus : ProcessStatus
  stateTimer : UtilsTimer
  processTimer : UtilsTimer
  rowStateMachineSts : Option (List StatusWrite)
  stStateMachineSts : StateMachineEntryStruct

namespace StateMachine

/-- The constructor. -/
def new (hasRow : Bool) : StateMachine where
  processStatus := .notStarted
  lastProcessStatus := .notStarted
  stateTimer := UtilsTimer.new
  processTimer := UtilsTimer.new
  rowStateMachineSts := if hasRow then some [] else none
  stStateMachineSts :=
    { nIsValid := .notValid
      nProcessStatus := 0
      nLastOpcode := 0
      nLastTransition := 0
      nCurrentState := 0
      nIsTimeout := .notExpired }

/-- `m_stStateMachineSts.nCurrentState`. -/
def currentState (m : StateMachine) : ℤ := m.stStateMachineSts.nCurrentState

/-- Assigning `m_stStateMachineSts.nLastOpcode`. -/
def setLastOpcode (m : StateMachine) (opcode : Int16) : StateMachine :=
  { m with stStateMachineSts := { m.stStateMachineSts with nLastOpcode := opcode.toInt } }

/-- Assigning `m_stStateMachineSts.nCurrentState`. -/
def setCurrentState (m : StateMachine) (cur : ℤ) : StateMachine :=
  { m with stStateMachineSts := { m.stStateMachineSts with nCurrentState := cur } }

/-- The writes of the status row, latest first. -/
def writes (m : StateMachine) : List StatusWrite := m.rowStateMachineSts.getD []

/-- Writing `m_stStateMachineSts` to the status row, if there is one. -/
def writeStatus (m : StateMachine) : StateMachine :=
  { m with
    rowStateMachineSts := m.rowStateMachineSts.map fun ws =>
      ⟨m.stStateMachineSts, m.processStatus, m.currentState⟩ :: ws }

/-- `StopStateTimer`. -/
def stopStateTimer (m : StateMachine) : StateMachine :=
  { m with stateTimer := m.stateTimer.stop }

/-- `HandleProcessTimeOut`. -/
def handleProcessTimeOut (m : StateMachine) : StateMachine :=
  { m with
    stateTimer := m.stateTimer.stop
    processTimer := m.processTimer.stop
    processStatus := .finishedTimeoutError }

/-- The process status that a state of the given type gives the machine, if it is an end
state. -/
def endStatus : StateType → Option ProcessStatus
  | .endSuccess => some .finishedSuccessfuly
  | .endFail => some .finishedFail
  | .endAbort => some .finishedAborted
  | .uninitialized | .default => none

/-- Setting the process status on entering a state of the given type. -/
def markEnd (m : StateMachine) (type : StateType) : StateMachine :=
  match endStatus type with
  | some status => { m with processTimer := m.processTimer.stop, processStatus := status }
  | none => m

/-- Stopping the timers in `InitializeResetRun`. -/
def resetTimers (m : StateMachine) : StateMachine :=
  if m.processStatus = .notStarted then m
  else { m with processTimer := m.processTimer.stop, stateTimer := m.stateTimer.stop }

/-- Making the first state the current one in `InitializeResetRun`. -/
def setFirstState (m : StateMachine) (nFirstStateToRun : ℤ) : StateMachine :=
  { m with
    stStateMachineSts := { m.stStateMachineSts with
      nCurrentState := nFirstStateToRun
      nIsValid := .valid } }

/-- Starting the process timer in `InitializeResetRun`. -/
def startProcessTimer (m : StateMachine) (nProcessTimeOut : ℤ) : Option StateMachine :=
  if nProcessTimeOut = 0 then some m
  else (UtilsTimer.start nProcessTimeOut).map fun timer =>
    { m with
      processTimer := timer
      stStateMachineSts := { m.stStateMachineSts with nIsTimeout := .notExpired } }

/-- `m_stStateMachineSts.nIsTimeout = TIMEOUT_EXPIRED`. -/
def setExpired (m : StateMachine) : StateMachine :=
  { m with stStateMachineSts := { m.stStateMachineSts with nIsTimeout := .expired } }

/-- The test for an end in `SwitchToNextState`. -/
def finished (m : StateMachine) : Bool :=
  m.processStatus = .finishedSuccessfuly ∨ m.processStatus = .finishedFail ∨
    m.processStatus = .finishedAborted

section Graph

variable (graph : StateGraph)

/-- `PerformTransition`. -/
def performTransition (m : StateMachine) (transitionOpcode : Int16) :
    Option (StateMachine × Bool) :=
  match graph.node? m.currentState with
  | none => none
  | some node =>
    -- `FindTransition` has found none.
    if node.findTransition transitionOpcode = -1 then
      some (m.setLastOpcode transitionOpcode, false)
    else
      match graph.node? (node.findTransition transitionOpcode) with
      | none => some (m.setLastOpcode transitionOpcode, false)
      | some next =>
        if next.stateType = .uninitialized then some (m.setLastOpcode transitionOpcode, false)
        else
          some ((m.setLastOpcode transitionOpcode).setCurrentState
            (node.findTransition transitionOpcode), true)

/-- A call of a state's handler that passes the given opcodes to `PerformTransition`. It
returns whether it made a transition. -/
def handler (m : StateMachine) : List Int16 → Option (StateMachine × Bool)
  | [] => some (m, false)
  | op :: ops => do
    let (m, moved) ← m.performTransition graph op
    let (m, moved') ← m.handler ops
    return (m, moved || moved')

/-- `StartStateTimer`. -/
def startStateTimer (m : StateMachine) : Option StateMachine := do
  let node ← graph.node? m.currentState
  if 0 < node.nodeTimeOut then
    let timer ← UtilsTimer.start node.nodeTimeOut
    return { m with stateTimer := timer }
  return m

/-- What the loop of `SwitchToNextState` does before it lets the new state act. -/
def enterState (m : StateMachine) : Option StateMachine :=
  (graph.node? m.currentState).map fun node => (m.markEnd node.stateType).writeStatus

/-- The loop of `SwitchToNextState`. Each call of `HandleEnteredState` passes one list of
opcodes. -/
def switchLoop (m : StateMachine) : List (List Int16) → Option StateMachine
  | [] => none
  | ops :: entered => do
    let m ← m.enterState graph
    let (m, moved) ← m.handler graph ops
    if moved ∧ ¬m.finished then m.switchLoop entered else return m

/-- `SwitchToNextState`. -/
def switchToNextState (m : StateMachine) (entered : List (List Int16)) :
    Option StateMachine := do
  let m ← m.switchLoop graph entered
  m.startStateTimer graph

/-- The action of `InitializeResetRun`, before `SwitchToNextState`. A negative process timeout
makes the process timer throw. -/
def resetRun (m : StateMachine) (nProcessTimeOut nFirstStateToRun : ℤ) : Option StateMachine :=
  ((m.resetTimers.setFirstState nFirstStateToRun).startProcessTimer nProcessTimeOut).map fun m =>
    { m with processStatus := .inTheMiddle }

/-- What an exception of the process timer leaves of `InitializeResetRun`: the first state is
the current one, and the status is the old one. -/
def resetThrown (m : StateMachine) (nFirstStateToRun : ℤ) : StateMachine :=
  { m.resetTimers.setFirstState nFirstStateToRun with
    stStateMachineSts :=
      { (m.resetTimers.setFirstState nFirstStateToRun).stStateMachineSts with
        nIsTimeout := .notExpired } }

/-- The action of `InitializeResetRun`. -/
def initializeResetRun (m : StateMachine) (nProcessTimeOut nFirstStateToRun : ℤ)
    (entered : List (List Int16)) : Option StateMachine :=
  match m.resetRun nProcessTimeOut nFirstStateToRun with
  | some m => m.switchToNextState graph entered
  | none => some (m.resetThrown nFirstStateToRun)

/-- The action of `Pause`. -/
def pause (m : StateMachine) : Option StateMachine :=
  if m.processStatus = .paused then some m else do
    let _ ← graph.node? m.currentState
    return { m.stopStateTimer with
      lastProcessStatus := m.processStatus
      processStatus := .paused }

/-- The action of `Resume`. -/
def resume (m : StateMachine) : Option StateMachine :=
  if m.processStatus = .paused then do
    let m ← m.startStateTimer graph
    return { m with processStatus := m.lastProcessStatus }
  else some m

/-- `CallState`, when `HandleData` passes the opcodes `ops`. -/
def callState (m : StateMachine) (ops : List Int16) (entered : List (List Int16)) :
    Option StateMachine :=
  if m.processStatus ≠ .inTheMiddle then some m else do
    let _ ← graph.node? m.currentState
    let (m, moved) ← m.handler graph ops
    if moved then m.stopStateTimer.switchToNextState graph entered else return m

/-- `HandleStateTimeOut`, when `HandleTimeout` passes the opcodes `ops`. -/
def handleStateTimeOut (m : StateMachine) (ops : List Int16) (entered : List (List Int16)) :
    Option StateMachine := do
  let _ ← graph.node? m.currentState
  let (m, moved) ← m.handler graph ops
  if moved then m.setExpired.writeStatus.stopStateTimer.switchToNextState graph entered
  else return m.setExpired.writeStatus

/-- `on_timer_tick`: the functions subscribed to the timer are called. -/
def raise (m : StateMachine) (handlers : List TimerHandler) (ops : List Int16)
    (entered : List (List Int16)) : Option StateMachine :=
  handlers.foldlM (fun m h =>
    match h with
    | .handleStateTimeOut => m.handleStateTimeOut graph ops entered
    | .handleProcessTimeOut => some m.handleProcessTimeOut) m

/-- What can happen to a state machine: the three calls, data for a registered row, and the two
timers elapsing. -/
inductive Action
  | initializeResetRun (nProcessTimeOut nFirstStateToRun : ℤ) (entered : List (List Int16))
  | pause
  | resume
  | data (ops : List Int16) (entered : List (List Int16))
  | stateTimer (ops : List Int16) (entered : List (List Int16))
  | processTimer

/-- One step. A timer elapses only while it is running. -/
def step (m : StateMachine) : Action → Option StateMachine
  | .initializeResetRun nProcessTimeOut nFirstStateToRun entered =>
    m.initializeResetRun graph nProcessTimeOut nFirstStateToRun entered
  | .pause => m.pause graph
  | .resume => m.resume graph
  | .data ops entered => m.callState graph ops entered
  | .stateTimer ops entered =>
    if m.stateTimer.running then m.raise graph stateTimerElapsed.raise ops entered else none
  | .processTimer =>
    if m.processTimer.running then m.raise graph processTimerElapsed.raise [] [] else none

/-- The state timer calls `HandleStateTimeOut`. -/
theorem step_stateTimer (m : StateMachine) (ops : List Int16) (entered : List (List Int16)) :
    m.step graph (.stateTimer ops entered) =
      if m.stateTimer.running then m.handleStateTimeOut graph ops entered else none := by
  rw [step]
  congr 1
  exact Option.bind_fun_some _

/-- The process timer calls nothing. -/
theorem step_processTimer (m : StateMachine) :
    m.step graph .processTimer = if m.processTimer.running then some m else none := rfl

end Graph

/-! ### What the functions change -/

/-- A machine whose record has the given last opcode and current state. -/
def withTransition (m : StateMachine) (opcode cur : ℤ) : StateMachine :=
  { m with
    stStateMachineSts := { m.stStateMachineSts with nLastOpcode := opcode, nCurrentState := cur } }

section Fields

variable (m : StateMachine) (opcode cur : ℤ)

@[simp] theorem processStatus_withTransition :
    (m.withTransition opcode cur).processStatus = m.processStatus := rfl

@[simp] theorem processTimer_withTransition :
    (m.withTransition opcode cur).processTimer = m.processTimer := rfl

@[simp] theorem currentState_withTransition :
    (m.withTransition opcode cur).currentState = cur := rfl

@[simp] theorem nIsValid_withTransition :
    (m.withTransition opcode cur).stStateMachineSts.nIsValid = m.stStateMachineSts.nIsValid := rfl

@[simp] theorem processStatus_writeStatus : m.writeStatus.processStatus = m.processStatus := rfl

@[simp] theorem processTimer_writeStatus : m.writeStatus.processTimer = m.processTimer := rfl

@[simp] theorem stStateMachineSts_writeStatus :
    m.writeStatus.stStateMachineSts = m.stStateMachineSts := rfl

@[simp] theorem currentState_writeStatus : m.writeStatus.currentState = m.currentState := rfl

@[simp] theorem running_stopStateTimer : m.stopStateTimer.stateTimer.running = false :=
  UtilsTimer.running_stop m.stateTimer

variable (type : StateType)

@[simp] theorem processStatus_markEnd :
    (m.markEnd type).processStatus = (endStatus type).getD m.processStatus := by
  rw [markEnd]
  split <;> simp [*]

@[simp] theorem stStateMachineSts_markEnd :
    (m.markEnd type).stStateMachineSts = m.stStateMachineSts := by
  rw [markEnd]
  split <;> rfl

@[simp] theorem currentState_markEnd : (m.markEnd type).currentState = m.currentState := by
  rw [currentState, stStateMachineSts_markEnd, currentState]

end Fields

/-- The process timer throws precisely on a negative timeout. -/
theorem resetRun_eq_none_iff {m : StateMachine} {timeout first : ℤ} :
    m.resetRun timeout first = none ↔ timeout < 0 := by
  rw [resetRun, Option.map_eq_none_iff, startProcessTimer]
  split_ifs with hzero
  · exact iff_of_false not_false (by omega)
  · rw [Option.map_eq_none_iff, UtilsTimer.start]
    split_ifs with hle
    · exact iff_of_true rfl (by omega)
    · exact iff_of_false not_false (by omega)

section Graph

variable {graph : StateGraph} {m m' : StateMachine} {moved : Bool}

/-- `InitializeResetRun` starts the machine, or the process timer throws. -/
theorem initializeResetRun_eq_some {timeout first : ℤ} {entered : List (List Int16)}
    (h : m.initializeResetRun graph timeout first entered = some m') :
    (0 ≤ timeout ∧ ∃ m₁, m.resetRun timeout first = some m₁ ∧
        m₁.switchToNextState graph entered = some m') ∨
      (timeout < 0 ∧ m' = m.resetThrown first) := by
  rw [initializeResetRun] at h
  cases hreset : m.resetRun timeout first with
  | some m₁ =>
    have hnot : ¬timeout < 0 := fun hneg => by
      cases hreset.symm.trans (resetRun_eq_none_iff.mpr hneg)
    rw [hreset] at h
    exact .inl ⟨not_lt.mp hnot, m₁, rfl, h⟩
  | none =>
    rw [hreset] at h
    exact .inr ⟨resetRun_eq_none_iff.mp hreset, (Option.some.inj h).symm⟩

/-- A transition that is not made leaves the current state; one that is made ends in a state
that is registered, and does not start in a state without transitions. -/
theorem performTransition_eq_some {op : Int16}
    (h : m.performTransition graph op = some (m', moved)) :
    ∃ node cur, graph.node? m.currentState = some node ∧ m' = m.withTransition op.toInt cur ∧
      (graph.node? cur).isSome ∧ (moved = false → cur = m.currentState) ∧
      (node.transitionsArray = [] → moved = false) := by
  have hstay : ∀ node, graph.node? m.currentState = some node →
      some (m.setLastOpcode op, false) = some (m', moved) →
      ∃ node cur, graph.node? m.currentState = some node ∧ m' = m.withTransition op.toInt cur ∧
        (graph.node? cur).isSome ∧ (moved = false → cur = m.currentState) ∧
        (node.transitionsArray = [] → moved = false) := by
    intro node hnode heq
    obtain ⟨rfl, rfl⟩ := Prod.mk.inj (Option.some.inj heq)
    exact ⟨node, m.currentState, hnode, rfl, hnode ▸ rfl, fun _ => rfl, fun _ => rfl⟩
  rw [performTransition] at h
  split at h
  · cases h
  · rename_i node hnode
    split_ifs at h with hnext
    · exact hstay node hnode h
    · split at h
      · exact hstay node hnode h
      · rename_i next hreg
        split_ifs at h
        · exact hstay node hnode h
        · obtain ⟨rfl, rfl⟩ := Prod.mk.inj (Option.some.inj h)
          refine ⟨node, _, hnode, rfl, hreg ▸ rfl, fun h => absurd h (by decide), fun hnil => ?_⟩
          exact absurd (StateNode.findTransition_of_nil hnil op) hnext

/-- A handler changes the record's last opcode and current state only. It leaves the current
state if it makes no transition, and makes none in a state without transitions. -/
theorem handler_eq_some {ops : List Int16} (h : m.handler graph ops = some (m', moved)) :
    ∃ opcode cur, m' = m.withTransition opcode cur ∧
      ((graph.node? m.currentState).isSome → (graph.node? cur).isSome) ∧
      (moved = false → cur = m.currentState) ∧
      ∀ node, graph.node? m.currentState = some node → node.transitionsArray = [] →
        moved = false := by
  induction ops generalizing m moved with
  | nil =>
    obtain ⟨rfl, rfl⟩ := Prod.mk.inj (Option.some.inj h)
    exact ⟨m.stStateMachineSts.nLastOpcode, m.currentState, rfl, id, fun _ => rfl,
      fun _ _ _ => rfl⟩
  | cons op ops ih =>
    obtain ⟨⟨m₁, moved₁⟩, h₁, h⟩ := Option.bind_eq_some_iff.mp h
    obtain ⟨⟨m₂, moved₂⟩, h₂, h⟩ := Option.bind_eq_some_iff.mp h
    obtain ⟨rfl, rfl⟩ := Prod.mk.inj (Option.some.inj h)
    obtain ⟨node, cur₁, hnode, rfl, hreg₁, hstay₁, hnil₁⟩ := performTransition_eq_some h₁
    obtain ⟨opcode, cur, rfl, hreg, hstay, hnil⟩ := ih h₂
    refine ⟨opcode, cur, rfl, fun _ => hreg hreg₁, fun hmoved => ?_, fun node' hnode' hnil' => ?_⟩
    · obtain ⟨hf₁, hf₂⟩ := Bool.or_eq_false_iff.mp hmoved
      exact (hstay hf₂).trans (hstay₁ hf₁)
    · obtain rfl := Option.some.inj (hnode.symm.trans hnode')
      have hf₁ := hnil₁ hnil'
      obtain rfl := hstay₁ hf₁
      rw [hf₁, hnil node hnode hnil', Bool.or_false]

/-- **The loop of `SwitchToNextState`.** What holds before it and is kept by a round that is
followed by another holds before the last round; what the last round ends in holds
afterwards. -/
theorem switchLoop_rule {P Q : StateMachine → Prop}
    (hround : ∀ m m₁ m₂ ops moved, P m → m.enterState graph = some m₁ →
      m₁.handler graph ops = some (m₂, moved) →
      (moved = true → m₂.finished = false → P m₂) ∧
        ((moved = false ∨ m₂.finished = true) → Q m₂))
    {entered : List (List Int16)} (h : m.switchLoop graph entered = some m') (hP : P m) :
    Q m' := by
  induction entered generalizing m with
  | nil => cases h
  | cons ops entered ih =>
    obtain ⟨m₁, h₁, h⟩ := Option.bind_eq_some_iff.mp h
    obtain ⟨⟨m₂, moved⟩, h₂, h⟩ := Option.bind_eq_some_iff.mp h
    obtain ⟨hnext, hlast⟩ := hround m m₁ m₂ ops moved hP h₁ h₂
    dsimp only at h
    split_ifs at h with hmoved
    · exact ih h (hnext hmoved.1 (Bool.eq_false_iff.mpr hmoved.2))
    · obtain rfl := Option.some.inj h
      refine hlast ?_
      cases moved with
      | false => exact .inl rfl
      | true => exact .inr (Decidable.not_not.mp fun hf => hmoved ⟨rfl, hf⟩)

theorem enterState_eq_some (h : m.enterState graph = some m') :
    ∃ node, graph.node? m.currentState = some node ∧
      m' = (m.markEnd node.stateType).writeStatus := by
  obtain ⟨node, hnode, rfl⟩ := Option.map_eq_some_iff.mp h
  exact ⟨node, hnode, rfl⟩

/-- Starting the state timer changes nothing else. -/
theorem startStateTimer_eq_some (h : m.startStateTimer graph = some m') :
    ∃ timer, m' = { m with stateTimer := timer } := by
  obtain ⟨node, -, h⟩ := Option.bind_eq_some_iff.mp h
  split_ifs at h
  · obtain ⟨timer, -, h⟩ := Option.bind_eq_some_iff.mp h
    exact ⟨timer, (Option.some.inj h).symm⟩
  · exact ⟨m.stateTimer, (Option.some.inj h).symm⟩

end Graph

end StateMachine

end UtilityFramework
