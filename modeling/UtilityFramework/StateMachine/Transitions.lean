import Mathlib.Data.List.Basic
import UtilityFramework.StateMachine.StateMachine

/-!
# Transitions

The table of states is a `std::map` whose `operator[]` inserts a null pointer under an id that is
not there. `PerformTransition` and `SwitchToNextState` look the current state up in this way, and
a null pointer that is called through has no result.

The calls of `InitializeResetRun` and `PerformTransition` are taken apart here: a call of
`PerformTransition` is a step, whoever makes it, and so is what `SwitchToNextState` does between
the calls of the states' handlers (`Call`). Every run of `InitializeResetRun` is a run of these
steps (`exists_run_of_initializeResetRun`). The machine's current state is registered from its
first `InitializeResetRun` on; before, it is 0.
-/

namespace UtilityFramework

open Transition

/-! ### Graphs -/

/-- A state that is added, with the calls of `AddTransition` on it. -/
structure StateSpec where
  stateID : ℤ
  stateType : StateType
  nodeTimeOut : ℤ
  transitions : List TransitionPair

namespace StateSpec

/-- The calls of `AddTransition`: the state, and the transitions for which `true` was returned. -/
def build (spec : StateSpec) : StateNode × List TransitionPair :=
  spec.transitions.foldl
    (fun p t =>
      ((p.1.addTransition t.opcode t.nextState).1,
        if (p.1.addTransition t.opcode t.nextState).2 then p.2 ++ [t] else p.2))
    (StateNode.new spec.stateType spec.nodeTimeOut, [])

/-- The state. -/
def node (spec : StateSpec) : StateNode := spec.build.1

/-- The transitions that were accepted, in order. -/
def accepted (spec : StateSpec) : List TransitionPair := spec.build.2

end StateSpec

theorem StateSpec.transitionsArray_node (spec : StateSpec) :
    spec.node.transitionsArray = spec.accepted := by
  rw [node, accepted, build]
  refine List.foldlRecOn spec.transitions _
    (motive := fun p : StateNode × List TransitionPair => p.1.transitionsArray = p.2) rfl
    fun p hp t _ => ?_
  rw [StateNode.addTransition]
  by_cases hfull : maxNumOfTransitions ≤ p.1.transitionsArray.length
  · rw [dif_pos hfull, if_neg Bool.false_ne_true]
    exact hp
  · rw [dif_neg hfull, if_pos rfl]
    exact congrArg (· ++ [t]) hp

theorem StateSpec.stateType_node (spec : StateSpec) : spec.node.stateType = spec.stateType := by
  rw [node, build]
  refine List.foldlRecOn spec.transitions _
    (motive := fun p : StateNode × List TransitionPair => p.1.stateType = spec.stateType) rfl
    fun p hp t _ => ?_
  rw [StateNode.addTransition]
  split_ifs <;> exact hp

namespace StateGraph

/-- `AddState` for each of the given states. One that throws adds nothing. -/
def build (specs : List StateSpec) : StateGraph :=
  specs.foldl (fun graph spec => (graph.addState spec.stateID spec.node).getD graph)
    ⟨[], List.nodup_nil⟩

/-- The state that is registered under an id: the first that was added. -/
def registered (specs : List StateSpec) (id : ℤ) : Option StateSpec :=
  specs.find? fun spec => spec.stateID = id

/-- Where the first accepted transition of a state with the given opcode leads. -/
def target (specs : List StateSpec) (cur : ℤ) (opcode : Int16) : Option ℤ :=
  (registered specs cur).bind fun spec =>
    (spec.accepted.find? fun t => opcode = t.opcode).map fun t => t.nextState.toInt

end StateGraph

namespace StateGraph

theorem node?_eq_none_iff {graph : StateGraph} {id : ℤ} :
    graph.node? id = none ↔ id ∉ graph.nodeTable.map Prod.fst := by
  rw [node?, List.lookup_eq_none_iff, List.mem_map]
  refine ⟨fun h => ?_, fun h p hp => ?_⟩
  · rintro ⟨p, hp, rfl⟩
    exact absurd (h p hp) (by simp)
  · exact bne_iff_ne.mpr fun heq => h ⟨p, hp, heq.symm⟩

/-- A state is added under an id that is free. -/
theorem node?_addState (graph : StateGraph) (spec : StateSpec) (id : ℤ) :
    ((graph.addState spec.stateID spec.node).getD graph).node? id =
      (graph.node? id).or (if spec.stateID = id then some spec.node else none) := by
  rw [addState]
  split_ifs with hmem hid hid
  · obtain ⟨node, hnode⟩ : ∃ node, graph.node? id = some node :=
      Option.ne_none_iff_exists'.mp fun hnone => node?_eq_none_iff.mp hnone (hid ▸ hmem)
    rw [Option.getD_none, hnode, Option.some_or]
  · rw [Option.getD_none, Option.or_none]
  · obtain rfl := hid
    have hnone : graph.node? spec.stateID = none := node?_eq_none_iff.mpr hmem
    rw [hnone, Option.none_or, Option.getD_some]
    exact List.lookup_cons_self
  · rw [Option.or_none, Option.getD_some, node?, List.lookup_cons,
      beq_eq_false_iff_ne.mpr fun heq => hid heq.symm]
    rfl

/-- The graph that is built. -/
theorem node?_build (specs : List StateSpec) (id : ℤ) :
    (build specs).node? id = (registered specs id).map StateSpec.node := by
  have hfold (graph : StateGraph) : (specs.foldl (fun graph spec =>
      (graph.addState spec.stateID spec.node).getD graph) graph).node? id =
        (graph.node? id).or ((registered specs id).map StateSpec.node) := by
    induction specs generalizing graph with
    | nil => exact (Option.or_none).symm
    | cons spec specs ih =>
      rw [List.foldl_cons, ih, node?_addState, Option.or_assoc, registered, registered,
        List.find?_cons]
      by_cases hid : spec.stateID = id
      · rw [if_pos hid, decide_eq_true hid]
        rfl
      · rw [if_neg hid, decide_eq_false hid]
        rfl
  exact (hfold _).trans (Option.none_or)

/-- `FindTransition` on the graph that is built. -/
theorem findTransition_build {specs : List StateSpec} {cur : ℤ} {spec : StateSpec}
    (h : registered specs cur = some spec) (opcode : Int16) :
    spec.node.findTransition opcode = (target specs cur opcode).getD (-1) := by
  rw [StateNode.findTransition, target, h, Option.bind_some, spec.transitionsArray_node]
  cases spec.accepted.find? fun t => opcode = t.opcode <;> rfl

/-- The first accepted transition of a state with the given opcode leads to a registered state
that is initialized. -/
def Leads (specs : List StateSpec) (cur : ℤ) (opcode : Int16) (next : ℤ) : Prop :=
  target specs cur opcode = some next ∧
    ∃ spec, registered specs next = some spec ∧ spec.stateType ≠ .uninitialized

end StateGraph

/-- `std::map<int, utils::ref_count_ptr<State>>`: the pointers under their ids, `none` for a null
pointer. -/
abbrev NodeTable := List (ℤ × Option StateNode)

namespace NodeTable

/-- The table of a graph. -/
def ofGraph (graph : StateGraph) : NodeTable := graph.nodeTable.map fun p => (p.1, some p.2)

/-- `operator[]`. -/
def index (table : NodeTable) (id : ℤ) : NodeTable × Option StateNode :=
  match table.lookup id with
  | some node => (table, node)
  | none => ((id, none) :: table, none)

/-- Calling through the pointer under an id. -/
def deref (table : NodeTable) (id : ℤ) : Option (NodeTable × StateNode) :=
  (table.index id).2.map fun node => ((table.index id).1, node)

theorem lookup_ofGraph (graph : StateGraph) (id : ℤ) :
    (ofGraph graph).lookup id = (graph.node? id).map some := by
  rw [ofGraph, StateGraph.node?]
  induction graph.nodeTable with
  | nil => rfl
  | cons p nodeTable ih =>
    rw [List.map_cons, List.lookup_cons, List.lookup_cons, ih]
    cases id == p.1 <;> rfl

/-- In the table of a graph there is no null pointer, and none is inserted by a call that has a
result. -/
theorem deref_ofGraph (graph : StateGraph) (id : ℤ) :
    (ofGraph graph).deref id = (graph.node? id).map fun node => (ofGraph graph, node) := by
  rw [deref, index, lookup_ofGraph]
  cases graph.node? id <;> rfl

theorem all_isSome_ofGraph (graph : StateGraph) :
    ((ofGraph graph).all fun p => p.2.isSome) = true := by
  rw [ofGraph, List.all_map]
  exact List.all_eq_true.mpr fun p _ => rfl

end NodeTable

/-! ### Steps -/

/-- A state machine with its table of states, and the states whose `HandleExitState` has been
called. -/
structure TransitionRun where
  nodeTable : NodeTable
  machine : StateMachine
  exits : List ℤ

namespace TransitionRun

/-- `m_stStateMachineSts.nCurrentState`. -/
def currentState (s : TransitionRun) : ℤ := s.machine.currentState

/-- A machine with the given states. -/
def init (graph : StateGraph) (hasRow : Bool) : TransitionRun :=
  ⟨.ofGraph graph, .new hasRow, []⟩

/-- `PerformTransition`. -/
def performTransition (s : TransitionRun) (transitionOpcode : Int16) :
    Option (TransitionRun × Bool) := do
  let m := s.machine.setLastOpcode transitionOpcode
  let (table, node) ← s.nodeTable.deref m.currentState
  let nTempNextState := node.findTransition transitionOpcode
  if nTempNextState = -1 ∨ table.lookup nTempNextState = none then
    return (⟨table, m, s.exits⟩, false)
  let (table, next) ← table.deref nTempNextState
  if next.stateType = .uninitialized then
    return (⟨table, m, s.exits⟩, false)
  -- `HandleExitState` of the state that is left
  let (table, _) ← table.deref m.currentState
  return (⟨table, m.setCurrentState nTempNextState, s.exits ++ [m.currentState]⟩, true)

/-- The action of `InitializeResetRun`, before `SwitchToNextState`. -/
def initializeResetRun (s : TransitionRun) (nProcessTimeOut nFirstStateToRun : ℤ) :
    Option TransitionRun :=
  if s.nodeTable.all fun p => p.2.isSome then
    some { s with
      machine := (s.machine.resetRun nProcessTimeOut nFirstStateToRun).getD
        (s.machine.resetThrown nFirstStateToRun) }
  else none

/-- A round of the loop of `SwitchToNextState`, up to the call of `HandleEnteredState`. -/
def enterState (s : TransitionRun) : Option TransitionRun := do
  let (table, node) ← s.nodeTable.deref s.currentState
  let (table, _) ← table.deref s.currentState
  return { s with nodeTable := table, machine := (s.machine.markEnd node.stateType).writeStatus }

/-- The end of `SwitchToNextState`: `StartStateTimer`. -/
def startStateTimer (s : TransitionRun) : Option TransitionRun := do
  let (table, node) ← s.nodeTable.deref s.currentState
  if 0 < node.nodeTimeOut then
    let (table, node) ← table.deref s.currentState
    let timer ← UtilsTimer.start node.nodeTimeOut
    return { s with nodeTable := table, machine := { s.machine with stateTimer := timer } }
  return { s with nodeTable := table }

/-- A call, or a part of one. -/
inductive Call
  | initializeResetRun (nProcessTimeOut nFirstStateToRun : ℤ)
  | enterState
  | startStateTimer
  | performTransition (transitionOpcode : Int16)

/-- One step. -/
def step (s : TransitionRun) : Call → Option TransitionRun
  | .initializeResetRun nProcessTimeOut nFirstStateToRun =>
    s.initializeResetRun nProcessTimeOut nFirstStateToRun
  | .enterState => s.enterState
  | .startStateTimer => s.startStateTimer
  | .performTransition transitionOpcode =>
    (s.performTransition transitionOpcode).map fun p => p.1

/-! ### The table of a graph -/

section Graph

variable (graph : StateGraph) (m : StateMachine) (exits : List ℤ)

theorem performTransition_ofGraph (opcode : Int16) :
    performTransition ⟨.ofGraph graph, m, exits⟩ opcode =
      (m.performTransition graph opcode).map fun p =>
        (⟨.ofGraph graph, p.1, if p.2 then exits ++ [m.currentState] else exits⟩, p.2) := by
  rw [performTransition, StateMachine.performTransition]
  have hcur : (m.setLastOpcode opcode).currentState = m.currentState := rfl
  simp only [NodeTable.deref_ofGraph, hcur]
  cases hnode : graph.node? m.currentState with
  | none => rfl
  | some node =>
    simp only [Option.map_some, Option.bind_eq_bind, Option.bind_some, NodeTable.deref_ofGraph,
      NodeTable.lookup_ofGraph, Option.map_eq_none_iff]
    by_cases hnone : node.findTransition opcode = -1
    · rw [if_pos (.inl hnone), if_pos hnone]
      rfl
    · rw [if_neg hnone]
      cases hnext : graph.node? (node.findTransition opcode) with
      | none =>
        rw [if_pos (.inr rfl)]
        rfl
      | some next =>
        rw [if_neg (by rintro (h | h); exacts [hnone h, by cases h])]
        by_cases htype : next.stateType = .uninitialized
        · simp [htype]
        · simp [htype, NodeTable.deref_ofGraph, hnode]

theorem enterState_ofGraph :
    enterState ⟨.ofGraph graph, m, exits⟩ =
      (m.enterState graph).map fun m => ⟨.ofGraph graph, m, exits⟩ := by
  rw [enterState, StateMachine.enterState]
  simp only [NodeTable.deref_ofGraph, currentState]
  cases hnode : graph.node? m.currentState with
  | none => rfl
  | some node => simp [NodeTable.deref_ofGraph, hnode]

theorem startStateTimer_ofGraph :
    startStateTimer ⟨.ofGraph graph, m, exits⟩ =
      (m.startStateTimer graph).map fun m => ⟨.ofGraph graph, m, exits⟩ := by
  rw [startStateTimer, StateMachine.startStateTimer]
  simp only [NodeTable.deref_ofGraph, currentState]
  cases hnode : graph.node? m.currentState with
  | none => rfl
  | some node =>
    by_cases htime : 0 < node.nodeTimeOut
    · simp [NodeTable.deref_ofGraph, hnode, htime]
    · simp [htime]

/-- There is no null pointer that is initialized. -/
theorem initializeResetRun_ofGraph (nProcessTimeOut nFirstStateToRun : ℤ) :
    initializeResetRun ⟨.ofGraph graph, m, exits⟩ nProcessTimeOut nFirstStateToRun =
      some ⟨.ofGraph graph, (m.resetRun nProcessTimeOut nFirstStateToRun).getD
        (m.resetThrown nFirstStateToRun), exits⟩ :=
  if_pos (NodeTable.all_isSome_ofGraph graph)

end Graph

/-! ### Runs of the state machine -/

section Refinement

variable {graph : StateGraph} {m m' : StateMachine} {exits : List ℤ}

/-- The calls of `PerformTransition` that a handler makes are steps. -/
theorem exists_run_of_handler {ops : List Int16} {moved : Bool}
    (h : m.handler graph ops = some (m', moved)) (exits : List ℤ) :
    ∃ exits', run step ⟨.ofGraph graph, m, exits⟩ (ops.map .performTransition) =
      some ⟨.ofGraph graph, m', exits'⟩ := by
  induction ops generalizing m moved exits with
  | nil =>
    obtain ⟨rfl, rfl⟩ := Prod.mk.inj (Option.some.inj h)
    exact ⟨exits, rfl⟩
  | cons op ops ih =>
    obtain ⟨⟨m₁, moved₁⟩, h₁, h⟩ := Option.bind_eq_some_iff.mp h
    obtain ⟨⟨m₂, moved₂⟩, h₂, h⟩ := Option.bind_eq_some_iff.mp h
    obtain ⟨rfl, rfl⟩ := Prod.mk.inj (Option.some.inj h)
    obtain ⟨exits', hrun⟩ := ih h₂ _
    refine ⟨exits', run_cons_eq_some.mpr ⟨_, ?_, hrun⟩⟩
    rw [step, performTransition_ofGraph, h₁]
    rfl

/-- The loop of `SwitchToNextState`. -/
theorem exists_run_of_switchLoop {entered : List (List Int16)}
    (h : m.switchLoop graph entered = some m') (exits : List ℤ) :
    ∃ l exits', run step ⟨.ofGraph graph, m, exits⟩ l = some ⟨.ofGraph graph, m', exits'⟩ := by
  induction entered generalizing m exits with
  | nil => cases h
  | cons ops entered ih =>
    obtain ⟨m₁, h₁, h⟩ := Option.bind_eq_some_iff.mp h
    obtain ⟨⟨m₂, moved⟩, h₂, h⟩ := Option.bind_eq_some_iff.mp h
    obtain ⟨exits₂, hrun₂⟩ := exists_run_of_handler h₂ exits
    have henter : step ⟨.ofGraph graph, m, exits⟩ .enterState =
        some ⟨.ofGraph graph, m₁, exits⟩ := by
      rw [step, enterState_ofGraph, h₁]
      rfl
    dsimp only at h
    split_ifs at h with hmoved
    · obtain ⟨l, exits', hrun⟩ := ih h exits₂
      exact ⟨.enterState :: (ops.map .performTransition ++ l), exits',
        run_cons_eq_some.mpr ⟨_, henter, run_append hrun₂ hrun⟩⟩
    · obtain rfl := Option.some.inj h
      exact ⟨.enterState :: ops.map .performTransition, exits₂,
        run_cons_eq_some.mpr ⟨_, henter, hrun₂⟩⟩

/-- **`InitializeResetRun` step by step.** The states that it enters, and the calls of
`PerformTransition` that they make, are a run that begins with its own part. -/
theorem exists_run_of_initializeResetRun {nProcessTimeOut nFirstStateToRun : ℤ}
    {entered : List (List Int16)}
    (h : m.initializeResetRun graph nProcessTimeOut nFirstStateToRun entered = some m') :
    ∃ l exits', run step ⟨.ofGraph graph, m, exits⟩
      (.initializeResetRun nProcessTimeOut nFirstStateToRun :: l) =
        some ⟨.ofGraph graph, m', exits'⟩ := by
  obtain ⟨-, m₁, h₁, h⟩ | ⟨hneg, rfl⟩ := StateMachine.initializeResetRun_eq_some h
  · obtain ⟨m₂, h₂, h⟩ := Option.bind_eq_some_iff.mp h
    obtain ⟨l, exits', hrun⟩ := exists_run_of_switchLoop h₂ exits
    refine ⟨l ++ [.startStateTimer], exits', run_cons_eq_some.mpr ⟨_, ?_, run_append hrun ?_⟩⟩
    · rw [step, initializeResetRun_ofGraph, h₁]
      rfl
    · refine run_cons_eq_some.mpr ⟨_, ?_, rfl⟩
      rw [step, startStateTimer_ofGraph, h]
      rfl
  · -- the process timer throws, and nothing is entered
    refine ⟨[], exits, run_cons_eq_some.mpr ⟨_, ?_, rfl⟩⟩
    rw [step, initializeResetRun_ofGraph, StateMachine.resetRun_eq_none_iff.mpr hneg]
    rfl

end Refinement

/-! ### The current state -/

/-- The machine has been started, or the state 0, which is the current one before, is
registered. -/
def Ready (specs : List StateSpec) (s : TransitionRun) : Prop :=
  s.machine.stStateMachineSts.nIsValid = .valid ∨ (StateGraph.registered specs 0).isSome

/-- What `PerformTransition` is to do with an opcode: make the first accepted transition of the
current state with it, if that leads to a registered state that is initialized. -/
structure Performs (specs : List StateSpec) (s : TransitionRun) (opcode : Int16)
    (t : TransitionRun) (moved : Bool) : Prop where
  moved_iff : moved = true ↔ ∃ next, StateGraph.Leads specs s.currentState opcode next
  moves : moved = true → StateGraph.Leads specs s.currentState opcode t.currentState ∧
    t.exits = s.exits ++ [s.currentState]
  stays : moved = false → t.currentState = s.currentState ∧ t.exits = s.exits

/-- What holds in every state: the table is the one that was built, and once there is a state to
go on from, the current state is registered and transitions are made as they are to be. -/
structure Legal (specs : List StateSpec) (s : TransitionRun) : Prop where
  nodeTable : s.nodeTable = .ofGraph (.build specs)
  current : s.Ready specs → (StateGraph.registered specs s.currentState).isSome
  performs : s.Ready specs → ∀ opcode, ∃ t moved,
    s.performTransition opcode = some (t, moved) ∧ s.Performs specs opcode t moved

/-- The first state of an `InitializeResetRun` is registered. -/
def Call.FirstRegistered (specs : List StateSpec) : Call → Prop
  | .initializeResetRun _ nFirstStateToRun =>
    (StateGraph.registered specs nFirstStateToRun).isSome
  | .enterState | .startStateTimer | .performTransition _ => True

/-- An `InitializeResetRun`. -/
def Call.IsReset : Call → Prop
  | .initializeResetRun _ _ => True
  | .enterState | .startStateTimer | .performTransition _ => False

instance (specs : List StateSpec) : DecidablePred (Call.FirstRegistered specs)
  | .initializeResetRun _ _ => inferInstanceAs (Decidable (_ = true))
  | .enterState | .startStateTimer | .performTransition _ => .isTrue trivial

instance : DecidablePred Call.IsReset
  | .initializeResetRun _ _ => .isTrue trivial
  | .enterState | .startStateTimer | .performTransition _ => .isFalse not_false

/-- What holds as soon as the machine is ready. -/
structure Inv (specs : List StateSpec) (s : TransitionRun) : Prop where
  nodeTable : s.nodeTable = .ofGraph (.build specs)
  current : (StateGraph.registered specs s.currentState).isSome

section Steps

variable {specs : List StateSpec} {s t : TransitionRun}

/-- What `PerformTransition` does in a registered state. No state is registered under `-1`, which
stands for a missing transition. -/
theorem performTransition_build (hids : ∀ spec ∈ specs, spec.stateID ≠ -1) {m : StateMachine}
    (hcur : (StateGraph.registered specs m.currentState).isSome) (opcode : Int16) :
    ((¬∃ next, StateGraph.Leads specs m.currentState opcode next) ∧
      m.performTransition (.build specs) opcode = some (m.setLastOpcode opcode, false)) ∨
    ∃ next, StateGraph.Leads specs m.currentState opcode next ∧
      m.performTransition (.build specs) opcode =
        some ((m.setLastOpcode opcode).setCurrentState next, true) := by
  obtain ⟨spec, hspec⟩ := Option.isSome_iff_exists.mp hcur
  have hfind := StateGraph.findTransition_build hspec opcode
  have hnone : StateGraph.registered specs (-1) = none :=
    List.find?_eq_none.mpr fun spec hmem heq => hids spec hmem (of_decide_eq_true heq)
  rw [StateMachine.performTransition, StateGraph.node?_build, hspec, Option.map_some]
  dsimp only
  cases htarget : StateGraph.target specs m.currentState opcode with
  | none =>
    rw [htarget, Option.getD_none] at hfind
    refine .inl ⟨?_, if_pos hfind⟩
    rintro ⟨next, hnext, -⟩
    cases htarget.symm.trans hnext
  | some next =>
    rw [htarget, Option.getD_some] at hfind
    rw [hfind, StateGraph.node?_build]
    cases hnext : StateGraph.registered specs next with
    | none =>
      refine .inl ⟨?_, ite_self _⟩
      rintro ⟨next', htarget', spec', hspec', -⟩
      obtain rfl := Option.some.inj (htarget.symm.trans htarget')
      cases hnext.symm.trans hspec'
    | some spec' =>
      have hne : next ≠ -1 := by
        rintro rfl
        cases hnone.symm.trans hnext
      rw [if_neg hne, Option.map_some]
      dsimp only
      rw [spec'.stateType_node]
      by_cases htype : spec'.stateType = .uninitialized
      · refine .inl ⟨?_, if_pos htype⟩
        rintro ⟨next', htarget', spec'', hspec'', hinit⟩
        obtain rfl := Option.some.inj (htarget.symm.trans htarget')
        obtain rfl := Option.some.inj (hnext.symm.trans hspec'')
        exact hinit htype
      · exact .inr ⟨next, ⟨htarget, spec', hnext, htype⟩, if_neg htype⟩

/-- One call of `PerformTransition`. -/
theorem Inv.performs (hids : ∀ spec ∈ specs, spec.stateID ≠ -1) (h : Inv specs s)
    (opcode : Int16) : ∃ t moved, s.performTransition opcode = some (t, moved) ∧
      s.Performs specs opcode t moved ∧ Inv specs t := by
  obtain ⟨table, m, exits⟩ := s
  obtain ⟨rfl, hcur⟩ := h
  rw [performTransition_ofGraph]
  rcases performTransition_build hids hcur opcode with ⟨hnot, heq⟩ | ⟨next, hleads, heq⟩
  · rw [heq]
    exact ⟨_, _, rfl, ⟨iff_of_false Bool.false_ne_true hnot, fun h => (by cases h),
      fun _ => ⟨rfl, rfl⟩⟩, rfl, hcur⟩
  · rw [heq]
    obtain ⟨-, spec, hspec, -⟩ := id hleads
    exact ⟨_, _, rfl, ⟨iff_of_true rfl ⟨next, hleads⟩, fun _ => ⟨hleads, rfl⟩,
      fun h => (by cases h)⟩, rfl, Option.isSome_iff_exists.mpr ⟨spec, hspec⟩⟩

/-- `InitializeResetRun` makes the first state the current one, whether or not the process timer
throws. -/
theorem currentState_resetRun (m : StateMachine) (nProcessTimeOut nFirstStateToRun : ℤ) :
    ((m.resetRun nProcessTimeOut nFirstStateToRun).getD
      (m.resetThrown nFirstStateToRun)).currentState = nFirstStateToRun := by
  cases hreset : m.resetRun nProcessTimeOut nFirstStateToRun with
  | none => rfl
  | some m' =>
    obtain ⟨m₁, h₁, rfl⟩ := Option.map_eq_some_iff.mp hreset
    rw [StateMachine.startProcessTimer] at h₁
    split_ifs at h₁
    · exact Option.some.inj h₁ ▸ rfl
    · obtain ⟨timer, -, rfl⟩ := Option.map_eq_some_iff.mp h₁
      rfl

theorem exists_startStateTimer {graph : StateGraph} {m : StateMachine} {node : StateNode}
    (hnode : graph.node? m.currentState = some node) :
    ∃ timer, m.startStateTimer graph = some { m with stateTimer := timer } := by
  rw [StateMachine.startStateTimer, hnode]
  by_cases htime : 0 < node.nodeTimeOut
  · have hstart : UtilsTimer.start node.nodeTimeOut = some ⟨node.nodeTimeOut, true⟩ :=
      if_neg (by omega)
    exact ⟨⟨node.nodeTimeOut, true⟩, by simp [htime, hstart]⟩
  · exact ⟨m.stateTimer, by simp [htime]⟩

/-- Every step. -/
theorem Inv.of_step (hids : ∀ spec ∈ specs, spec.stateID ≠ -1) (h : Inv specs s) (a : Call) :
    ∃ t, s.step a = some t ∧ (a.FirstRegistered specs → Inv specs t) := by
  cases a with
  | initializeResetRun nProcessTimeOut nFirstStateToRun =>
    obtain ⟨table, m, exits⟩ := s
    obtain ⟨rfl, -⟩ := h
    refine ⟨_, initializeResetRun_ofGraph _ m exits _ _, fun hfirst => ⟨rfl, ?_⟩⟩
    rw [currentState, currentState_resetRun]
    exact hfirst
  | performTransition opcode =>
    obtain ⟨t, moved, heq, -, hinv⟩ := h.performs hids opcode
    exact ⟨t, by rw [step, heq]; rfl, fun _ => hinv⟩
  | enterState =>
    obtain ⟨table, m, exits⟩ := s
    obtain ⟨rfl, hcur⟩ := h
    obtain ⟨spec, hspec⟩ := Option.isSome_iff_exists.mp hcur
    have henter : m.enterState (.build specs) =
        some (m.markEnd spec.node.stateType).writeStatus := by
      rw [StateMachine.enterState, StateGraph.node?_build]
      exact congrArg _ (congrArg _ hspec)
    refine ⟨_, by rw [step, enterState_ofGraph, henter]; rfl, fun _ => ⟨rfl, ?_⟩⟩
    rw [currentState, StateMachine.currentState_writeStatus, StateMachine.currentState_markEnd]
    exact hcur
  | startStateTimer =>
    obtain ⟨table, m, exits⟩ := s
    obtain ⟨rfl, hcur⟩ := h
    obtain ⟨spec, hspec⟩ := Option.isSome_iff_exists.mp hcur
    have hnode : (StateGraph.build specs).node? m.currentState = some spec.node := by
      rw [StateGraph.node?_build]
      exact congrArg _ hspec
    obtain ⟨timer, htimer⟩ := exists_startStateTimer hnode
    refine ⟨⟨.ofGraph (.build specs), { m with stateTimer := timer }, exits⟩, ?_,
      fun _ => ⟨rfl, hcur⟩⟩
    rw [step, startStateTimer_ofGraph, htimer]
    rfl

theorem Inv.legal (hids : ∀ spec ∈ specs, spec.stateID ≠ -1) (h : Inv specs s) :
    Legal specs s where
  nodeTable := h.nodeTable
  current _ := h.current
  performs _ opcode := by
    obtain ⟨t, moved, heq, hperforms, -⟩ := h.performs hids opcode
    exact ⟨t, moved, heq, hperforms⟩

/-- A run from a state that is ready. -/
theorem Inv.run (hids : ∀ spec ∈ specs, spec.stateID ≠ -1) (h : Inv specs s) {l : List Call}
    (hfirst : ∀ a ∈ l, a.FirstRegistered specs) :
    (∃ t, run step s l = some t) ∧ Always step (Legal specs) s l := by
  have hguard : Guarded step (fun _ a => a.FirstRegistered specs) s l :=
    .of_forall (fun a ha _ => hfirst a ha) s
  have hstep (s : TransitionRun) (a : Call) (t : TransitionRun) (h : Inv specs s)
      (ha : a.FirstRegistered specs) (ht : s.step a = some t) : Inv specs t := by
    obtain ⟨t', ht', hinv⟩ := h.of_step hids a
    obtain rfl := Option.some.inj (ht.symm.trans ht')
    exact hinv ha
  constructor
  · exact hguard.exists_run (fun s a h => (h.of_step hids a).imp fun t ht => ht.1) hstep h
  · intro l' t hl' ht
    exact (hguard.always hstep h l' t hl' ht).legal hids

end Steps

/-- **Transitions.** For every graph that is built by `AddState` and `AddTransition`, with no state
under `-1`, and every run in which each `InitializeResetRun` names a registered state: if it
begins with an `InitializeResetRun`, or a state 0 is registered, then no null pointer is called
through, the table of states stays as it was built, and from the first `InitializeResetRun` on
(from the start, if a state 0 is registered) the current state is registered and
`PerformTransition` makes the first accepted transition with its opcode if that leads to a
registered state that is initialized, and none otherwise. -/
theorem legal_of_run (specs : List StateSpec) (hids : ∀ spec ∈ specs, spec.stateID ≠ -1)
    (hasRow : Bool) (l : List Call) (hfirst : ∀ a ∈ l, a.FirstRegistered specs)
    (hready : (∀ a ∈ l.head?, a.IsReset) ∨ (StateGraph.registered specs 0).isSome) :
    (∃ t, run step (init (.build specs) hasRow) l = some t) ∧
      Always step (Legal specs) (init (.build specs) hasRow) l := by
  cases hzero : (StateGraph.registered specs 0).isSome with
  | true =>
    have hinv : Inv specs (init (.build specs) hasRow) := ⟨rfl, hzero⟩
    exact hinv.run hids hfirst
  | false =>
    have hlegal : Legal specs (init (.build specs) hasRow) := by
      have hnot : ¬ (init (.build specs) hasRow).Ready specs := by
        rintro (h | h)
        · cases h
        · cases hzero.symm.trans h
      exact ⟨rfl, fun h => absurd h hnot, fun h => absurd h hnot⟩
    cases l with
    | nil => exact ⟨⟨_, rfl⟩, always_nil.mpr hlegal⟩
    | cons a l =>
      have hreset : a.IsReset := hready.elim (fun h => h a rfl) fun h => by
        cases hzero.symm.trans h
      obtain ⟨nProcessTimeOut, nFirstStateToRun, rfl⟩ :
          ∃ t f, a = .initializeResetRun t f := by
        cases a with
        | initializeResetRun t f => exact ⟨t, f, rfl⟩
        | enterState | startStateTimer | performTransition => cases hreset
      -- The first call makes the machine ready.
      have hstart := initializeResetRun_ofGraph (.build specs) (.new hasRow) []
        nProcessTimeOut nFirstStateToRun
      have hinv : Inv specs ⟨.ofGraph (.build specs),
          ((StateMachine.new hasRow).resetRun nProcessTimeOut nFirstStateToRun).getD
            ((StateMachine.new hasRow).resetThrown nFirstStateToRun), []⟩ := by
        refine ⟨rfl, ?_⟩
        rw [currentState, currentState_resetRun]
        exact hfirst _ List.mem_cons_self
      obtain ⟨⟨t, ht⟩, halways⟩ := hinv.run hids fun a ha => hfirst a (List.mem_cons_of_mem _ ha)
      refine ⟨⟨t, run_cons_eq_some.mpr ⟨_, hstart, ht⟩⟩, always_cons.mpr ⟨hlegal, fun u hu => ?_⟩⟩
      obtain rfl := Option.some.inj (hstart.symm.trans hu)
      exact halways

/-- State `1`, with two transitions for one opcode and one to `-1`, and the end state `2`. -/
def sampleSpecs : List StateSpec :=
  [⟨1, .default, 100, [⟨7, 2⟩, ⟨7, 1⟩, ⟨8, -1⟩]⟩, ⟨2, .endSuccess, 0, []⟩]

/-- A run to the end state, with an opcode that leads nowhere. -/
theorem legal_of_run_sample :
    (∃ t, run step (init (.build sampleSpecs) true) [.initializeResetRun 1000 1, .enterState,
        .performTransition 8, .performTransition 7, .enterState, .startStateTimer] = some t) ∧
      Always step (Legal sampleSpecs) (init (.build sampleSpecs) true)
        [.initializeResetRun 1000 1, .enterState, .performTransition 8, .performTransition 7,
          .enterState, .startStateTimer] :=
  legal_of_run sampleSpecs (by decide) true _ (by decide) (.inl (by decide))

/-- Before the first `InitializeResetRun` the current state is 0. If it is not registered,
`PerformTransition` calls through a null pointer. -/
theorem performTransition_before_start :
    (StateGraph.registered sampleSpecs
        (init (.build sampleSpecs) true).currentState).isSome = false ∧
      run step (init (.build sampleSpecs) true) [.performTransition 7] = none := by
  constructor
  · decide
  · rw [run, step, init, performTransition_ofGraph, StateMachine.performTransition,
      StateGraph.node?_build]
    rfl

end TransitionRun

end UtilityFramework
