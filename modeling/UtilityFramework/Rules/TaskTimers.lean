import Mathlib.Data.List.AList
import Mathlib.Data.List.Induction
import Mathlib.Logic.Function.Iterate
import UtilityFramework.Lib.Transition

/-!
# The timers of delayed rule tasks

A rule has a vector of tasks for either result of its condition. An evaluation first cancels
the timers of the delayed tasks (those with a timeout other than zero) of both vectors, and
then goes through the vector of the result: a delayed task gets a timer that is invoked once,
the others are performed at once. The token of the timer is kept in
`m_subscription_task_timer_tokens` under the ids of the rule and of the task, where it stays
when the timer has expired, until it is overwritten or the rule is disabled. Tasks of the two
vectors have the same ids.

Tokens are the client ids of the context, taken from a counter that all contexts of the process
share and that starts again from zero when it reaches the largest `int`. A timer that is
invoked a given number of times is an object of its own with one client, so the state below is
the list of these clients, each with the task it performs; which of them expires next is left
open. `history` records what has happened, and `outstanding` says which tasks of a rule should
be waiting after it.
-/

namespace UtilityFramework

open Transition

/-! ### Rules and their tasks -/

/-- `task_struct`, without the function that performs the task. -/
structure TaskStruct where
  ruleId : ℕ
  taskId : ℕ
  executionTimeoutInterval : ℕ

/-- A rule, with the timeouts of its tasks for either result. -/
structure TimedRule where
  id : ℕ
  trueTasks : List ℕ
  falseTasks : List ℕ
  deriving DecidableEq

/-- `parse_true_false_tasks` numbers the tasks of a vector from zero. -/
def parseTrueFalseTasks (ruleId : ℕ) (timeouts : List ℕ) : List TaskStruct :=
  timeouts.zipIdx.map fun task => ⟨ruleId, task.2, task.1⟩

def TimedRule.tasks (rule : TimedRule) (result : Bool) : List TaskStruct :=
  parseTrueFalseTasks rule.id (if result then rule.trueTasks else rule.falseTasks)

def TaskStruct.delayed (task : TaskStruct) : Bool :=
  task.executionTimeoutInterval ≠ 0

/-- The ids of the delayed tasks for a result. -/
def TimedRule.delayedTasks (rule : TimedRule) (result : Bool) : List ℕ :=
  ((rule.tasks result).filter TaskStruct.delayed).map TaskStruct.taskId

theorem TimedRule.ruleId_of_mem_tasks (rule : TimedRule) (result : Bool) {task : TaskStruct}
    (h : task ∈ rule.tasks result) : task.ruleId = rule.id := by
  obtain ⟨_, -, rfl⟩ := List.mem_map.mp h
  rfl

theorem TimedRule.nodup_taskIds (rule : TimedRule) (result : Bool) :
    ((rule.tasks result).map TaskStruct.taskId).Nodup := by
  have hids (timeouts : List ℕ) :
      (parseTrueFalseTasks rule.id timeouts).map TaskStruct.taskId =
        List.range' 0 timeouts.length := by
    rw [parseTrueFalseTasks, List.map_map, ← List.zipIdx_map_snd 0 timeouts]
    rfl
  rw [TimedRule.tasks, hids]
  exact List.nodup_range'

theorem TimedRule.nodup_delayedTasks (rule : TimedRule) (result : Bool) :
    (rule.delayedTasks result).Nodup :=
  (rule.nodup_taskIds result).sublist (List.filter_sublist.map _)

/-! ### Timers and tokens -/

/-- A timer that has not expired. -/
structure TaskTimer where
  token : ℕ
  ruleId : ℕ
  taskId : ℕ
  deriving DecidableEq

inductive RuleEvent
  | evaluated (ruleId : ℕ) (result : Bool)
  | expired (ruleId taskId : ℕ)
  | disabled (ruleId : ℕ)

/-- What the rules dispatcher and its context hold of timers. `none` among the tokens of a rule
is the token `timer_token_undefined` of a default entry. -/
structure TaskTimers where
  nextId : ℕ
  timers : List TaskTimer
  tokens : ℕ → Option (AList fun _ : ℕ => Option ℕ)
  history : List RuleEvent

/-- `get_next_client_id` increments the counter and starts again from zero when it is the
largest `int`. -/
def nextClientId (id : ℕ) : ℕ :=
  if id + 1 = 2147483647 then 0 else id + 1

/-- The ids handed out to `n` clients one after the other. -/
def clientIds (id : ℕ) : ℕ → List ℕ
  | 0 => []
  | n + 1 => id :: clientIds (nextClientId id) n

namespace TaskTimers

def init (nextId : ℕ) : TaskTimers where
  nextId := nextId
  timers := []
  tokens := fun _ => none
  history := []

def registerForTimer (s : TaskTimers) (task : TaskStruct) : TaskTimers :=
  { s with
    nextId := nextClientId s.nextId
    timers := s.timers ++ [⟨s.nextId, task.ruleId, task.taskId⟩]
    tokens := Function.update s.tokens task.ruleId
      (some (((s.tokens task.ruleId).getD ∅).insert task.taskId (some s.nextId))) }

/-- `unregister_timer` removes the clients with the id. -/
def unregisterTimer (s : TaskTimers) : Option ℕ → TaskTimers × Bool
  | none => (s, false)
  | some token =>
    ({ s with timers := s.timers.filter (·.token ≠ token) }, s.timers.any (·.token = token))

def unregisterForTimer (s : TaskTimers) (task : TaskStruct) : TaskTimers × Bool :=
  match s.tokens task.ruleId with
  | none => (s, false)
  | some tokens =>
    match tokens.lookup task.taskId with
    | some token => s.unregisterTimer token
    -- `operator[]` leaves a default entry behind
    | none =>
      { s with
        tokens := Function.update s.tokens task.ruleId
          (some (tokens.insert task.taskId none)) }.unregisterTimer none

def cancelTaskTimers (s : TaskTimers) (tasks : List TaskStruct) : TaskTimers :=
  tasks.foldl (fun s task => if task.delayed then (s.unregisterForTimer task).1 else s) s

/-- The tasks without delay are performed at once and leave the timers alone. -/
def performTask (s : TaskTimers) (tasks : List TaskStruct) : TaskTimers :=
  tasks.foldl (fun s task => if task.delayed then s.registerForTimer task else s) s

/-- `evaluate`, when the condition of the rule gives `result`. -/
def evaluate (s : TaskTimers) (rule : TimedRule) (result : Bool) : TaskTimers :=
  ((s.cancelTaskTimers (rule.tasks true)).cancelTaskTimers (rule.tasks false)).performTask
    (rule.tasks result)

/-- The loop of `unsubscribe_rule_tasks_timers`; it goes through all entries, and the result
says whether all had a timer. -/
def unregisterTimers (s : TaskTimers) : List (Sigma fun _ : ℕ => Option ℕ) → TaskTimers × Bool
  | [] => (s, true)
  | entry :: entries =>
    let u := s.unregisterTimer entry.2
    let r := u.1.unregisterTimers entries
    (r.1, u.2 && r.2)

def clearTokens (s : TaskTimers) (ruleId : ℕ) : TaskTimers :=
  { s with tokens := Function.update s.tokens ruleId (some ∅) }

def unsubscribeRuleTasksTimers (s : TaskTimers) (ruleId : ℕ) : TaskTimers × Bool :=
  let tokens := (s.tokens ruleId).getD ∅
  if tokens.entries = [] then (s.clearTokens ruleId, false)
  else
    let r := s.unregisterTimers tokens.entries
    (r.1.clearTokens ruleId, r.2)

end TaskTimers

/-- An evaluation of a rule, the expiry of a timer, a notification that disables a rule, and
registrations of clients elsewhere in the process. -/
inductive TaskTimerStep
  | evaluate (rule : TimedRule) (result : Bool)
  | expire (timer : TaskTimer)
  | disable (rule : TimedRule)
  | others (n : ℕ)

namespace TaskTimers

/-- One step of the rules in `rules`. -/
def step (rules : List TimedRule) (s : TaskTimers) : TaskTimerStep → Option TaskTimers
  | .evaluate rule result =>
    if rule ∈ rules then
      some { s.evaluate rule result with
        history := s.history ++ [.evaluated rule.id result] }
    else none
  | .expire timer =>
    if timer ∈ s.timers then
      some { s with
        timers := s.timers.erase timer
        history := s.history ++ [.expired timer.ruleId timer.taskId] }
    else none
  | .disable rule =>
    if rule ∈ rules then
      some { (s.unsubscribeRuleTasksTimers rule.id).1 with
        history := s.history ++ [.disabled rule.id] }
    else none
  | .others n => some { s with nextId := (s.nextId + n) % 2147483647 }

/-! ### What should be waiting -/

/-- What an event does to the tasks of a rule that are waiting: an evaluation replaces them by
the delayed tasks for its result, an expiry removes one, a notification that disables the rule
removes all. -/
def outstandingAfter (rule : TimedRule) (waiting : List ℕ) : RuleEvent → List ℕ
  | .evaluated id result => if id = rule.id then rule.delayedTasks result else waiting
  | .expired id task => if id = rule.id then waiting.erase task else waiting
  | .disabled id => if id = rule.id then [] else waiting

/-- The tasks of a rule that should be waiting after some events. -/
def outstanding (rule : TimedRule) (history : List RuleEvent) : List ℕ :=
  history.foldl (outstandingAfter rule) []

/-- The timers of a rule. -/
def timersOf (s : TaskTimers) (ruleId : ℕ) : List TaskTimer :=
  s.timers.filter (·.ruleId = ruleId)

/-- The timers of every rule are those of the tasks that should be waiting. -/
def Exact (rules : List TimedRule) (s : TaskTimers) : Prop :=
  ∀ rule ∈ rules, (s.timersOf rule.id).map TaskTimer.taskId = outstanding rule s.history

/-- Evaluating or disabling a rule would leave the timers of the other rules alone. -/
def Separate (rules : List TimedRule) (s : TaskTimers) : Prop :=
  ∀ rule ∈ rules, ∀ id ≠ rule.id,
    (∀ result, (s.evaluate rule result).timersOf id = s.timersOf id) ∧
      (s.unsubscribeRuleTasksTimers rule.id).1.timersOf id = s.timersOf id

/-- The token recorded for a task, unless there is none or it is undefined. -/
def token (s : TaskTimers) (ruleId taskId : ℕ) : Option ℕ :=
  ((s.tokens ruleId).bind fun tokens => tokens.lookup taskId).join

/-- No id that an evaluation takes from the counter is recorded for another rule. -/
def Fresh (s : TaskTimers) : TaskTimerStep → Prop
  | .evaluate rule result =>
    ∀ id ∈ clientIds s.nextId (rule.delayedTasks result).length,
      ∀ other ≠ rule.id, ∀ task, s.token other task ≠ some id
  | _ => True

end TaskTimers

end UtilityFramework
