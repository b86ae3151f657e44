import UtilityFramework.Rules.TaskTimers

/-!
# The timers of a rule are those of its latest evaluation

The timers of a rule and the tokens recorded for it are linked (`TaskTimers.Linked`): the token of
a task is that of its timer, as long as the timer has not expired. An evaluation that takes no
client id recorded for another rule therefore cancels the timers of its own rule and no others.
-/

namespace UtilityFramework

open Transition

namespace TaskTimers

/-! ### What the operations do -/

variable {s : TaskTimers}

@[simp] theorem token_registerForTimer (task : TaskStruct) (id k : ℕ) :
    (s.registerForTimer task).token id k =
      if id = task.ruleId ∧ k = task.taskId then some s.nextId else s.token id k := by
  by_cases hid : id = task.ruleId
  · subst hid
    by_cases hk : k = task.taskId
    · subst hk
      simp [token, registerForTimer]
    · -- a rule without tokens is given an empty map first
      have hlookup : ((s.tokens task.ruleId).getD ∅).lookup k =
          (s.tokens task.ruleId).bind fun tokens => tokens.lookup k := by
        cases s.tokens task.ruleId <;> rfl
      simp [token, registerForTimer, hk, AList.lookup_insert_ne hk, hlookup]
  · simp [token, registerForTimer, hid]

theorem mem_timers_registerForTimer {task : TaskStruct} {timer : TaskTimer} :
    timer ∈ (s.registerForTimer task).timers ↔
      timer ∈ s.timers ∨ timer = ⟨s.nextId, task.ruleId, task.taskId⟩ := by
  rw [registerForTimer, List.mem_append, List.mem_singleton]

theorem unregisterTimer_timers (token : Option ℕ) :
    (s.unregisterTimer token).1.timers = s.timers.filter (token ≠ some ·.token) := by
  cases token with
  | none => simp [unregisterTimer]
  | some token =>
    rw [unregisterTimer]
    refine List.filter_congr fun timer _ => ?_
    simp [eq_comm]

@[simp] theorem unregisterTimer_tokens (token : Option ℕ) :
    (s.unregisterTimer token).1.tokens = s.tokens := by
  cases token <;> rfl

/-- `unregister_for_timer` removes the timers with the token recorded for the task, and no
recorded token changes. -/
theorem unregisterForTimer_spec (task : TaskStruct) :
    (s.unregisterForTimer task).1.timers =
        s.timers.filter (s.token task.ruleId task.taskId ≠ some ·.token) ∧
      ∀ id k, (s.unregisterForTimer task).1.token id k = s.token id k := by
  rw [unregisterForTimer]
  split
  · rename_i hnone
    have htoken : s.token task.ruleId task.taskId = none := by simp [token, hnone]
    simp [htoken]
  · rename_i tokens htokens
    split
    · rename_i token hlookup
      have htoken : s.token task.ruleId task.taskId = token := by
        simp [TaskTimers.token, htokens, hlookup]
      refine ⟨by rw [unregisterTimer_timers, htoken], fun id k => ?_⟩
      rw [TaskTimers.token, unregisterTimer_tokens, TaskTimers.token]
    · rename_i hlookup
      have htoken : s.token task.ruleId task.taskId = none := by
        simp [token, htokens, hlookup]
      refine ⟨by simp [unregisterTimer, htoken], fun id k => ?_⟩
      -- the default entry has no token
      by_cases hid : id = task.ruleId
      · subst hid
        by_cases hk : k = task.taskId
        · subst hk
          simp [token, unregisterTimer, htokens, hlookup]
        · simp [token, unregisterTimer, htokens, AList.lookup_insert_ne hk]
      · simp [token, unregisterTimer, hid]

/-- `cancel_task_timers` removes the timers with a token recorded for a delayed task. -/
theorem cancelTaskTimers_spec (tasks : List TaskStruct) :
    (s.cancelTaskTimers tasks).timers = s.timers.filter (fun timer =>
        ∀ task ∈ tasks, task.delayed → s.token task.ruleId task.taskId ≠ some timer.token) ∧
      ∀ id k, (s.cancelTaskTimers tasks).token id k = s.token id k := by
  induction tasks generalizing s with
  | nil => simp [cancelTaskTimers]
  | cons task tasks ih =>
    obtain ⟨htimers, htoken⟩ :=
      ih (s := if task.delayed then (s.unregisterForTimer task).1 else s)
    have hunfold : s.cancelTaskTimers (task :: tasks) =
        (if task.delayed then (s.unregisterForTimer task).1 else s).cancelTaskTimers tasks := rfl
    rw [hunfold]
    obtain ⟨htimers', htoken'⟩ := unregisterForTimer_spec (s := s) task
    by_cases hdelayed : task.delayed
    · rw [if_pos hdelayed] at htimers htoken ⊢
      refine ⟨?_, fun id k => (htoken id k).trans (htoken' id k)⟩
      rw [htimers, htimers', List.filter_filter]
      refine List.filter_congr fun timer _ => ?_
      simp [htoken', hdelayed, Bool.and_comm]
    · rw [if_neg hdelayed] at htimers htoken ⊢
      refine ⟨?_, htoken⟩
      rw [htimers]
      refine List.filter_congr fun timer _ => ?_
      simp [hdelayed]

theorem unregisterTimers_spec (entries : List (Sigma fun _ : ℕ => Option ℕ)) :
    (s.unregisterTimers entries).1.timers =
        s.timers.filter (fun timer => ∀ entry ∈ entries, entry.2 ≠ some timer.token) ∧
      (s.unregisterTimers entries).1.tokens = s.tokens := by
  induction entries generalizing s with
  | nil => simp [unregisterTimers]
  | cons entry entries ih =>
    obtain ⟨htimers, htokens⟩ := ih (s := (s.unregisterTimer entry.2).1)
    refine ⟨htimers.trans ?_, htokens.trans (unregisterTimer_tokens _)⟩
    rw [unregisterTimer_timers, List.filter_filter]
    refine List.filter_congr fun timer _ => ?_
    simp [Bool.and_comm]

/-- `unsubscribe_rule_tasks_timers` removes the timers with a token recorded for the rule, and
forgets these tokens. -/
theorem unsubscribeRuleTasksTimers_spec (ruleId : ℕ) :
    (s.unsubscribeRuleTasksTimers ruleId).1.timers =
        s.timers.filter (fun timer => ∀ entry ∈ ((s.tokens ruleId).getD ∅).entries,
          entry.2 ≠ some timer.token) ∧
      (s.unsubscribeRuleTasksTimers ruleId).1.tokens =
        Function.update s.tokens ruleId (some ∅) := by
  obtain ⟨htimers, htokens⟩ :=
    unregisterTimers_spec (s := s) ((s.tokens ruleId).getD ∅).entries
  rw [unsubscribeRuleTasksTimers]
  split
  · rename_i hnil
    simp [hnil, clearTokens]
  · exact ⟨htimers, by simp [clearTokens, htokens]⟩

/-- A token is recorded for the rule precisely when it is the token of an entry. -/
theorem exists_entry_iff (ruleId token : ℕ) :
    (∃ entry ∈ ((s.tokens ruleId).getD ∅).entries, entry.2 = some token) ↔
      ∃ k, s.token ruleId k = some token := by
  constructor
  · rintro ⟨⟨k, value⟩, hmem, rfl⟩
    have hlookup : ((s.tokens ruleId).getD ∅).lookup k = some (some token) :=
      AList.mem_lookup_iff.mpr hmem
    refine ⟨k, ?_⟩
    cases htokens : s.tokens ruleId with
    | none => simp [htokens] at hlookup
    | some tokens =>
      rw [htokens, Option.getD_some] at hlookup
      simp [TaskTimers.token, htokens, hlookup]
  · rintro ⟨k, hk⟩
    cases htokens : s.tokens ruleId with
    | none => simp [TaskTimers.token, htokens] at hk
    | some tokens =>
      simp only [TaskTimers.token, htokens, Option.bind_some, Option.join_eq_some_iff] at hk
      exact ⟨⟨k, some token⟩, AList.mem_lookup_iff.mp hk, rfl⟩

theorem token_unsubscribe (ruleId id k : ℕ) :
    (s.unsubscribeRuleTasksTimers ruleId).1.token id k =
      if id = ruleId then none else s.token id k := by
  rw [TaskTimers.token, (unsubscribeRuleTasksTimers_spec ruleId).2]
  by_cases hid : id = ruleId
  · subst hid
    simp
  · simp [TaskTimers.token, hid]

/-- The timers that disabling a rule leaves. -/
theorem mem_timers_unsubscribe {ruleId : ℕ} {timer : TaskTimer} :
    timer ∈ (s.unsubscribeRuleTasksTimers ruleId).1.timers ↔
      timer ∈ s.timers ∧ ∀ k, s.token ruleId k ≠ some timer.token := by
  have hiff : (∀ entry ∈ ((s.tokens ruleId).getD ∅).entries, entry.2 ≠ some timer.token) ↔
      ∀ k, s.token ruleId k ≠ some timer.token := by
    have hnot := not_congr (exists_entry_iff (s := s) ruleId timer.token)
    push Not at hnot
    exact hnot
  rw [(unsubscribeRuleTasksTimers_spec ruleId).1, List.mem_filter, decide_eq_true_iff, hiff]

/-! ### Timers and the tokens recorded for them -/

/-- The token of a timer is recorded for its task, and for no other rule. -/
structure Linked (s : TaskTimers) : Prop where
  recorded : ∀ timer ∈ s.timers, s.token timer.ruleId timer.taskId = some timer.token
  apart : ∀ timer ∈ s.timers, ∀ id ≠ timer.ruleId, ∀ k, s.token id k ≠ some timer.token

/-- A task whose timer is not running gets one, with an id that is recorded for no other rule. -/
theorem Linked.registerForTimer (h : s.Linked) {task : TaskStruct}
    (hnew : ∀ timer ∈ s.timers, timer.ruleId = task.ruleId → timer.taskId ≠ task.taskId)
    (hfresh : ∀ id ≠ task.ruleId, ∀ k, s.token id k ≠ some s.nextId) :
    (s.registerForTimer task).Linked := by
  constructor
  · intro timer ht
    rw [token_registerForTimer]
    rcases mem_timers_registerForTimer.mp ht with hold | rfl
    · rw [if_neg fun hsame => hnew timer hold hsame.1 hsame.2]
      exact h.recorded timer hold
    · rw [if_pos ⟨rfl, rfl⟩]
  · intro timer ht id hid k
    rw [token_registerForTimer]
    rcases mem_timers_registerForTimer.mp ht with hold | rfl
    · split
      · rename_i hsame
        -- the timer is one of another rule, whose token is recorded there
        intro heq
        have hrecorded := h.recorded timer hold
        rw [← heq] at hrecorded
        exact hfresh timer.ruleId (fun hrule => hid (hsame.1.trans hrule.symm)) _ hrecorded
      · exact h.apart timer hold id hid k
    · rw [if_neg fun hsame => hid hsame.1]
      exact hfresh id hid k

/-- Fewer timers, with the same tokens. -/
theorem Linked.sublist {t : TaskTimers} (h : s.Linked) (htimers : ∀ x ∈ t.timers, x ∈ s.timers)
    (htoken : ∀ id k, t.token id k = s.token id k) : t.Linked where
  recorded timer ht := by rw [htoken]; exact h.recorded timer (htimers timer ht)
  apart timer ht id hid k := by rw [htoken]; exact h.apart timer (htimers timer ht) id hid k

/-! ### One step -/

theorem outstanding_concat (rule : TimedRule) (history : List RuleEvent) (event : RuleEvent) :
    outstanding rule (history ++ [event]) =
      outstandingAfter rule (outstanding rule history) event :=
  List.foldl_concat ..

/-- What should be waiting are delayed tasks for a result, each once. -/
theorem outstanding_subset (rule : TimedRule) (history : List RuleEvent) :
    (outstanding rule history).Nodup ∧
      ∀ k ∈ outstanding rule history, ∃ result, k ∈ rule.delayedTasks result := by
  induction history using List.reverseRecOn with
  | nil => exact ⟨List.nodup_nil, fun k hk => absurd hk List.not_mem_nil⟩
  | append_singleton history event ih =>
    rw [outstanding_concat]
    obtain ⟨hnodup, hsubset⟩ := ih
    cases event with
    | evaluated id result =>
      simp only [outstandingAfter]
      split
      · exact ⟨rule.nodup_delayedTasks result, fun k hk => ⟨result, hk⟩⟩
      · exact ⟨hnodup, hsubset⟩
    | expired id task =>
      simp only [outstandingAfter]
      split
      · exact ⟨hnodup.erase task, fun k hk => hsubset k (List.mem_of_mem_erase hk)⟩
      · exact ⟨hnodup, hsubset⟩
    | disabled id =>
      simp only [outstandingAfter]
      split
      · exact ⟨List.nodup_nil, fun k hk => absurd hk List.not_mem_nil⟩
      · exact ⟨hnodup, hsubset⟩

theorem mem_timersOf {id : ℕ} {timer : TaskTimer} :
    timer ∈ s.timersOf id ↔ timer ∈ s.timers ∧ timer.ruleId = id := by
  rw [timersOf, List.mem_filter, decide_eq_true_iff]

@[simp] theorem unregisterForTimer_nextId (task : TaskStruct) :
    (s.unregisterForTimer task).1.nextId = s.nextId := by
  rw [unregisterForTimer]
  split
  · rfl
  · split
    · rename_i token _
      cases token <;> rfl
    · rfl

@[simp] theorem cancelTaskTimers_nextId (tasks : List TaskStruct) :
    (s.cancelTaskTimers tasks).nextId = s.nextId := by
  induction tasks generalizing s with
  | nil => rfl
  | cons task tasks ih =>
    have hhead : (if task.delayed then (s.unregisterForTimer task).1 else s).nextId =
        s.nextId := by
      split
      · exact unregisterForTimer_nextId task
      · rfl
    exact ih.trans hhead

/-- The state in which an evaluation performs the tasks for its result. -/
def cancelled (s : TaskTimers) (rule : TimedRule) : TaskTimers :=
  (s.cancelTaskTimers (rule.tasks true)).cancelTaskTimers (rule.tasks false)

theorem cancelled_token (rule : TimedRule) (id k : ℕ) :
    (s.cancelled rule).token id k = s.token id k := by
  rw [cancelled, (cancelTaskTimers_spec _).2, (cancelTaskTimers_spec _).2]

@[simp] theorem cancelled_nextId (rule : TimedRule) : (s.cancelled rule).nextId = s.nextId := by
  rw [cancelled, cancelTaskTimers_nextId, cancelTaskTimers_nextId]

/-- An evaluation cancels the timers with a token recorded for a delayed task of the rule. -/
theorem cancelled_timers (rule : TimedRule) :
    (s.cancelled rule).timers = s.timers.filter (fun timer =>
      ∀ result, ∀ k ∈ rule.delayedTasks result, s.token rule.id k ≠ some timer.token) := by
  have htask (result : Bool) (timer : TaskTimer) :
      (∀ task ∈ rule.tasks result, task.delayed →
          s.token task.ruleId task.taskId ≠ some timer.token) ↔
        ∀ k ∈ rule.delayedTasks result, s.token rule.id k ≠ some timer.token := by
    constructor
    · intro h k hk
      obtain ⟨task, htask, rfl⟩ := List.mem_map.mp hk
      obtain ⟨hmem, hdelayed⟩ := List.mem_filter.mp htask
      rw [← rule.ruleId_of_mem_tasks _ hmem]
      exact h task hmem hdelayed
    · intro h task hmem hdelayed
      rw [rule.ruleId_of_mem_tasks _ hmem]
      exact h _ (List.mem_map_of_mem (List.mem_filter.mpr ⟨hmem, hdelayed⟩))
  rw [cancelled, (cancelTaskTimers_spec _).1, (cancelTaskTimers_spec _).1, List.filter_filter]
  refine List.filter_congr fun timer _ => ?_
  simp only [(cancelTaskTimers_spec (s := s) (rule.tasks true)).2, htask, Bool.forall_bool]
  rw [Bool.decide_and]

/-- The timers of the rule are gone, when they are timers of delayed tasks, and those of other
rules are still there. -/
theorem Linked.timersOf_cancelled (h : s.Linked) {rule : TimedRule}
    (hdelayed : ∀ timer ∈ s.timersOf rule.id, ∃ result,
      timer.taskId ∈ rule.delayedTasks result) (id : ℕ) :
    (s.cancelled rule).timersOf id = if id = rule.id then [] else s.timersOf id := by
  rw [timersOf, cancelled_timers, List.filter_filter]
  split
  · rename_i hid
    subst hid
    rw [List.filter_eq_nil_iff]
    intro timer htimer
    simp only [Bool.and_eq_true, decide_eq_true_eq, not_and]
    intro hrule hall
    obtain ⟨result, hk⟩ := hdelayed timer (mem_timersOf.mpr ⟨htimer, hrule⟩)
    have hrecorded := h.recorded timer htimer
    rw [hrule] at hrecorded
    exact hall result timer.taskId hk hrecorded
  · rename_i hid
    refine List.filter_congr fun timer htimer => ?_
    simp only [Bool.and_eq_left_iff_imp, decide_eq_true_eq]
    intro hrule result k _
    exact h.apart timer htimer rule.id (fun heq => hid (hrule.symm.trans heq.symm)) k

theorem performTask_cons (task : TaskStruct) (tasks : List TaskStruct) :
    s.performTask (task :: tasks) =
      (if task.delayed then s.registerForTimer task else s).performTask tasks := rfl

/-- The timers that the tasks of a vector get are appended. -/
theorem timersOf_performTask {tasks : List TaskStruct} {ruleId : ℕ}
    (hrule : ∀ task ∈ tasks, task.ruleId = ruleId) :
    ((s.performTask tasks).timersOf ruleId).map TaskTimer.taskId =
        (s.timersOf ruleId).map TaskTimer.taskId ++
          (tasks.filter TaskStruct.delayed).map TaskStruct.taskId ∧
      ∀ id ≠ ruleId, (s.performTask tasks).timersOf id = s.timersOf id := by
  induction tasks generalizing s with
  | nil => simp [performTask]
  | cons task tasks ih =>
    have htask : task.ruleId = ruleId := hrule task List.mem_cons_self
    obtain ⟨hown, hothers⟩ := ih (s := if task.delayed then s.registerForTimer task else s)
      fun task ht => hrule task (List.mem_cons_of_mem _ ht)
    rw [performTask_cons]
    by_cases hdelayed : task.delayed
    · rw [if_pos hdelayed] at hown hothers ⊢
      constructor
      · rw [hown, List.filter_cons_of_pos hdelayed]
        simp [timersOf, registerForTimer, htask]
      · intro id hid
        rw [hothers id hid]
        have hne : ruleId ≠ id := fun heq => hid heq.symm
        simp [timersOf, registerForTimer, htask, hne]
    · rw [if_neg hdelayed] at hown hothers ⊢
      exact ⟨by rw [hown, List.filter_cons_of_neg hdelayed], hothers⟩

/-- The tokens of the new timers are recorded. -/
theorem Linked.performTask (h : s.Linked) (tasks : List TaskStruct) (ruleId : ℕ)
    (hrule : ∀ task ∈ tasks, task.ruleId = ruleId)
    (hnodup : (tasks.map TaskStruct.taskId).Nodup)
    (hnew : ∀ timer ∈ s.timers, timer.ruleId = ruleId →
      timer.taskId ∉ tasks.map TaskStruct.taskId)
    (hfresh : ∀ token ∈ clientIds s.nextId (tasks.filter TaskStruct.delayed).length,
      ∀ id ≠ ruleId, ∀ k, s.token id k ≠ some token) : (s.performTask tasks).Linked := by
  induction tasks generalizing s with
  | nil => exact h
  | cons task tasks ih =>
    have htask : task.ruleId = ruleId := hrule task List.mem_cons_self
    have hrule' : ∀ task ∈ tasks, task.ruleId = ruleId :=
      fun task ht => hrule task (List.mem_cons_of_mem _ ht)
    obtain ⟨hnotMem, hnodup'⟩ := List.nodup_cons.mp hnodup
    rw [performTask_cons]
    by_cases hdelayed : task.delayed
    · rw [if_pos hdelayed]
      rw [List.filter_cons_of_pos hdelayed, List.length_cons, clientIds] at hfresh
      have hlinked : (s.registerForTimer task).Linked := by
        refine h.registerForTimer (fun timer ht hr heq => ?_) fun id hid k => ?_
        · refine hnew timer ht (hr.trans htask) ?_
          rw [heq]
          exact List.mem_cons_self
        · exact hfresh s.nextId List.mem_cons_self id (htask ▸ hid) k
      refine ih hlinked hrule' hnodup' (fun timer ht hr => ?_) fun token ht id hid k => ?_
      · -- the new timer is that of the first task, which is none of the others
        rcases mem_timers_registerForTimer.mp ht with hold | rfl
        · exact fun hk => hnew timer hold hr (List.mem_cons_of_mem _ hk)
        · exact hnotMem
      · rw [token_registerForTimer, if_neg fun hsame => hid (hsame.1.trans htask)]
        exact hfresh token (List.mem_cons_of_mem _ ht) id hid k
    · rw [if_neg hdelayed]
      rw [List.filter_cons_of_neg hdelayed] at hfresh
      exact ih h hrule' hnodup'
        (fun timer ht hr hk => hnew timer ht hr (List.mem_cons_of_mem _ hk)) hfresh

/-- The timers are exact, and linked to the recorded tokens. -/
structure Inv (rules : List TimedRule) (s : TaskTimers) : Prop where
  exact : s.Exact rules
  linked : s.Linked

theorem inv_init (rules : List TimedRule) (nextId : ℕ) : (init nextId).Inv rules where
  exact _ _ := rfl
  linked := ⟨fun _ ht => absurd ht List.not_mem_nil,
    fun _ ht => absurd ht List.not_mem_nil⟩

variable {rules : List TimedRule}

/-- The timers of a rule are timers of its delayed tasks. -/
theorem Inv.delayed (h : s.Inv rules) {rule : TimedRule} (hrule : rule ∈ rules) :
    ∀ timer ∈ s.timersOf rule.id, ∃ result, timer.taskId ∈ rule.delayedTasks result := by
  intro timer ht
  refine (outstanding_subset rule s.history).2 timer.taskId ?_
  rw [← h.exact rule hrule]
  exact List.mem_map_of_mem ht

/-- Whatever the ids it takes, an evaluation leaves the timers of the other rules alone, and
leaves to the rule those of the delayed tasks for its result. -/
theorem Inv.timersOf_evaluate (h : s.Inv rules) {rule : TimedRule} (hrule : rule ∈ rules)
    (result : Bool) :
    ((s.evaluate rule result).timersOf rule.id).map TaskTimer.taskId =
        rule.delayedTasks result ∧
      ∀ id ≠ rule.id, (s.evaluate rule result).timersOf id = s.timersOf id := by
  have hcancelled := h.linked.timersOf_cancelled (h.delayed hrule)
  obtain ⟨hown, hothers⟩ := timersOf_performTask (s := s.cancelled rule)
    fun task ht => rule.ruleId_of_mem_tasks result ht
  constructor
  · have hnil := hcancelled rule.id
    rw [if_pos rfl] at hnil
    rw [hnil] at hown
    exact hown
  · intro id hid
    have hsame := hcancelled id
    rw [if_neg hid] at hsame
    exact (hothers id hid).trans hsame

/-- Disabling a rule removes its timers and leaves those of the other rules alone. -/
theorem Linked.timersOf_unsubscribe (h : s.Linked) (ruleId id : ℕ) :
    (s.unsubscribeRuleTasksTimers ruleId).1.timersOf id =
      if id = ruleId then [] else s.timersOf id := by
  have hpass {timer : TaskTimer} (htimer : timer ∈ s.timers) (hne : timer.ruleId ≠ ruleId) :
      ∀ entry ∈ ((s.tokens ruleId).getD ∅).entries, entry.2 ≠ some timer.token := by
    intro entry hentry heq
    obtain ⟨k, hk⟩ := (exists_entry_iff ruleId timer.token).mp ⟨entry, hentry, heq⟩
    exact h.apart timer htimer ruleId hne.symm k hk
  split
  · rename_i hid
    subst hid
    rw [timersOf, List.filter_eq_nil_iff]
    intro timer htimer hrule
    obtain ⟨hmem, hnone⟩ := mem_timers_unsubscribe.mp htimer
    rw [decide_eq_true_iff] at hrule
    have hrecorded := h.recorded timer hmem
    rw [hrule] at hrecorded
    exact hnone timer.taskId hrecorded
  · rename_i hid
    rw [timersOf, (unsubscribeRuleTasksTimers_spec ruleId).1, List.filter_filter]
    refine List.filter_congr fun timer htimer => ?_
    simp only [Bool.and_eq_left_iff_imp, decide_eq_true_eq]
    intro hrule
    exact hpass htimer fun heq => hid (hrule.symm.trans heq)

/-- Evaluating or disabling a rule leaves the timers of the others alone. -/
theorem Inv.separate (h : s.Inv rules) : s.Separate rules := by
  intro rule hrule id hid
  refine ⟨fun result => (h.timersOf_evaluate hrule result).2 id hid, ?_⟩
  rw [h.linked.timersOf_unsubscribe, if_neg hid]

variable (hrules : (rules.map TimedRule.id).Nodup)
include hrules

/-- Rules with the same id are the same. -/
theorem eq_of_id_eq {rule rule' : TimedRule} (h : rule ∈ rules) (h' : rule' ∈ rules)
    (hid : rule.id = rule'.id) : rule = rule' :=
  List.inj_on_of_nodup_map hrules h h' hid

theorem Inv.evaluate (h : s.Inv rules) {rule : TimedRule} (hrule : rule ∈ rules)
    (result : Bool) (hfresh : s.Fresh (.evaluate rule result)) :
    { s.evaluate rule result with
      history := s.history ++ [.evaluated rule.id result] : TaskTimers }.Inv rules := by
  obtain ⟨hown, hothers⟩ := h.timersOf_evaluate hrule result
  constructor
  · intro rule' hrule'
    rw [outstanding_concat, outstandingAfter]
    split
    · rename_i hid
      obtain rfl := eq_of_id_eq hrules hrule hrule' hid
      exact hown
    · rename_i hid
      exact (congrArg (List.map TaskTimer.taskId)
        (hothers rule'.id fun heq => hid heq.symm)).trans (h.exact rule' hrule')
  · -- the timers of the rule are gone when its tasks are performed
    have hcancelled : (s.cancelled rule).Linked := by
      refine h.linked.sublist (fun timer ht => ?_) (cancelled_token rule)
      rw [cancelled_timers] at ht
      exact (List.mem_filter.mp ht).1
    have hperform : (s.evaluate rule result).Linked := by
      refine hcancelled.performTask (rule.tasks result) rule.id
        (fun task ht => rule.ruleId_of_mem_tasks result ht) (rule.nodup_taskIds result)
        (fun timer ht hid => ?_) fun token ht id hid k => ?_
      · have hmem : timer ∈ (s.cancelled rule).timersOf rule.id := mem_timersOf.mpr ⟨ht, hid⟩
        rw [h.linked.timersOf_cancelled (h.delayed hrule), if_pos rfl] at hmem
        exact absurd hmem List.not_mem_nil
      · rw [cancelled_token]
        rw [cancelled_nextId] at ht
        refine hfresh token ?_ id hid k
        rw [TimedRule.delayedTasks, List.length_map]
        exact ht
    exact ⟨hperform.recorded, hperform.apart⟩

omit hrules in
/-- Removing a timer removes its task. -/
theorem map_taskId_erase {timers : List TaskTimer} {timer : TaskTimer}
    (hmem : timer ∈ timers) (hnodup : (timers.map TaskTimer.taskId).Nodup) :
    (timers.erase timer).map TaskTimer.taskId =
      (timers.map TaskTimer.taskId).erase timer.taskId := by
  induction timers with
  | nil => exact absurd hmem List.not_mem_nil
  | cons head timers ih =>
    by_cases hhead : head = timer
    · subst hhead
      simp
    · have htail : timer ∈ timers := (List.mem_cons.mp hmem).resolve_left fun h => hhead h.symm
      obtain ⟨hnotMem, hnodup'⟩ := List.nodup_cons.mp hnodup
      have hne : head.taskId ≠ timer.taskId := by
        intro heq
        exact hnotMem (heq ▸ List.mem_map_of_mem htail)
      rw [List.erase_cons_tail (by simpa using hhead), List.map_cons, List.map_cons,
        List.erase_cons_tail (by simpa using hne), ih htail hnodup']

omit hrules in
theorem Inv.expire (h : s.Inv rules) {timer : TaskTimer} (hmem : timer ∈ s.timers) :
    { s with
      timers := s.timers.erase timer
      history := s.history ++ [.expired timer.ruleId timer.taskId] : TaskTimers }.Inv rules := by
  constructor
  · intro rule hrule
    have hexact := h.exact rule hrule
    rw [outstanding_concat, outstandingAfter, ← hexact]
    rw [timersOf, ← List.erase_filter]
    split
    · rename_i hid
      refine map_taskId_erase (mem_timersOf.mpr ⟨hmem, hid⟩) ?_
      have hnodup := (outstanding_subset rule s.history).1
      rw [← hexact] at hnodup
      exact hnodup
    · rename_i hid
      have hnotMem : timer ∉ s.timersOf rule.id := fun hin => hid (mem_timersOf.mp hin).2
      exact congrArg (List.map TaskTimer.taskId) (List.erase_of_not_mem hnotMem)
  · have hlinked := h.linked
    exact ⟨fun x hx => hlinked.recorded x (List.mem_of_mem_erase hx),
      fun x hx => hlinked.apart x (List.mem_of_mem_erase hx)⟩

omit hrules in
theorem Inv.disable (h : s.Inv rules) (rule : TimedRule) :
    { (s.unsubscribeRuleTasksTimers rule.id).1 with
      history := s.history ++ [.disabled rule.id] : TaskTimers }.Inv rules := by
  constructor
  · intro rule' hrule'
    rw [outstanding_concat, outstandingAfter]
    have htimers := h.linked.timersOf_unsubscribe rule.id rule'.id
    split
    · rename_i hid
      rw [if_pos hid.symm] at htimers
      exact congrArg (List.map TaskTimer.taskId) htimers
    · rename_i hid
      rw [if_neg fun heq => hid heq.symm] at htimers
      exact (congrArg (List.map TaskTimer.taskId) htimers).trans (h.exact rule' hrule')
  · -- the remaining timers are not of the rule, whose tokens alone are forgotten
    have hmem {timer : TaskTimer}
        (ht : timer ∈ (s.unsubscribeRuleTasksTimers rule.id).1.timers) :
        timer ∈ s.timers ∧ timer.ruleId ≠ rule.id := by
      obtain ⟨hold, hnone⟩ := mem_timers_unsubscribe.mp ht
      refine ⟨hold, fun heq => ?_⟩
      have hrecorded := h.linked.recorded timer hold
      rw [heq] at hrecorded
      exact hnone timer.taskId hrecorded
    have hlinked : (s.unsubscribeRuleTasksTimers rule.id).1.Linked := by
      constructor
      · intro timer ht
        obtain ⟨hold, hne⟩ := hmem ht
        rw [token_unsubscribe, if_neg hne]
        exact h.linked.recorded timer hold
      · intro timer ht id hid k
        obtain ⟨hold, -⟩ := hmem ht
        rw [token_unsubscribe]
        split
        · exact nofun
        · exact h.linked.apart timer hold id hid k
    exact ⟨hlinked.recorded, hlinked.apart⟩

/-- Every step that takes no id recorded for another rule keeps the invariant. -/
theorem Inv.step {t : TaskTimers} (h : s.Inv rules) {a : TaskTimerStep} (hfresh : s.Fresh a)
    (ht : s.step rules a = some t) : t.Inv rules := by
  cases a with
  | evaluate rule result =>
    simp only [TaskTimers.step] at ht
    split at ht
    · rename_i hrule
      obtain rfl := Option.some.inj ht
      exact h.evaluate hrules hrule result hfresh
    · cases ht
  | expire timer =>
    simp only [TaskTimers.step] at ht
    split at ht
    · rename_i hmem
      obtain rfl := Option.some.inj ht
      exact h.expire hmem
    · cases ht
  | disable rule =>
    simp only [TaskTimers.step] at ht
    split at ht
    · obtain rfl := Option.some.inj ht
      exact h.disable rule
    · cases ht
  | others n =>
    obtain rfl := Option.some.inj ht
    exact ⟨h.exact, h.linked.recorded, h.linked.apart⟩

/-! ### Whole runs -/

/-- **The timers of delayed tasks.** In every run in which no evaluation takes from the counter
an id that is recorded for another rule, the timers of each rule are at all times those of the
delayed tasks for its latest result that have not expired, and none if it has been disabled
since; and evaluating or disabling a rule leaves the timers of the others alone. -/
theorem exact_of_fresh (nextId : ℕ) (l : List TaskTimerStep)
    (hfresh : Guarded (TaskTimers.step rules) Fresh (init nextId) l) :
    Always (TaskTimers.step rules) (fun s => s.Exact rules ∧ s.Separate rules)
      (init nextId) l := by
  have halways := hfresh.always (J := Inv rules)
    (fun s a t h hok ht => h.step hrules hok ht) (inv_init rules nextId)
  intro l' t hl' ht
  have hinv := halways l' t hl' ht
  exact ⟨hinv.exact, hinv.separate⟩

omit hrules

/-- The counter does not reach the largest `int`. -/
def Below (s : TaskTimers) : TaskTimerStep → Prop
  | .evaluate rule result => s.nextId + (rule.delayedTasks result).length < 2147483647
  | .others n => s.nextId + n < 2147483647
  | _ => True

/-- All recorded tokens are below the counter. -/
def Recorded (s : TaskTimers) : Prop :=
  ∀ id k token, s.token id k = some token → token < s.nextId

theorem clientIds_of_lt {id n : ℕ} (h : id + n < 2147483647) :
    ∀ token ∈ clientIds id n, id ≤ token := by
  induction n generalizing id with
  | zero => exact fun token ht => absurd ht List.not_mem_nil
  | succ n ih =>
    intro token ht
    rw [clientIds, nextClientId, if_neg (by omega)] at ht
    rcases List.mem_cons.mp ht with rfl | ht
    · exact Nat.le_refl token
    · have := ih (by omega) token ht
      omega

theorem Recorded.performTask (h : s.Recorded) (tasks : List TaskStruct)
    (hlt : s.nextId + (tasks.filter TaskStruct.delayed).length < 2147483647) :
    (s.performTask tasks).Recorded := by
  induction tasks generalizing s with
  | nil => exact h
  | cons task tasks ih =>
    rw [performTask_cons]
    by_cases hdelayed : task.delayed
    · rw [List.filter_cons_of_pos hdelayed, List.length_cons] at hlt
      rw [if_pos hdelayed]
      have hnext : (s.registerForTimer task).nextId = s.nextId + 1 := by
        rw [registerForTimer, nextClientId, if_neg (by omega)]
      refine ih (fun id k token htoken => ?_) (by omega)
      rw [token_registerForTimer] at htoken
      split at htoken
      · rw [← Option.some.inj htoken]
        omega
      · have := h id k token htoken
        omega
    · rw [List.filter_cons_of_neg hdelayed] at hlt
      rw [if_neg hdelayed]
      exact ih h hlt

theorem unsubscribeRuleTasksTimers_nextId (ruleId : ℕ) :
    (s.unsubscribeRuleTasksTimers ruleId).1.nextId = s.nextId := by
  have hloop (entries : List (Sigma fun _ : ℕ => Option ℕ)) :
      (s.unregisterTimers entries).1.nextId = s.nextId := by
    induction entries generalizing s with
    | nil => rfl
    | cons entry entries ih =>
      refine (ih (s := (s.unregisterTimer entry.2).1)).trans ?_
      cases entry.2 <;> rfl
  rw [unsubscribeRuleTasksTimers]
  split
  · rfl
  · exact hloop _

theorem Recorded.step {t : TaskTimers} (h : s.Recorded) {a : TaskTimerStep} (hbelow : s.Below a)
    (ht : s.step rules a = some t) : t.Recorded := by
  cases a with
  | evaluate rule result =>
    simp only [TaskTimers.step] at ht
    split at ht
    · obtain rfl := Option.some.inj ht
      have hcancelled : (s.cancelled rule).Recorded := by
        intro id k token htoken
        rw [cancelled_token] at htoken
        rw [cancelled_nextId]
        exact h id k token htoken
      refine hcancelled.performTask (rule.tasks result) ?_
      rw [cancelled_nextId]
      rw [Below, TimedRule.delayedTasks, List.length_map] at hbelow
      exact hbelow
    · cases ht
  | expire timer =>
    simp only [TaskTimers.step] at ht
    split at ht
    · obtain rfl := Option.some.inj ht
      exact h
    · cases ht
  | disable rule =>
    simp only [TaskTimers.step] at ht
    split at ht
    · obtain rfl := Option.some.inj ht
      intro id k token htoken
      have hold : (s.unsubscribeRuleTasksTimers rule.id).1.token id k = some token := htoken
      rw [token_unsubscribe] at hold
      split at hold
      · cases hold
      · exact Nat.lt_of_lt_of_eq (h id k token hold)
          (unsubscribeRuleTasksTimers_nextId rule.id).symm
    · cases ht
  | others n =>
    obtain rfl := Option.some.inj ht
    intro id k token htoken
    have hlt : token < s.nextId := h id k token htoken
    rw [Below] at hbelow
    show token < (s.nextId + n) % 2147483647
    rw [Nat.mod_eq_of_lt hbelow]
    omega

/-- As long as the counter does not start again from zero, it gives no id twice. -/
theorem fresh_of_below {nextId : ℕ} {l : List TaskTimerStep}
    (hbelow : Guarded (TaskTimers.step rules) Below (init nextId) l) :
    Guarded (TaskTimers.step rules) Fresh (init nextId) l := by
  refine hbelow.imp (J := Recorded) (fun s a t h hok ht => h.step hok ht) (fun s a h hok => ?_)
    fun id k token htoken => by cases htoken
  cases a with
  | evaluate rule result =>
    intro token ht other _ task htoken
    have hge : s.nextId ≤ token := clientIds_of_lt hok token ht
    have hlt : token < s.nextId := h other task token htoken
    omega
  | expire timer => trivial
  | disable rule => trivial
  | others n => trivial

/-- Two rules with one delayed task each. -/
def twoRules : List TimedRule := [⟨0, [5], []⟩, ⟨1, [5], []⟩]

theorem exact_of_fresh_twoRules :
    Guarded (TaskTimers.step twoRules) Fresh (init 0)
        [.evaluate ⟨0, [5], []⟩ true, .evaluate ⟨1, [5], []⟩ true,
          .evaluate ⟨0, [5], []⟩ false] ∧
      Always (TaskTimers.step twoRules) (fun s => s.Exact twoRules ∧ s.Separate twoRules)
        (init 0) [.evaluate ⟨0, [5], []⟩ true, .evaluate ⟨1, [5], []⟩ true,
          .evaluate ⟨0, [5], []⟩ false] := by
  have hbelow : Guarded (TaskTimers.step twoRules) Below (init 0)
      [.evaluate ⟨0, [5], []⟩ true, .evaluate ⟨1, [5], []⟩ true,
        .evaluate ⟨0, [5], []⟩ false] := by
    have hfirst : 0 + (TimedRule.delayedTasks ⟨0, [5], []⟩ true).length < 2147483647 := by
      decide
    have hsecond : 1 + (TimedRule.delayedTasks ⟨1, [5], []⟩ true).length < 2147483647 := by
      decide
    have hthird : 2 + (TimedRule.delayedTasks ⟨0, [5], []⟩ false).length < 2147483647 := by
      decide
    exact .cons rfl hfirst (.cons rfl hsecond (.cons rfl hthird trivial))
  have hfresh := fresh_of_below hbelow
  exact ⟨hfresh, exact_of_fresh (by decide) 0 _ hfresh⟩

/-- The timer of the first rule expires, and its token stays; when the counter has come round,
the timer of the second rule gets the same token, and the next evaluation of the first rule
cancels it. -/
theorem not_exact_wrapped :
    ¬ ∀ (rules : List TimedRule) (nextId : ℕ) (l : List TaskTimerStep),
      (rules.map TimedRule.id).Nodup →
        Always (TaskTimers.step rules) (fun s => s.Exact rules ∧ s.Separate rules)
          (init nextId) l := by
  intro h
  have hexact := (h twoRules 0
    [.evaluate ⟨0, [5], []⟩ true, .expire ⟨0, 0, 0⟩, .others 2147483646,
      .evaluate ⟨1, [5], []⟩ true, .evaluate ⟨0, [5], []⟩ false] (by decide) _ _
    List.prefix_rfl rfl).1
  have hsecond := hexact ⟨1, [5], []⟩ (by decide)
  revert hsecond
  decide +kernel

end TaskTimers

end UtilityFramework
