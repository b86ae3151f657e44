import UtilityFramework.Rules.Reload
import UtilityFramework.Rules.TaskTimersExact

/-!
# What rules have subscribed is recorded

The timer of a task is the one whose token is recorded for it (`TaskTimers.Entered`), and every
subscription of a rule is recorded under its id with its row and its token
(`RulesDispatcher.Covered`), as long as the rules are distinct and the triggers that are
unsubscribed resolve to the rows that they were subscribed at. Each operation on the
subscriptions of rules keeps that; those that subscribe have a frame (`RulesDispatcher.Frame`),
and those that unsubscribe only take away (`RulesDispatcher.Shrinks`).
-/

namespace UtilityFramework

open Transition

/-! ### Timers -/

namespace TaskTimers

variable {s : TaskTimers}

/-- The token of every timer is recorded for its task. -/
def Entered (s : TaskTimers) : Prop :=
  ∀ timer ∈ s.timers, s.token timer.ruleId timer.taskId = some timer.token

/-- Fewer timers, with the same tokens. -/
theorem Entered.subset {t : TaskTimers} (h : s.Entered) (htimers : ∀ x ∈ t.timers, x ∈ s.timers)
    (htoken : ∀ id k, t.token id k = s.token id k) : t.Entered := by
  intro timer htimer
  rw [htoken]
  exact h timer (htimers timer htimer)

/-- The tasks of a rule whose delayed tasks have no timers get theirs. -/
theorem Entered.performTask (h : s.Entered) (ruleId : ℕ) (tasks : List TaskStruct)
    (hrule : ∀ task ∈ tasks, task.ruleId = ruleId) (hnodup : (tasks.map TaskStruct.taskId).Nodup)
    (hnew : ∀ timer ∈ s.timers, timer.ruleId = ruleId →
      ∀ task ∈ tasks, task.delayed → timer.taskId ≠ task.taskId) :
    (s.performTask tasks).Entered ∧
      ∀ timer ∈ (s.performTask tasks).timers, timer ∈ s.timers ∨ timer.ruleId = ruleId := by
  induction tasks generalizing s with
  | nil => exact ⟨h, fun timer htimer => .inl htimer⟩
  | cons task tasks ih =>
    have htask : task.ruleId = ruleId := hrule task List.mem_cons_self
    have hrule' : ∀ task ∈ tasks, task.ruleId = ruleId :=
      fun task ht => hrule task (List.mem_cons_of_mem _ ht)
    obtain ⟨hnotMem, hnodup'⟩ := List.nodup_cons.mp hnodup
    rw [performTask_cons]
    by_cases hdelayed : task.delayed
    · rw [if_pos hdelayed]
      have hrecorded : (s.registerForTimer task).Entered := by
        intro timer ht
        rw [token_registerForTimer]
        rcases mem_timers_registerForTimer.mp ht with hold | rfl
        · rw [if_neg fun hsame =>
            hnew timer hold (hsame.1.trans htask) task List.mem_cons_self hdelayed hsame.2]
          exact h timer hold
        · rw [if_pos ⟨rfl, rfl⟩]
      obtain ⟨hall, hfrom⟩ := ih hrecorded hrule' hnodup' fun timer ht hr other hother hd => by
        rcases mem_timers_registerForTimer.mp ht with hold | rfl
        · exact hnew timer hold hr other (List.mem_cons_of_mem _ hother) hd
        · -- the ids of the tasks differ
          exact fun heq => hnotMem (List.mem_map.mpr ⟨other, hother, heq.symm⟩)
      refine ⟨hall, fun timer ht => ?_⟩
      rcases hfrom timer ht with hfirst | hr
      · rcases mem_timers_registerForTimer.mp hfirst with hold | rfl
        · exact .inl hold
        · exact .inr htask
      · exact .inr hr
    · rw [if_neg hdelayed]
      exact ih h hrule' hnodup' fun timer ht hr other hother =>
        hnew timer ht hr other (List.mem_cons_of_mem _ hother)

/-- An evaluation makes timers for its own rule only. -/
theorem Entered.evaluate (h : s.Entered) (rule : TimedRule) (result : Bool) :
    (s.evaluate rule result).Entered ∧
      ∀ timer ∈ (s.evaluate rule result).timers, timer ∈ s.timers ∨ timer.ruleId = rule.id := by
  have hsubset : ∀ timer ∈ (s.cancelled rule).timers, timer ∈ s.timers := by
    intro timer ht
    rw [cancelled_timers] at ht
    exact List.mem_of_mem_filter ht
  have hcancelled : (s.cancelled rule).Entered :=
    h.subset hsubset fun id k => cancelled_token rule id k
  obtain ⟨hall, hfrom⟩ := hcancelled.performTask rule.id (rule.tasks result)
    (fun task => rule.ruleId_of_mem_tasks result) (rule.nodup_taskIds result)
    fun timer ht hr task htask hdelayed heq => by
      rw [cancelled_timers, List.mem_filter, decide_eq_true_iff] at ht
      refine ht.2 result task.taskId ?_ ?_
      · exact List.mem_map_of_mem (List.mem_filter.mpr ⟨htask, hdelayed⟩)
      · rw [← hr, ← heq]
        exact h timer ht.1
  exact ⟨hall, fun timer ht => (hfrom timer ht).imp_left (hsubset timer)⟩

/-- Unsubscribing the timers of a rule leaves none of them. -/
theorem Entered.unsubscribe (h : s.Entered) (ruleId : ℕ) :
    (s.unsubscribeRuleTasksTimers ruleId).1.Entered ∧
      ∀ timer ∈ (s.unsubscribeRuleTasksTimers ruleId).1.timers,
        timer ∈ s.timers ∧ timer.ruleId ≠ ruleId := by
  have hleft : ∀ timer ∈ (s.unsubscribeRuleTasksTimers ruleId).1.timers,
      timer ∈ s.timers ∧ timer.ruleId ≠ ruleId := by
    intro timer ht
    obtain ⟨hmem, hnone⟩ := mem_timers_unsubscribe.mp ht
    refine ⟨hmem, ?_⟩
    rintro rfl
    exact hnone timer.taskId (h timer hmem)
  refine ⟨fun timer ht => ?_, hleft⟩
  rw [token_unsubscribe, if_neg (hleft timer ht).2]
  exact h timer (hleft timer ht).1

end TaskTimers

/-! ### Tokens -/

section Emplace

variable {ν : Type*} [DecidableEq ν] {tokens tokens' : AList fun _ : ν => ℤ} {key : ν}

theorem lookup_emplaceToken (h : key ∉ tokens) (token : ℤ) (name : ν) :
    (emplaceToken tokens key token).lookup name =
      if name = key then some token else tokens.lookup name := by
  rw [emplaceToken, if_neg h]
  split
  · rename_i heq
    rw [heq, AList.lookup_insert]
  · rename_i hne
    exact AList.lookup_insert_ne hne

theorem mem_emplaceToken {token : ℤ} {name : ν} :
    name ∈ emplaceToken tokens key token ↔ name = key ∨ name ∈ tokens := by
  rw [emplaceToken]
  split
  · rename_i hmem
    refine ⟨.inr, ?_⟩
    rintro (rfl | hname)
    · exact hmem
    · exact hname
  · exact AList.mem_insert tokens

theorem mem_of_mem_erase {name : ν} (h : name ∈ tokens.erase key) : name ∈ tokens :=
  (AList.mem_erase.mp h).2

/-- The keys do not depend on the tokens. -/
theorem keys_emplaceToken (h : tokens.keys = tokens'.keys) (token token' : ℤ) :
    (emplaceToken tokens key token).keys = (emplaceToken tokens' key token').keys := by
  have hmem : key ∈ tokens ↔ key ∈ tokens' := by
    rw [AList.mem_keys, AList.mem_keys, h]
  by_cases hkey : key ∈ tokens
  · rw [emplaceToken, emplaceToken, if_pos hkey, if_pos (hmem.mp hkey), h]
  · rw [emplaceToken, emplaceToken, if_neg hkey, if_neg fun hkey' => hkey (hmem.mpr hkey'),
      AList.keys_insert, AList.keys_insert, h]

end Emplace

namespace RulesDispatcher

variable {ρ : Type*} {s t u : RulesDispatcher ρ}

/-! ### Subscriptions -/

/-- The subscriptions of rules are recorded under their ids. -/
structure Covered (s : RulesDispatcher ρ) : Prop where
  trigger : ∀ l ∈ s.subscriptions.live, ∀ object, l.func = .trigger object →
    ∃ rule ∈ s.rules, rule.object = object ∧ ∃ trigger,
      (s.triggerTokens rule.id).lookup trigger = some l.token ∧
        s.subscribedAt rule.id trigger = some l.row
  enable : ∀ l ∈ s.subscriptions.live, ∀ object, l.func = .enable object →
    ∃ rule ∈ s.rules, rule.object = object ∧
      s.enableTokens.lookup rule.id = some l.token ∧ s.ruleEnabledMap rule.id = some l.row

/-- What operations on the subscriptions of rules leave alone. -/
structure Frame (s t : RulesDispatcher ρ) : Prop where
  table : t.table = s.table
  rules : t.rules = s.rules
  created : t.created = s.created
  timers : t.timers = s.timers
  enabled : t.ruleEnabledMap = s.ruleEnabledMap
  existence : t.ruleExistenceMap = s.ruleExistenceMap

theorem Frame.refl (s : RulesDispatcher ρ) : s.Frame s :=
  ⟨rfl, rfl, rfl, rfl, rfl, rfl⟩

theorem Frame.trans (h : s.Frame t) (h' : t.Frame u) : s.Frame u where
  table := h'.table.trans h.table
  rules := h'.rules.trans h.rules
  created := h'.created.trans h.created
  timers := h'.timers.trans h.timers
  enabled := h'.enabled.trans h.enabled
  existence := h'.existence.trans h.existence

variable [DecidableEq ρ]

/-- The registry is as it should be, the subscriptions of rules belong to the rules that are
loaded, and if these are distinct they are covered. -/
structure Subscribed (s : RulesDispatcher ρ) : Prop where
  registered : s.subscriptions.Registered
  loaded : ∀ l ∈ s.subscriptions.live, l.func.ofRule →
    ∃ rule ∈ s.rules, l.func = .trigger rule.object ∨ l.func = .enable rule.object
  known : ∀ ruleId ∈ s.enableTokens, ∃ rule ∈ s.rules, rule.id = ruleId
  covered : Distinct s.rules → s.Covered

omit [DecidableEq ρ] in
theorem mem_subscribed {token : Option ℤ} {row : ρ} {func : RuleSubscriber}
    {live : List (LiveSubscriber ρ RuleSubscriber)} {l : LiveSubscriber ρ RuleSubscriber}
    (h : l ∈ (token.map fun token => ⟨row, token, func⟩).toList ++ live) :
    l ∈ live ∨ token = some l.token ∧ l.row = row ∧ l.func = func := by
  rcases List.mem_append.mp h with hnew | hold
  · obtain ⟨value, rfl, rfl⟩ := Option.map_eq_some_iff.mp (Option.mem_toList.mp hnew)
    exact .inr ⟨rfl, rfl, rfl⟩
  · exact .inl hold

/-- The triggers of a rule are subscribed one after the other; the token of one that has none
yet is recorded. -/
theorem Subscribed.subscribeTrigger (h : s.Subscribed) {rule : Rule} (hrule : rule ∈ s.rules)
    {trigger : String} (hnew : Distinct s.rules → trigger ∉ s.triggerTokens rule.id) (row : ρ) :
    ∃ t, s.subscribeTrigger rule trigger row = some t ∧ t.Subscribed ∧ s.Frame t ∧
      t.enableTokens = s.enableTokens ∧ ∀ name, name ∈ t.triggerTokens rule.id ↔
        name = trigger ∨ name ∈ s.triggerTokens rule.id := by
  obtain ⟨sub, token, hsub, hreg, hlive, -⟩ :=
    h.registered.subscribeRow row (RuleSubscriber.trigger rule.object)
  refine ⟨_, congrArg (Option.map _) hsub, ⟨hreg, fun l hl hfunc => ?_, h.known,
    fun hdistinct => ⟨fun l hl object hfunc => ?_, fun l hl object hfunc => ?_⟩⟩,
    ⟨rfl, rfl, rfl, rfl, rfl, rfl⟩, rfl, fun name => ?_⟩
  · rcases mem_subscribed (hlive ▸ hl) with hold | ⟨-, -, hnewFunc⟩
    · exact h.loaded l hold hfunc
    · exact ⟨rule, hrule, .inl hnewFunc⟩
  · dsimp only at hl ⊢
    have htrigger := hnew hdistinct
    -- the new subscription is recorded, and the others still are
    rcases mem_subscribed (hlive ▸ hl) with hold | ⟨htoken, hrow, hnewFunc⟩
    · obtain ⟨owner, howner, hobject, name, hlookup, hat⟩ :=
        (h.covered hdistinct).trigger l hold object hfunc
      refine ⟨owner, howner, hobject, name, ?_⟩
      by_cases hid : owner.id = rule.id
      · rw [hid] at hlookup hat ⊢
        -- the name has a token, and the new one has none
        have hname : name ≠ trigger := by
          rintro rfl
          exact htrigger (AList.lookup_isSome.mp (Option.isSome_of_eq_some hlookup))
        rw [Function.update_self, Function.update_self, lookup_emplaceToken htrigger,
          if_neg hname, Function.update_of_ne hname]
        exact ⟨hlookup, hat⟩
      · rw [Function.update_of_ne hid, Function.update_of_ne hid]
        exact ⟨hlookup, hat⟩
    · refine ⟨rule, hrule, RuleSubscriber.trigger.inj (hnewFunc.symm.trans hfunc), trigger, ?_⟩
      rw [Function.update_self, Function.update_self, Function.update_self,
        lookup_emplaceToken htrigger, if_pos rfl, htoken, hrow]
      exact ⟨rfl, rfl⟩
  · rcases mem_subscribed (hlive ▸ hl) with hold | ⟨-, -, hnewFunc⟩
    · exact (h.covered hdistinct).enable l hold object hfunc
    · cases hnewFunc.symm.trans hfunc
  · dsimp only
    rw [Function.update_self, mem_emplaceToken]

theorem Subscribed.subscribeTriggers (h : s.Subscribed) {rule : Rule} (hrule : rule ∈ s.rules)
    {triggers : List String} (hnodup : Distinct s.rules → triggers.Nodup)
    (hnew : Distinct s.rules → ∀ trigger ∈ triggers, trigger ∉ s.triggerTokens rule.id) :
    ∃ t ok, s.subscribeTriggers rule triggers = some (t, ok) ∧ t.Subscribed ∧ s.Frame t ∧
      t.enableTokens = s.enableTokens := by
  induction triggers generalizing s with
  | nil => exact ⟨s, true, rfl, h, Frame.refl s, rfl⟩
  | cons trigger triggers ih =>
    rw [RulesDispatcher.subscribeTriggers]
    cases s.table.byString trigger with
    | none => exact ⟨s, false, rfl, h, Frame.refl s, rfl⟩
    | some row =>
      obtain ⟨t, ht, hsub, hframe, hids, htokens⟩ :=
        h.subscribeTrigger hrule (fun hd => hnew hd trigger List.mem_cons_self) row
      obtain ⟨u, ok, hu, husub, huframe, huids⟩ := ih hsub (hframe.rules ▸ hrule)
        (fun hd => (List.nodup_cons.mp (hnodup (hframe.rules ▸ hd))).2) fun hd name hname => by
          rw [hframe.rules] at hd
          rw [htokens, not_or]
          refine ⟨?_, hnew hd name (List.mem_cons_of_mem _ hname)⟩
          rintro rfl
          exact (List.nodup_cons.mp (hnodup hd)).1 hname
      refine ⟨u, ok, ?_, husub, hframe.trans huframe, huids.trans hids⟩
      dsimp only
      rw [ht, Option.bind_some, hu]

omit [DecidableEq ρ] in
theorem queryRuleById_eq_some {ruleId : ℕ} {rule : Rule}
    (h : s.queryRuleById ruleId = some rule) : rule ∈ s.rules ∧ rule.id = ruleId :=
  ⟨List.mem_of_find?_eq_some h, by simpa using List.find?_some h⟩

omit [DecidableEq ρ] in
/-- The id of a loaded rule finds the rule, if the ids are different. -/
theorem queryRuleById_of_distinct (hd : Distinct s.rules) {rule : Rule} (hrule : rule ∈ s.rules) :
    s.queryRuleById rule.id = some rule := by
  have hsome : (s.queryRuleById rule.id).isSome := by
    rw [queryRuleById, List.find?_isSome]
    exact ⟨rule, hrule, decide_eq_true rfl⟩
  obtain ⟨found, hfound⟩ := Option.isSome_iff_exists.mp hsome
  obtain ⟨hmem, hid⟩ := queryRuleById_eq_some hfound
  rw [hfound, List.inj_on_of_nodup_map hd.1 hmem hrule hid]

theorem Subscribed.subscribeRuleTriggers (h : s.Subscribed) (ruleId : ℕ) :
    ∃ t ok, s.subscribeRuleTriggers ruleId = some (t, ok) ∧ t.Subscribed ∧ s.Frame t ∧
      t.enableTokens = s.enableTokens := by
  rw [RulesDispatcher.subscribeRuleTriggers]
  by_cases hnil : (s.triggerTokens ruleId).entries = []
  · rw [if_neg (not_not.mpr hnil)]
    cases hquery : s.queryRuleById ruleId with
    | none => exact ⟨s, false, rfl, h, Frame.refl s, rfl⟩
    | some rule =>
      obtain ⟨hrule, rfl⟩ := queryRuleById_eq_some hquery
      refine h.subscribeTriggers hrule (fun hd => hd.2 rule hrule) fun _ trigger _ hmem => ?_
      rw [AList.mem_keys, AList.keys, hnil] at hmem
      exact List.not_mem_nil hmem
  · rw [if_pos hnil]
    exact ⟨s, false, rfl, h, Frame.refl s, rfl⟩

/-- The enable row of a rule is subscribed; the token of a rule that has none yet is
recorded. -/
theorem Subscribed.subscribeRuleEnabled (h : s.Subscribed) {rule : Rule} (hrule : rule ∈ s.rules)
    (hnew : Distinct s.rules → rule.id ∉ s.enableTokens) :
    ∃ t, s.subscribeRuleEnabled rule = some t ∧ t.Subscribed ∧ s.Frame t ∧
      ∀ id ∈ t.enableTokens, id = rule.id ∨ id ∈ s.enableTokens := by
  rw [RulesDispatcher.subscribeRuleEnabled]
  cases hrow : s.ruleEnabledMap rule.id with
  | none => exact ⟨s, rfl, h, Frame.refl s, fun id hid => .inr hid⟩
  | some row =>
    obtain ⟨sub, token, hsub, hreg, hlive, -⟩ :=
      h.registered.subscribeRow row (RuleSubscriber.enable rule.object)
    refine ⟨_, congrArg (Option.map _) hsub, ⟨hreg, fun l hl hfunc => ?_, fun id hid => ?_,
      fun hdistinct => ⟨fun l hl object hfunc => ?_, fun l hl object hfunc => ?_⟩⟩,
      ⟨rfl, rfl, rfl, rfl, rfl, rfl⟩, fun id hid => mem_emplaceToken.mp hid⟩
    · rcases mem_subscribed (hlive ▸ hl) with hold | ⟨-, -, hnewFunc⟩
      · exact h.loaded l hold hfunc
      · exact ⟨rule, hrule, .inr hnewFunc⟩
    · rcases mem_emplaceToken.mp hid with rfl | hold
      · exact ⟨rule, hrule, rfl⟩
      · exact h.known id hold
    · rcases mem_subscribed (hlive ▸ hl) with hold | ⟨-, -, hnewFunc⟩
      · exact (h.covered hdistinct).trigger l hold object hfunc
      · cases hnewFunc.symm.trans hfunc
    · dsimp only at hl ⊢
      have hid := hnew hdistinct
      rcases mem_subscribed (hlive ▸ hl) with hold | ⟨htoken, hat, hnewFunc⟩
      · obtain ⟨owner, howner, hobject, hlookup, hownerRow⟩ :=
          (h.covered hdistinct).enable l hold object hfunc
        -- a second rule with the id would not have its token recorded
        have hne : owner.id ≠ rule.id := by
          intro heq
          rw [heq] at hlookup
          exact hid (AList.lookup_isSome.mp (Option.isSome_of_eq_some hlookup))
        refine ⟨owner, howner, hobject, ?_, hownerRow⟩
        rw [lookup_emplaceToken hid, if_neg hne, hlookup]
      · refine ⟨rule, hrule, RuleSubscriber.enable.inj (hnewFunc.symm.trans hfunc), ?_, ?_⟩
        · rw [lookup_emplaceToken hid, if_pos rfl, htoken]
          rfl
        · rw [hrow, hat]

/-! ### Unsubscriptions -/

/-- What unsubscriptions leave alone, and what they only take away from. -/
structure Shrinks (s t : RulesDispatcher ρ) : Prop where
  table : t.table = s.table
  rules : t.rules = s.rules
  created : t.created = s.created
  enabled : t.ruleEnabledMap = s.ruleEnabledMap
  existence : t.ruleExistenceMap = s.ruleExistenceMap
  subscribedAt : t.subscribedAt = s.subscribedAt
  live : t.subscriptions.live.Sublist s.subscriptions.live
  triggers : ∀ id, ∀ trigger ∈ t.triggerTokens id, trigger ∈ s.triggerTokens id
  enables : ∀ id ∈ t.enableTokens, id ∈ s.enableTokens

omit [DecidableEq ρ] in
theorem Shrinks.refl (s : RulesDispatcher ρ) : s.Shrinks s :=
  ⟨rfl, rfl, rfl, rfl, rfl, rfl, .refl _, fun _ _ h => h, fun _ h => h⟩

omit [DecidableEq ρ] in
theorem Shrinks.trans (h : s.Shrinks t) (h' : t.Shrinks u) : s.Shrinks u where
  table := h'.table.trans h.table
  rules := h'.rules.trans h.rules
  created := h'.created.trans h.created
  enabled := h'.enabled.trans h.enabled
  existence := h'.existence.trans h.existence
  subscribedAt := h'.subscribedAt.trans h.subscribedAt
  live := h'.live.trans h.live
  triggers id trigger hmem := h.triggers id trigger (h'.triggers id trigger hmem)
  enables id hmem := h.enables id (h'.enables id hmem)

/-- The token of a trigger at the row that the trigger was subscribed at. -/
theorem Subscribed.unsubscribeTrigger (h : s.Subscribed) {ruleId : ℕ} {trigger : String} {row : ρ}
    (hat : Distinct s.rules → trigger ∈ s.triggerTokens ruleId →
      s.subscribedAt ruleId trigger = some row) :
    ∃ t, s.unsubscribeTrigger ruleId trigger row = some t ∧ t.Subscribed ∧ s.Shrinks t ∧
      t.timers = s.timers ∧ trigger ∉ t.triggerTokens ruleId := by
  obtain ⟨sub, hsub, hreg, hlive⟩ :=
    h.registered.unsubscribeRow row (((s.triggerTokens ruleId).lookup trigger).getD 0)
  have hmem {l : LiveSubscriber ρ RuleSubscriber} (hl : l ∈ sub.live) :
      l ∈ s.subscriptions.live ∧
        ¬(l.row = row ∧ l.token = ((s.triggerTokens ruleId).lookup trigger).getD 0) := by
    rw [hlive, List.mem_filter, decide_eq_true_iff] at hl
    exact hl
  refine ⟨_, congrArg (Option.map _) hsub, ⟨hreg, fun l hl => h.loaded l (hmem hl).1, h.known,
    fun hdistinct => ⟨fun l hl object hfunc => ?_, fun l hl => ?_⟩⟩,
    ⟨rfl, rfl, rfl, rfl, rfl, rfl, ?_, fun id name hname => ?_, fun id hid => hid⟩, rfl, ?_⟩
  · obtain ⟨owner, howner, hobject, name, hlookup, hrow⟩ :=
      (h.covered hdistinct).trigger l (hmem hl).1 object hfunc
    refine ⟨owner, howner, hobject, name, ?_, hrow⟩
    dsimp only
    by_cases hid : owner.id = ruleId
    · rw [hid] at hlookup hrow ⊢
      -- what is recorded for the trigger has been taken out
      have hname : name ≠ trigger := by
        rintro rfl
        refine (hmem hl).2 ⟨?_, ?_⟩
        · have hsome := hat hdistinct (AList.lookup_isSome.mp (Option.isSome_of_eq_some hlookup))
          exact Option.some.inj (hrow.symm.trans hsome)
        · rw [hlookup]
          rfl
      rw [Function.update_self, AList.lookup_erase_ne hname, hlookup]
    · rw [Function.update_of_ne hid, hlookup]
  · exact (h.covered hdistinct).enable l (hmem hl).1
  · dsimp only
    rw [hlive]
    exact List.filter_sublist
  · dsimp only at hname
    by_cases hid : id = ruleId
    · subst hid
      rw [Function.update_self] at hname
      exact mem_of_mem_erase hname
    · rwa [Function.update_of_ne hid] at hname
  · dsimp only
    rw [Function.update_self]
    exact fun hname => (AList.mem_erase.mp hname).1 rfl

theorem Subscribed.unsubscribeTriggers (h : s.Subscribed) {ruleId : ℕ} {triggers : List String}
    (hat : Distinct s.rules →
      ∀ trigger ∈ triggers.takeWhile fun trigger => (s.table.byString trigger).isSome,
        trigger ∈ s.triggerTokens ruleId →
          s.table.byString trigger = s.subscribedAt ruleId trigger) :
    ∃ t ok, s.unsubscribeTriggers ruleId triggers = some (t, ok) ∧ t.Subscribed ∧ s.Shrinks t ∧
      t.timers = s.timers ∧
      ∀ trigger ∈ triggers.takeWhile fun trigger => (s.table.byString trigger).isSome,
        trigger ∉ t.triggerTokens ruleId := by
  induction triggers generalizing s with
  | nil => exact ⟨s, true, rfl, h, Shrinks.refl s, rfl, fun _ hmem => absurd hmem List.not_mem_nil⟩
  | cons trigger triggers ih =>
    rw [RulesDispatcher.unsubscribeTriggers]
    cases hrow : s.table.byString trigger with
    | none =>
      refine ⟨s, false, rfl, h, Shrinks.refl s, rfl, fun name hname => ?_⟩
      rw [List.takeWhile_cons_of_neg (by simp [hrow])] at hname
      exact absurd hname List.not_mem_nil
    | some row =>
      rw [List.takeWhile_cons_of_pos (by simp [hrow])] at hat ⊢
      obtain ⟨t, ht, hsub, hshrinks, htimers, hgone⟩ := h.unsubscribeTrigger fun hd hmem => by
        rw [← hat hd trigger List.mem_cons_self hmem, hrow]
      obtain ⟨u, ok, hu, husub, hushrinks, hutimers, hugone⟩ := ih hsub fun hd name hname hmem => by
        rw [hshrinks.rules] at hd
        rw [hshrinks.table] at hname ⊢
        rw [hshrinks.subscribedAt]
        exact hat hd name (List.mem_cons_of_mem _ hname) (hshrinks.triggers ruleId name hmem)
      refine ⟨u, ok, by dsimp only; rw [ht, Option.bind_some, hu], husub,
        hshrinks.trans hushrinks, hutimers.trans htimers, fun name hname => ?_⟩
      rcases List.mem_cons.mp hname with rfl | hname
      · exact fun hmem => hgone (hushrinks.triggers ruleId name hmem)
      · rw [← hshrinks.table] at hname
        exact hugone name hname

/-- `unsubscribe_rule_triggers`: no token is left for what the loop reaches. -/
theorem Subscribed.unsubscribeRuleTriggers (h : s.Subscribed) {ruleId : ℕ}
    (hat : Distinct s.rules → ∀ rule ∈ s.rules, rule.id = ruleId → ∀ trigger ∈ s.reached rule,
      trigger ∈ s.triggerTokens ruleId →
        s.table.byString trigger = s.subscribedAt ruleId trigger) :
    ∃ t ok, s.unsubscribeRuleTriggers ruleId = some (t, ok) ∧ t.Subscribed ∧ s.Shrinks t ∧
      t.timers = s.timers ∧ ∀ rule, s.queryRuleById ruleId = some rule →
        ∀ trigger ∈ s.reached rule, trigger ∉ t.triggerTokens ruleId := by
  rw [RulesDispatcher.unsubscribeRuleTriggers]
  by_cases hnil : (s.triggerTokens ruleId).entries = []
  · rw [if_pos hnil]
    refine ⟨s, false, rfl, h, Shrinks.refl s, rfl, fun rule _ trigger _ hmem => ?_⟩
    rw [AList.mem_keys, AList.keys, hnil] at hmem
    exact List.not_mem_nil hmem
  · rw [if_neg hnil]
    cases hquery : s.queryRuleById ruleId with
    | none => exact ⟨s, false, rfl, h, Shrinks.refl s, rfl, fun rule hrule => by cases hrule⟩
    | some rule =>
      obtain ⟨hrule, hid⟩ := queryRuleById_eq_some hquery
      obtain ⟨t, ok, ht, hsub, hshrinks, htimers, hgone⟩ :=
        h.unsubscribeTriggers fun hd => hat hd rule hrule hid
      refine ⟨t, ok, ht, hsub, hshrinks, htimers, fun found hfound => ?_⟩
      obtain rfl := Option.some.inj hfound
      exact hgone

/-- `unsubscribe_rule_enable`: no token is left for the rule, unless it has no enable row. -/
theorem Subscribed.unsubscribeRuleEnable (h : s.Subscribed) (hd : Distinct s.rules) {rule : Rule}
    (hrule : rule ∈ s.rules) :
    ∃ t, s.unsubscribeRuleEnable rule.id = some t ∧ t.Subscribed ∧ s.Shrinks t ∧
      t.timers = s.timers ∧ (rule.id ∉ t.enableTokens ∨ t.ruleEnabledMap rule.id = none) := by
  rw [RulesDispatcher.unsubscribeRuleEnable]
  by_cases hnil : s.enableTokens.entries = []
  · rw [if_pos hnil]
    refine ⟨s, rfl, h, Shrinks.refl s, rfl, .inl fun hmem => ?_⟩
    rw [AList.mem_keys, AList.keys, hnil] at hmem
    exact List.not_mem_nil hmem
  · rw [if_neg hnil, queryRuleById_of_distinct hd hrule]
    cases hrow : s.ruleEnabledMap rule.id with
    | none => exact ⟨s, rfl, h, Shrinks.refl s, rfl, .inr hrow⟩
    | some row =>
      obtain ⟨sub, hsub, hreg, hlive⟩ :=
        h.registered.unsubscribeRow row ((s.enableTokens.lookup rule.id).getD 0)
      have hmem {l : LiveSubscriber ρ RuleSubscriber} (hl : l ∈ sub.live) :
          l ∈ s.subscriptions.live ∧
            ¬(l.row = row ∧ l.token = (s.enableTokens.lookup rule.id).getD 0) := by
        rw [hlive, List.mem_filter, decide_eq_true_iff] at hl
        exact hl
      refine ⟨_, congrArg (Option.map _) hsub, ⟨hreg, fun l hl => h.loaded l (hmem hl).1,
        fun id hid => h.known id (mem_of_mem_erase hid),
        fun _ => ⟨fun l hl => (h.covered hd).trigger l (hmem hl).1, fun l hl object hfunc => ?_⟩⟩,
        ⟨rfl, rfl, rfl, rfl, rfl, rfl, ?_, fun _ _ hname => hname,
          fun id hid => mem_of_mem_erase hid⟩, rfl,
        .inl fun hid => (AList.mem_erase.mp hid).1 rfl⟩
      · obtain ⟨owner, howner, hobject, hlookup, hownerRow⟩ :=
          (h.covered hd).enable l (hmem hl).1 object hfunc
        refine ⟨owner, howner, hobject, ?_, hownerRow⟩
        -- the subscription of the rule itself has been taken out
        have hne : owner.id ≠ rule.id := by
          intro heq
          rw [heq] at hlookup hownerRow
          refine (hmem hl).2 ⟨?_, ?_⟩
          · exact Option.some.inj (hownerRow.symm.trans hrow)
          · rw [hlookup]
            rfl
        dsimp only
        rw [AList.lookup_erase_ne hne, hlookup]
      · dsimp only
        rw [hlive]
        exact List.filter_sublist

end RulesDispatcher

end UtilityFramework
